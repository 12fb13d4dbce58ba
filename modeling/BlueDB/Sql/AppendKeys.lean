import BlueDB.Sql.Watermark

/-!
# Keys of appended rows

Rows of a table without a primary key get consecutive integer keys from a counter
in the memory of the writer. The counter starts at the highest key of a committed
row and then runs on without a look at the store: a transaction that brings back
a row deleted since its snapshot can bring back a key that has been given out.
-/

namespace BlueDB.Sql

open Overlay (RowChange)

variable {ι : Type} {G : Engine}

/-- Where the allocator goes on for the table `id`. -/
def Conn.counter (c : Conn G) (id : UInt64) : ℤ := (c.seq id).getD (liveMaxI64Key c.live id)

/-- The counters that are seeded are not negative. -/
def Conn.Counting (c : Conn G) : Prop := ∀ id last, c.seq id = some last → 0 ≤ last

/-- The key was given out between `c` and `c'`. -/
structure NewKey (c c' : Conn G) (w : TappedRow G) (m : ℤ) : Prop where
  key : w.change.key = G.i64 m
  bytes : keyBytes (G.i64 m) = .ok w.bytes
  isI64 : IsI64 m
  lower : c.counter w.id < m
  upper : ∃ last, c'.seq w.id = some last ∧ m ≤ last

/-- Two rows that are both appended to one table have different keys. -/
def Apart (w w' : TappedRow G) : Prop :=
  w.appended = true → w'.appended = true → w.id = w'.id → w.change.key ≠ w'.change.key

/-- The rows `ws` are written between `s` and `s'`, those appended under new keys. -/
structure TapAppends (s s' : Tapped G) (ws : List (TappedRow G × Bool)) : Prop where
  written : s'.written = s.written ++ ws
  extends_ : Extends s.conn s'.conn
  counting : s'.conn.Counting
  fresh : ∀ w ∈ ws, w.1.appended = true → ∃ m, NewKey s.conn s'.conn w.1 m
  apart : ws.Pairwise fun w w' => Apart w.1 w'.1

def AppendsSome (s s' : Tapped G) : Prop :=
  s.conn.txn.isSome = true → s.conn.Counting → ∃ ws, TapAppends s s' ws

theorem liveMaxI64Key_nonneg (live : Store G) (id : UInt64) : 0 ≤ liveMaxI64Key live id := by
  unfold liveMaxI64Key
  generalize ((scanTable live id).filterMap (storedRow live)).filterMap
    (fun stored => G.asI64 stored.key) = keys
  suffices h : ∀ a : ℤ, 0 ≤ a → 0 ≤ keys.foldl max a from h 0 le_rfl
  intro a ha
  induction keys generalizing a with
  | nil => exact ha
  | cons k keys ih => exact ih (max a k) (le_max_of_le_left ha)

theorem Conn.Counting.counter_nonneg {c : Conn G} (h : c.Counting) (id : UInt64) :
    0 ≤ c.counter id := by
  unfold Conn.counter
  cases hseq : c.seq id with
  | none => exact liveMaxI64Key_nonneg _ _
  | some last => exact h id last hseq

theorem Extends.counter_le {c c' : Conn G} (h : Extends c c') (id : UInt64) :
    c.counter id ≤ c'.counter id := by
  unfold Conn.counter
  rcases h.seq id with hsame | ⟨last, hlast, hle⟩
  · rw [hsame, h.live]
  · rw [hlast]
    exact hle

theorem Extends.counting {c c' : Conn G} (h : Extends c c') (hc : c.Counting) : c'.Counting := by
  intro id last hlast
  have hle := h.counter_le id
  have hzero := hc.counter_nonneg id
  unfold Conn.counter at hle hzero
  rw [hlast, Option.getD_some] at hle
  omega

theorem Extends.seq_le {c c' : Conn G} (h : Extends c c') {id : UInt64} {last : ℤ}
    (hlast : c.seq id = some last) : ∃ last', c'.seq id = some last' ∧ last ≤ last' := by
  rcases h.seq id with hsame | ⟨last', hlast', hle⟩
  · exact ⟨last, hsame.trans hlast, le_rfl⟩
  · rw [hlast] at hle
    exact ⟨last', hlast', hle⟩

theorem i64_ne (hG : Lawful G) {m n : ℤ} (hm : IsI64 m) (hn : IsI64 n) (hne : m ≠ n) :
    G.i64 m ≠ G.i64 n := by
  intro heq
  have hkey := hG.asI64_i64 hm
  rw [heq, hG.asI64_i64 hn] at hkey
  exact hne (Option.some.inj hkey).symm

theorem TapAppends.refl {s : Tapped G} (htxn : s.conn.txn.isSome = true) (hc : s.conn.Counting) :
    TapAppends s s [] :=
  ⟨(List.append_nil _).symm, Extends.refl htxn, hc, by simp, List.Pairwise.nil⟩

/-- Later keys are above the counter and so apart from the earlier ones. -/
theorem TapAppends.trans (hG : Lawful G) {s s' s'' : Tapped G} {ws ws' : List (TappedRow G × Bool)}
    (h : TapAppends s s' ws) (h' : TapAppends s' s'' ws') : TapAppends s s'' (ws ++ ws') := by
  constructor
  · rw [h'.written, h.written, List.append_assoc]
  · exact h.extends_.trans h'.extends_
  · exact h'.counting
  · intro w hw happended
    rcases List.mem_append.mp hw with hw | hw
    · obtain ⟨m, hm⟩ := h.fresh w hw happended
      obtain ⟨last, hlast, hle⟩ := hm.upper
      obtain ⟨last', hlast', hle'⟩ := h'.extends_.seq_le hlast
      exact ⟨m, hm.key, hm.bytes, hm.isI64, hm.lower, last', hlast', hle.trans hle'⟩
    · obtain ⟨m, hm⟩ := h'.fresh w hw happended
      exact ⟨m, hm.key, hm.bytes, hm.isI64, (h.extends_.counter_le w.1.id).trans_lt hm.lower,
        hm.upper⟩
  · rw [List.pairwise_append]
    refine ⟨h.apart, h'.apart, fun w hw w' hw' happended happended' hid => ?_⟩
    obtain ⟨m, hm⟩ := h.fresh w hw happended
    obtain ⟨m', hm'⟩ := h'.fresh w' hw' happended'
    obtain ⟨last, hlast, hle⟩ := hm.upper
    have hlower := hm'.lower
    unfold Conn.counter at hlower
    rw [← hid, hlast, Option.getD_some] at hlower
    rw [hm.key, hm'.key]
    exact i64_ne hG hm.isI64 hm'.isI64 (by omega)

theorem lift_appendsSome {α : Type} {x : Exec G α} (hx : Silent x) :
    Along AppendsSome (fun _ => AppendsSome) (Tap.lift x) := by
  apply Along.lift (hx.along bufferwise_grows)
  intro s c hgrows htxn hc
  have hextends := hgrows htxn
  exact ⟨[], (List.append_nil _).symm, hextends, hextends.counting hc, by simp, List.Pairwise.nil⟩

theorem tapWrite_state (w : TappedRow G) (value : Option (StoredRow G)) (s : Tapped G) :
    ∃ s', tapWrite w value s = .ok ⟨⟩ s' ∧
      s'.written = s.written ++ [(w, s.wantsChanges w.change.table)] ∧
      s'.conn = s.conn.write ⟨.row w.id w.bytes, value⟩ := by
  refine ⟨{ s.tap w with conn := (s.tap w).conn.write ⟨.row w.id w.bytes, value⟩ }, rfl, ?_, ?_⟩
  · unfold Tapped.tap Tapped.recordChange
    dsimp only
    split_ifs <;> rfl
  · unfold Tapped.tap Tapped.recordChange
    dsimp only
    split_ifs <;> rfl

theorem write_appendsSome (w : TappedRow G) (value : Option (StoredRow G))
    (hw : w.appended = false) : Along AppendsSome (fun _ => AppendsSome) (tapWrite w value) := by
  constructor
  intro s
  obtain ⟨s', hs', hwritten, hconn⟩ := tapWrite_state w value s
  unfold Holds
  rw [hs']
  intro htxn hc
  have hextends : Extends s.conn s'.conn := by
    rw [hconn]
    exact (buffered_write htxn _).extends
  refine ⟨_, hwritten, hextends, hextends.counting hc, ?_, List.pairwise_singleton ..⟩
  intro w' hw' happended
  rw [List.mem_singleton.mp hw'] at happended
  exact absurd (hw.symm.trans happended) (by simp)

/-- The rows `ws` are appended to table `id` under keys from `next` on. -/
structure AppendsFrom (s s' : Tapped G) (id : UInt64) (next : ℤ) (n : ℕ)
    (ws : List (TappedRow G × Bool)) : Prop where
  written : s'.written = s.written ++ ws
  extends_ : Extends s.conn s'.conn
  keys : ∀ w ∈ ws, w.1.id = id ∧ ∃ m, next ≤ m ∧ m < next + n ∧ w.1.change.key = G.i64 m ∧
    keyBytes (G.i64 m) = .ok w.1.bytes
  apart : ws.Pairwise fun w w' => Apart w.1 w'.1

theorem AppendsFrom.nil {s s' : Tapped G} (hwritten : s'.written = s.written)
    (hextends : Extends s.conn s'.conn) (id : UInt64) (next : ℤ) (n : ℕ) :
    AppendsFrom s s' id next n [] :=
  ⟨by rw [hwritten, List.append_nil], hextends, by simp, List.Pairwise.nil⟩

theorem appendRow_appends (t : Name) (id : UInt64) (catalog : Option (ColumnCatalog G)) (next : ℤ)
    (row : DataRow G.Value) (s : Tapped G) (htxn : s.conn.txn.isSome = true) :
    Holds (Tap.appendRow t id catalog next row) s
      (fun _ s' => ∃ w, AppendsFrom s s' id next 1 [w])
      (fun _ s' => AppendsFrom s s' id next 1 []) := by
  unfold Tap.appendRow Tap.putRow
  rw [Holds.bind_iff]
  cases hbytes : keyBytes (G.i64 next) with
  | error e => exact AppendsFrom.nil rfl (Extends.refl htxn) id next 1
  | ok bytes =>
    rw [Holds.ofExcept_ok, Holds.bind_iff]
    have hentries : Along (fun s s' : Tapped G => s.conn.txn.isSome = true →
        s'.written = s.written ∧ Extends s.conn s'.conn)
        (fun _ s s' => s.conn.txn.isSome = true → s'.written = s.written ∧ Extends s.conn s'.conn)
        (Tap.lift (applyIndexEntries t (G.i64 next) row true)) :=
      Along.lift ((silent_applyIndexEntries ..).along bufferwise_grows)
        fun s c hgrows htxn => ⟨rfl, hgrows htxn⟩
    apply (hentries.holds s).mono
    · intro _ s1 h1
      obtain ⟨hwritten, hextends⟩ := h1 htxn
      obtain ⟨s', hs', hwritten', hconn⟩ := tapWrite_state
        ⟨⟨t, G.i64 next, some row⟩, id, bytes, true⟩
        (some ⟨G.i64 next, toPhysical catalog row⟩) s1
      change Holds (tapWrite _ _) s1 _ _
      unfold Holds
      rw [hs']
      refine ⟨_, by rw [hwritten', hwritten], ?_, ?_, List.pairwise_singleton ..⟩
      · rw [hconn]
        exact hextends.trans (buffered_write hextends.isSome _).extends
      · intro w hw
        rw [List.mem_singleton.mp hw]
        exact ⟨rfl, next, le_rfl, by omega, rfl, hbytes⟩
    · intro _ s1 h1
      exact AppendsFrom.nil (h1 htxn).1 (h1 htxn).2 id next 1

theorem AppendsFrom.mono {s s' : Tapped G} {id : UInt64} {next : ℤ} {n n' : ℕ}
    {ws : List (TappedRow G × Bool)} (h : AppendsFrom s s' id next n ws) (hn : n ≤ n') :
    AppendsFrom s s' id next n' ws := by
  refine ⟨h.written, h.extends_, fun w hw => ?_, h.apart⟩
  obtain ⟨hid, m, hlower, hupper, hkey⟩ := h.keys w hw
  exact ⟨hid, m, hlower, by omega, hkey⟩

theorem AppendsFrom.append (hG : Lawful G) {s s' s'' : Tapped G} {id : UInt64} {next : ℤ} {n : ℕ}
    {ws ws' : List (TappedRow G × Bool)} (hrange : ∀ m, next ≤ m → m < next + (n + 1 : ℕ) → IsI64 m)
    (h : AppendsFrom s s' id next 1 ws) (h' : AppendsFrom s' s'' id (next + 1) n ws') :
    AppendsFrom s s'' id next (n + 1) (ws ++ ws') := by
  refine ⟨?_, h.extends_.trans h'.extends_, ?_, ?_⟩
  · rw [h'.written, h.written, List.append_assoc]
  · intro w hw
    rcases List.mem_append.mp hw with hw | hw
    · obtain ⟨hid, m, hlower, hupper, hkey⟩ := h.keys w hw
      exact ⟨hid, m, hlower, by omega, hkey⟩
    · obtain ⟨hid, m, hlower, hupper, hkey⟩ := h'.keys w hw
      exact ⟨hid, m, by omega, by push_cast; omega, hkey⟩
  · rw [List.pairwise_append]
    refine ⟨h.apart, h'.apart, fun w hw w' hw' _ _ _ => ?_⟩
    obtain ⟨-, m, hlower, hupper, hkey, -⟩ := h.keys w hw
    obtain ⟨-, m', hlower', hupper', hkey', -⟩ := h'.keys w' hw'
    rw [hkey, hkey']
    apply i64_ne hG (hrange m hlower (by push_cast; omega))
      (hrange m' (by omega) (by push_cast; omega))
    omega

theorem appendRows_appends (hG : Lawful G) (t : Name) (id : UInt64)
    (catalog : Option (ColumnCatalog G)) (next : ℤ) (rows : List (DataRow G.Value)) (s : Tapped G)
    (htxn : s.conn.txn.isSome = true)
    (hrange : ∀ m, next ≤ m → m < next + rows.length → IsI64 m) :
    Holds (Tap.appendRows t id catalog next rows) s
      (fun _ s' => ∃ ws, AppendsFrom s s' id next rows.length ws)
      (fun _ s' => ∃ ws, AppendsFrom s s' id next rows.length ws) := by
  induction rows generalizing next s with
  | nil => exact ⟨[], AppendsFrom.nil rfl (Extends.refl htxn) id next 0⟩
  | cons row rows ih =>
    unfold Tap.appendRows
    rw [Holds.bind_iff]
    have hrange' : ∀ m, next + 1 ≤ m → m < next + 1 + rows.length → IsI64 m := by
      intro m hlower hupper
      exact hrange m (by omega) (by rw [List.length_cons]; push_cast; omega)
    apply (appendRow_appends t id catalog next row s htxn).mono
    · rintro _ s' ⟨w, hw⟩
      apply (ih (next + 1) s' hw.extends_.isSome hrange').mono
      · rintro _ s'' ⟨ws, hws⟩
        exact ⟨[w] ++ ws, hw.append hG hrange hws⟩
      · rintro _ s'' ⟨ws, hws⟩
        exact ⟨[w] ++ ws, hw.append hG hrange hws⟩
    · intro _ s' hs'
      exact ⟨[], hs'.mono (by rw [List.length_cons]; omega)⟩

/-- What the allocator gives out lies above the counter, and the counter is moved
behind it. -/
theorem allocateKeys_state (t : Name) (count : ℕ) (c : Conn G) :
    Holds (allocateKeys t count) c
      (fun next c' => ∃ id, tableId c.view t = .ok id ∧ next = c.counter id + 1 ∧
        c.counter id + count < 2 ^ 63 ∧ c'.view = c.view ∧ c'.txn = c.txn ∧ c'.live = c.live ∧
        c'.seq = Function.update c.seq id (some (c.counter id + count)))
      (fun _ c' => c' = c) := by
  unfold allocateKeys
  rw [Holds.bind_iff, Holds.get_iff, Holds.bind_iff]
  apply holds_ofExcept
  · intro id hid
    dsimp only
    split_ifs with hlimit
    · exact ⟨id, hid, rfl, hlimit, rfl, rfl, rfl, rfl⟩
    · rfl
  · intro _ _
    rfl

theorem appendData_appendsSome (hG : Lawful G) (t : Name) (rows : List (DataRow G.Value)) :
    Along AppendsSome (fun _ => AppendsSome) (Tap.appendData t rows) := by
  constructor
  intro s
  unfold Tap.appendData
  split_ifs with hnil
  · exact fun htxn hc => ⟨[], TapAppends.refl htxn hc⟩
  rw [Holds.bind_iff]
  have hlift : Holds (Tap.lift (allocateKeys t rows.length)) s
      (fun next s' => ∃ id, next = s.conn.counter id + 1 ∧
        s.conn.counter id + rows.length < 2 ^ 63 ∧ tableId s'.conn.view t = .ok id ∧
        s'.written = s.written ∧ s'.conn.txn = s.conn.txn ∧ s'.conn.live = s.conn.live ∧
        s'.conn.seq = Function.update s.conn.seq id (some (s.conn.counter id + rows.length)))
      (fun _ s' => s' = s) := by
    have hstate := allocateKeys_state t rows.length s.conn
    unfold Holds at hstate ⊢
    unfold Tap.lift
    cases hres : allocateKeys t rows.length s.conn with
    | ok next c =>
      rw [hres] at hstate
      obtain ⟨id, hid, hnext, hlimit, hview, htxn, hlive, hseq⟩ := hstate
      exact ⟨id, hnext, hlimit, hview ▸ hid, rfl, htxn, hlive, hseq⟩
    | error e c =>
      rw [hres] at hstate
      rw [hstate]
  apply hlift.mono
  · rintro next s1 ⟨id, rfl, hlimit, hid, hwritten, htxn1, hlive, hseq⟩
    rw [holds_view, hid, Holds.bind_iff, Holds.ofExcept_ok]
    -- the counter has moved behind the keys of the rows
    have hmoved : s.conn.txn.isSome = true → Extends s.conn s1.conn := by
      intro htxn
      obtain ⟨x, hx⟩ := Option.isSome_iff_exists.mp htxn
      refine ⟨⟨x, hx, x, htxn1.trans hx, rfl, [], by simp⟩, hlive, fun id' => ?_⟩
      rw [hseq]
      by_cases hid' : id' = id
      · subst id'
        refine Or.inr ⟨_, Function.update_self .., ?_⟩
        unfold Conn.counter
        omega
      · exact Or.inl (Function.update_of_ne hid' ..)
    have hdone : ∀ s', s.conn.txn.isSome = true → s.conn.Counting →
        (∃ ws, AppendsFrom s1 s' id (s.conn.counter id + 1) rows.length ws) →
          ∃ ws, TapAppends s s' ws := by
      intro s' htxn hc ⟨ws, hws⟩
      have hextends := (hmoved htxn).trans hws.extends_
      refine ⟨ws, by rw [hws.written, hwritten], hextends, hextends.counting hc, ?_, hws.apart⟩
      intro w hw _
      obtain ⟨hwid, m, hlower, hupper, hkey, hbytes⟩ := hws.keys w hw
      have hzero := hc.counter_nonneg id
      have hlast : s1.conn.seq id = some (s.conn.counter id + rows.length) := by
        rw [hseq, Function.update_self]
      obtain ⟨last, hlast', hle⟩ := hws.extends_.seq_le hlast
      refine ⟨m, hkey, hbytes, ⟨by omega, by omega⟩, ?_, last, ?_, by omega⟩
      · rw [hwid]
        omega
      · rw [hwid]
        exact hlast'
    by_cases htxn : s.conn.txn.isSome = true
    · by_cases hc : s.conn.Counting
      · have hzero := hc.counter_nonneg id
        apply (appendRows_appends hG t id (readCatalog s1.conn.view t) (s.conn.counter id + 1) rows
          s1 (htxn1 ▸ htxn) fun m hlower hupper => ⟨by omega, by omega⟩).mono
        · intro _ s' hs' htxn hc
          exact hdone s' htxn hc hs'
        · intro _ s' hs' htxn hc
          exact hdone s' htxn hc hs'
      · exact Holds.always (fun _ _ _ hc' => absurd hc' hc) fun _ _ _ hc' => absurd hc' hc
    · exact Holds.always (fun _ _ htxn' => absurd htxn' htxn) fun _ _ htxn' => absurd htxn' htxn
  · rintro _ s' rfl htxn hc
    exact ⟨[], TapAppends.refl htxn hc⟩

theorem tapwise_appendsSome (hG : Lawful G) : Tapwise (AppendsSome (G := G)) where
  refl _ htxn hc := ⟨[], TapAppends.refl htxn hc⟩
  trans h h' htxn hc := by
    obtain ⟨ws, hws⟩ := h htxn hc
    obtain ⟨ws', hws'⟩ := h' hws.extends_.isSome hws.counting
    exact ⟨ws ++ ws', hws.trans hG hws'⟩
  lift := lift_appendsSome
  write := write_appendsSome
  append := appendData_appendsSome hG

/-- The rows the transaction stores are stored under the bytes of their keys. -/
def PutsMatch (x : Txn G) : Prop := ∀ w ∈ x.overlay, Placed w ∨ ∃ t, w.key = .uniqueidx t

/-- A statement stores rows under the bytes of their keys. -/
def KeepsMatch (c c' : Conn G) : Prop := ∀ x ∈ c.txn, ∃ x' ∈ c'.txn, PutsMatch x → PutsMatch x'

theorem tracks_keepsMatch : Tracks (KeepsMatch (G := G)) fun _ : Error G => KeepsMatch := by
  have htrans : ∀ {c c' c'' : Conn G}, KeepsMatch c c' → KeepsMatch c' c'' → KeepsMatch c c'' := by
    intro c c' c'' h h' x hx
    obtain ⟨x', hx', hmatch⟩ := h x hx
    obtain ⟨x'', hx'', hmatch'⟩ := h' x' hx'
    exact ⟨x'', hx'', fun hm => hmatch' (hmatch hm)⟩
  exact ⟨fun c x hx => ⟨x, hx, fun hm => hm⟩, htrans, htrans⟩

theorem write_keepsMatch (c : Conn G) {w : Write (StorageKey.Value G)}
    (hw : Placed w ∨ ∃ t, w.key = .uniqueidx t) : KeepsMatch c (c.write w) := by
  intro x hx
  refine ⟨{ x with overlay := x.overlay ++ [w] }, ?_, fun hmatch w' hw' => ?_⟩
  · unfold Conn.write
    rw [Option.mem_def.mp hx]
    rfl
  · rcases List.mem_append.mp hw' with hw' | hw'
    · exact hmatch w' hw'
    · exact List.mem_singleton.mp hw' ▸ hw

theorem placed_indexEntry (id : UInt64) (index : Name) (v p : List UInt8) (value : Option G.Key) :
    Placed (⟨.indexEntry id index v p, value⟩ : Write (StorageKey.Value G)) :=
  ⟨by simp, fun id' p' st heq => absurd (congrArg Write.key heq) (by simp)⟩

theorem stage_keepsMatch (f : Txn G → Txn G) (hover : ∀ x, (f x).overlay = x.overlay) :
    Along KeepsMatch (fun _ => KeepsMatch)
      (modify fun c => { c with txn := c.txn.map f } : Exec G Unit) := by
  apply Along.modify
  intro c x hx
  refine ⟨f x, by simp [Option.mem_def.mp hx], fun hmatch => ?_⟩
  unfold PutsMatch
  rw [hover]
  exact hmatch

theorem except_keepsMatch {α : Type} (x : Except (Error G) α) :
    Along (KeepsMatch (G := G)) (fun _ => KeepsMatch) (ofExcept x) :=
  Along.ofExcept tracks_keepsMatch fun _ _ => tracks_keepsMatch.refl

theorem checkUnique_keepsMatch (t : Name) (id : UInt64) (unique : List Name) (index : Name)
    (value pk : G.Key) :
    Along KeepsMatch (fun _ => KeepsMatch) (checkUnique t id unique index value pk) := by
  unfold checkUnique
  split_ifs with hunique
  · apply Along.bind tracks_keepsMatch
    · unfold enforceUniqueIndex
      apply Along.bind tracks_keepsMatch (except_keepsMatch _)
      intro bytes
      apply Along.bind tracks_keepsMatch (Along.get tracks_keepsMatch)
      intro c
      dsimp only
      split_ifs with howners
      · exact Along.pure tracks_keepsMatch _
      · exact Along.throw tracks_keepsMatch.refl
    · intro _
      apply Along.bind tracks_keepsMatch (except_keepsMatch _)
      intro bytes
      exact stage_keepsMatch _ fun _ => rfl
  · exact Along.pure tracks_keepsMatch _

theorem applyIndexEntries_keepsMatch (t : Name) (pk : G.Key) (row : DataRow G.Value)
    (insert : Bool) :
    Along KeepsMatch (fun _ => KeepsMatch) (applyIndexEntries t pk row insert) := by
  apply Along.bind tracks_keepsMatch (Along.get tracks_keepsMatch)
  intro c
  dsimp only
  split_ifs with hnil
  · exact Along.pure tracks_keepsMatch _
  apply Along.bind tracks_keepsMatch (except_keepsMatch _)
  intro id
  apply Along.forM tracks_keepsMatch
  intro index _
  apply Along.bind tracks_keepsMatch (except_keepsMatch _)
  intro value
  apply Along.bind tracks_keepsMatch (checkUnique_keepsMatch ..)
  intro _
  apply Along.bind tracks_keepsMatch (except_keepsMatch _)
  intro valueBytes
  apply Along.bind tracks_keepsMatch (except_keepsMatch _)
  intro pkBytes
  split_ifs with hinsert
  · exact Along.modify fun c => write_keepsMatch c (Or.inl (placed_indexEntry ..))
  · exact Along.modify fun c => write_keepsMatch c (Or.inl (placed_indexEntry ..))

theorem stepwise_keepsMatch : Stepwise (fun _ => True) KeepsMatch (fun _ : Error G =>
    KeepsMatch) where
  tracks := tracks_keepsMatch
  write c _ hw := write_keepsMatch c (Or.inl hw)
  forget t i := by
    apply Along.bind tracks_keepsMatch (Along.get tracks_keepsMatch)
    intro c
    dsimp only
    split_ifs with hunique
    · exact Along.modify fun c => write_keepsMatch c (Or.inr ⟨t, rfl⟩)
    · exact Along.pure tracks_keepsMatch _
  entries t pk row insert _ := applyIndexEntries_keepsMatch t pk row insert
  stage _ := stage_keepsMatch _ fun _ => rfl
  allocate t n := by
    constructor
    intro c
    apply (allocateKeys_state t n c).mono
    · rintro _ c' ⟨id, -, -, -, -, htxn, -⟩ x hx
      exact ⟨x, htxn ▸ hx, fun h => h⟩
    · rintro _ c' rfl
      exact tracks_keepsMatch.refl _
  error _ c _ := tracks_keepsMatch.refl c

theorem row_commit {s : Store G} {ws : Batch G} {id : UInt64} {p : List UInt8} {st : StoredRow G}
    (h : readRow (s.commit ws) id p = some st) :
    (.put (.row id p) st ∈ ws) ∨ readRow s id p = some st := by
  induction ws generalizing s with
  | nil => exact Or.inr h
  | cons w ws ih =>
    rcases ih h with hmem | hold
    · exact Or.inl (List.mem_cons_of_mem _ hmem)
    · by_cases hk : StorageKey.row id p = w.key
      · left
        obtain ⟨k, value⟩ := w
        obtain rfl : StorageKey.row id p = k := hk
        have hvalue : value = some st := (Kv.get_write_self s ⟨.row id p, value⟩).symm.trans hold
        rw [hvalue]
        exact List.mem_cons_self
      · exact Or.inr ((Kv.get_write_of_ne hk).symm.trans hold)

theorem PutsMatch.bytes {x : Txn G} (h : PutsMatch x) {id : UInt64} {p : List UInt8}
    {st : StoredRow G} (hmem : .put (.row id p) st ∈ x.overlay) : keyBytes st.key = .ok p := by
  rcases h _ hmem with hplaced | ⟨t, ht⟩
  · exact hplaced.row id p st rfl
  · exact absurd ht (by simp)

/-- The rows the transaction has appended to table `id`. -/
def OpenTxn.appended (x : OpenTxn G) (id : UInt64) : List (TappedRow G) :=
  (x.written.map Prod.fst).filter fun w => w.appended && w.id == id

/-- The row that a write stores. -/
def storedBy : Write (StorageKey.Value G) → Option (UInt64 × List UInt8 × StoredRow G)
  | ⟨.row id p, some st⟩ => some (id, p, st)
  | _ => none

section Runs

variable [DecidableEq ι] {srv : Writer ι G} {id : UInt64}

namespace Writer

/-- A row may be stored again under its key: it is live, or its key is an integer
that the allocator has passed and no open transaction has appended a row under. -/
def Settled (srv : Writer ι G) (id : UInt64) (p : List UInt8) (key : G.Key) : Prop :=
  (∃ old ∈ readRow srv.live id p, old.key = key) ∨
    ∃ m ∈ G.asI64 key, key = G.i64 m ∧ IsI64 m ∧ ∀ last ∈ srv.seq id,
      m ≤ last ∧ ∀ i, ∀ y ∈ (srv.phase i).open?, ∀ w ∈ y.appended id, w.change.key ≠ key

instance [Fintype ι] (id : UInt64) (p : List UInt8) (key : G.Key) :
    Decidable (srv.Settled id p key) := inferInstanceAs (Decidable (_ ∨ _))

/-- Every row that a committing transaction stores in the table `id` is one it has
appended, or one that may be stored again. -/
def Rewrites (srv : Writer ι G) (id : UInt64) (ev : WriterEvent ι G) : Prop :=
  ∀ x ∈ srv.committed ev, ∀ q ∈ x.txn.overlay.filterMap storedBy, q.1 = id →
    (∃ w ∈ x.appended id, w.bytes = q.2.1 ∧ w.change.key = q.2.2.key) ∨
      srv.Settled id q.2.1 q.2.2.key

instance [Fintype ι] (id : UInt64) (ev : WriterEvent ι G) : Decidable (srv.Rewrites id ev) :=
  inferInstanceAs (Decidable (∀ _ ∈ _, _))

/-- Every commit of a run is such a commit. -/
def Conforms (id : UInt64) : Writer ι G → List (LifeEvent ι G) → Prop
  | _, [] => True
  | srv, .restart :: events => Conforms id srv.restart events
  | srv, .conn isEnabled ev :: events =>
    srv.Rewrites id ev ∧ Conforms id (srv.step isEnabled ev) events

instance conformsDecidable [Fintype ι] (id : UInt64) :
    ∀ (events : List (LifeEvent ι G)) (srv : Writer ι G), Decidable (Conforms id srv events)
  | [], _ => isTrue trivial
  | .restart :: events, srv => conformsDecidable id events srv.restart
  | .conn isEnabled ev :: events, srv =>
    have := conformsDecidable id events (srv.step isEnabled ev)
    inferInstanceAs (Decidable (_ ∧ _))

/-- The keys of the rows that a step commits as appended to the table `id`. -/
def committedKeys (srv : Writer ι G) (id : UInt64) (ev : WriterEvent ι G) : List G.Key :=
  (srv.committed ev).toList.flatMap fun x => (x.appended id).map (·.change.key)

/-- Every row that a commit appends to the table `id` gets a key that no row has,
and no other row since the writer opened; `given` are the keys so far. -/
def AppendsFresh (id : UInt64) : Writer ι G → List G.Key → List (LifeEvent ι G) → Prop
  | _, _, [] => True
  | srv, _, .restart :: events => AppendsFresh id srv.restart [] events
  | srv, given, .conn isEnabled ev :: events =>
    (∀ x ∈ srv.committed ev, ∀ w ∈ x.appended id, readRow srv.live id w.bytes = none) ∧
      (given ++ srv.committedKeys id ev).Nodup ∧
      AppendsFresh id (srv.step isEnabled ev) (given ++ srv.committedKeys id ev) events

instance appendsFreshDecidable (id : UInt64) :
    ∀ (events : List (LifeEvent ι G)) (srv : Writer ι G) (given : List G.Key),
      Decidable (AppendsFresh id srv given events)
  | [], _, _ => isTrue trivial
  | .restart :: events, srv, _ => appendsFreshDecidable id events srv.restart []
  | .conn isEnabled ev :: events, srv, given =>
    have := appendsFreshDecidable id events (srv.step isEnabled ev)
      (given ++ srv.committedKeys id ev)
    inferInstanceAs (Decidable (_ ∧ _ ∧ _))

/-- The key was given out, and the counter has passed it. -/
def Given (srv : Writer ι G) (id : UInt64) (key : G.Key) (m : ℤ) : Prop :=
  key = G.i64 m ∧ IsI64 m ∧ ∃ last, srv.seq id = some last ∧ m ≤ last

/-- An appended row of an open transaction waits for its place. -/
structure Pending (srv : Writer ι G) (id : UInt64) (w : TappedRow G) (m : ℤ) : Prop where
  given : srv.Given id w.change.key m
  bytes : keyBytes (G.i64 m) = .ok w.bytes
  free : readRow srv.live id w.bytes = none

/-- What holds of the keys of table `id` when `given` are the ones committed. -/
structure KeysOk (srv : Writer ι G) (id : UInt64) (given : List G.Key) : Prop where
  matched : ∀ i, ∀ x ∈ (srv.phase i).open?, PutsMatch x.txn
  counting : ∀ id last, srv.seq id = some last → 0 ≤ last
  rows : ∀ p st, readRow srv.live id p = some st → ∃ m, st.key = G.i64 m ∧ IsI64 m ∧
    keyBytes (G.i64 m) = .ok p ∧ ∀ last, srv.seq id = some last → m ≤ last
  pending : ∀ i, ∀ x ∈ (srv.phase i).open?, ∀ w ∈ x.appended id, ∃ m, srv.Pending id w m
  own : ∀ i, ∀ x ∈ (srv.phase i).open?, ((x.appended id).map (·.change.key)).Nodup
  others : ∀ i j, i ≠ j → ∀ x ∈ (srv.phase i).open?, ∀ y ∈ (srv.phase j).open?,
    ∀ w ∈ x.appended id, ∀ w' ∈ y.appended id, w.change.key ≠ w'.change.key
  used : ∀ key ∈ given, ∃ m, srv.Given id key m
  nodup : given.Nodup
  apart : ∀ i, ∀ x ∈ (srv.phase i).open?, ∀ w ∈ x.appended id, w.change.key ∉ given

omit [DecidableEq ι] in
theorem keysOk_opened (now : ℤ) (options : ι → ConnOptions) (id : UInt64) :
    (Writer.opened Kv.empty .empty now options : Writer ι G).KeysOk id [] := by
  constructor <;> simp [Writer.opened, SessionPhase.open?, readRow]

omit [DecidableEq ι] in
theorem Given.mono {srv' : Writer ι G} {key : G.Key} {m : ℤ} (h : srv.Given id key m)
    (hseq : ∀ last, srv.seq id = some last → ∃ last', srv'.seq id = some last' ∧ last ≤ last') :
    srv'.Given id key m := by
  obtain ⟨hkey, hm, last, hlast, hle⟩ := h
  obtain ⟨last', hlast', hle'⟩ := hseq last hlast
  exact ⟨hkey, hm, last', hlast', hle.trans hle'⟩

omit [DecidableEq ι] in
theorem KeysOk.of_open {given : List G.Key} (h : srv.KeysOk id given) {srv' : Writer ι G}
    (hlive : srv'.live = srv.live) (hseq : srv'.seq = srv.seq)
    (hopen : ∀ i, ∀ x ∈ (srv'.phase i).open?,
      x ∈ (srv.phase i).open? ∨ x.txn.overlay = [] ∧ x.written = []) : srv'.KeysOk id given := by
  have happended : ∀ x : OpenTxn G, x.written = [] → x.appended id = [] := by
    intro x hx
    rw [OpenTxn.appended, hx]
    rfl
  have hgiven : ∀ key m, srv.Given id key m → srv'.Given id key m := by
    intro key m hm
    exact hm.mono fun last hlast => ⟨last, by rw [hseq, hlast], le_rfl⟩
  constructor
  · intro i x hx
    rcases hopen i x hx with hold | ⟨hover, -⟩
    · exact h.matched i x hold
    · intro w hw
      rw [hover] at hw
      exact absurd hw (by simp)
  · rw [hseq]
    exact h.counting
  · rw [hlive, hseq]
    exact h.rows
  · intro i x hx w hw
    rcases hopen i x hx with hold | ⟨-, hwritten⟩
    · obtain ⟨m, hm⟩ := h.pending i x hold w hw
      exact ⟨m, hgiven _ _ hm.given, hm.bytes, by rw [hlive]; exact hm.free⟩
    · rw [happended x hwritten] at hw
      exact absurd hw (by simp)
  · intro i x hx
    rcases hopen i x hx with hold | ⟨-, hwritten⟩
    · exact h.own i x hold
    · rw [happended x hwritten]
      exact List.nodup_nil
  · intro i j hij x hx y hy w hw w' hw'
    rcases hopen i x hx with hx | ⟨-, hwritten⟩
    · rcases hopen j y hy with hy | ⟨-, hwritten⟩
      · exact h.others i j hij x hx y hy w hw w' hw'
      · rw [happended y hwritten] at hw'
        exact absurd hw' (by simp)
    · rw [happended x hwritten] at hw
      exact absurd hw (by simp)
  · intro key hkey
    obtain ⟨m, hm⟩ := h.used key hkey
    exact ⟨m, hgiven _ _ hm⟩
  · exact h.nodup
  · intro i x hx w hw
    rcases hopen i x hx with hold | ⟨-, hwritten⟩
    · exact h.apart i x hold w hw
    · rw [happended x hwritten] at hw
      exact absurd hw (by simp)

theorem open_update {srv' : Writer ι G} {i : ι} {p : SessionPhase G}
    (hphase : srv'.phase = Function.update srv.phase i p)
    (hp : ∀ x ∈ p.open?, x ∈ (srv.phase i).open? ∨ x.txn.overlay = [] ∧ x.written = []) (j : ι)
    (x : OpenTxn G) (hx : x ∈ (srv'.phase j).open?) :
    x ∈ (srv.phase j).open? ∨ x.txn.overlay = [] ∧ x.written = [] := by
  rw [hphase] at hx
  by_cases hj : j = i
  · subst j
    rw [Function.update_self] at hx
    exact hp x hx
  · rw [Function.update_of_ne hj] at hx
    exact Or.inl hx

omit [DecidableEq ι] in
/-- What the counter of the table was before is below what it gives out. -/
theorem KeysOk.counter {given : List G.Key} (hG : Lawful G) (h : srv.KeysOk id given)
    {c : Conn G} (hlive : c.live = srv.live) (hseq : c.seq = srv.seq) :
    (∀ p st, readRow srv.live id p = some st → ∃ m, st.key = G.i64 m ∧ IsI64 m ∧
      keyBytes (G.i64 m) = .ok p ∧ m ≤ c.counter id) ∧
    ∀ key m, srv.Given id key m → m ≤ c.counter id := by
  unfold Conn.counter
  rw [hlive, hseq]
  constructor
  · intro p st hst
    obtain ⟨m, hkey, hm, hbytes, hle⟩ := h.rows p st hst
    refine ⟨m, hkey, hm, hbytes, ?_⟩
    cases hlast : srv.seq id with
    | none => exact le_liveMaxI64Key hG hst hkey hm
    | some last => exact hle last hlast
  · rintro key m ⟨-, -, last, hlast, hle⟩
    rw [hlast]
    exact hle

/-- A transaction of `i` that has run on has appended rows under new keys. -/
theorem KeysOk.ran {given : List G.Key} (hG : Lawful G) (h : srv.KeysOk id given)
    {srv' : Writer ι G} {i : ι} {x x' : OpenTxn G} {s s' : Tapped G}
    {ws : List (TappedRow G × Bool)} (hx : x ∈ (srv.phase i).open?)
    (hphase : srv'.phase = Function.update srv.phase i (.running x'))
    (hlive : srv'.live = srv.live) (hseq : srv'.seq = s'.conn.seq)
    (hslive : s.conn.live = srv.live) (hsseq : s.conn.seq = srv.seq)
    (hwritten : s.written = x.written) (hwritten' : s'.written = x'.written)
    (hmatch : PutsMatch x'.txn) (hws : TapAppends s s' ws) : srv'.KeysOk id given := by
  obtain ⟨hrows, hpassed⟩ := h.counter hG hslive hsseq
  have hmono : ∀ id last, srv.seq id = some last → ∃ last', srv'.seq id = some last' ∧
      last ≤ last' := by
    intro id last hlast
    rw [hseq]
    exact hws.extends_.seq_le (hsseq ▸ hlast)
  have happended : x'.appended id =
      x.appended id ++ (ws.map Prod.fst).filter fun w => w.appended && w.id == id := by
    unfold OpenTxn.appended
    rw [← hwritten', hws.written, hwritten, List.map_append, List.filter_append]
  -- a new row: its key is above the counter
  have hnew : ∀ w ∈ (ws.map Prod.fst).filter (fun w => w.appended && w.id == id),
      ∃ m, srv'.Pending id w m ∧ s.conn.counter id < m := by
    intro w hw
    obtain ⟨hmem, hflags⟩ := List.mem_filter.mp hw
    obtain ⟨q, hq, rfl⟩ := List.mem_map.mp hmem
    obtain ⟨happ, hid⟩ : q.1.appended = true ∧ q.1.id = id := by simpa using hflags
    obtain ⟨m, hm⟩ := hws.fresh q hq happ
    have hlower := hm.lower
    obtain ⟨last, hlast, hle⟩ := hm.upper
    rw [hid] at hlower hlast
    refine ⟨m, ⟨⟨hm.key, hm.isI64, last, by rw [hseq]; exact hlast, hle⟩, hm.bytes, ?_⟩, hlower⟩
    rw [hlive]
    cases hst : readRow srv.live id q.1.bytes with
    | none => rfl
    | some st =>
      obtain ⟨m', -, hm', hbytes, hle'⟩ := hrows _ _ hst
      have heq : m' = m := hG.i64_bytes_inj hm' hm.isI64 (keyBytes_eq_ok.mp hbytes)
        (keyBytes_eq_ok.mp hm.bytes)
      omega
  have hkeyne : ∀ key m, srv.Given id key m →
      ∀ w ∈ (ws.map Prod.fst).filter (fun w => w.appended && w.id == id), w.change.key ≠ key := by
    intro key m hm w hw heq
    obtain ⟨m', hm', hlower⟩ := hnew w hw
    have hle := hpassed key m hm
    exact i64_ne hG hm'.given.2.1 hm.2.1 (by omega) (by rw [← hm'.given.1, heq, hm.1])
  have hself : ∀ j, ∀ y ∈ (srv'.phase j).open?, j ≠ i → y ∈ (srv.phase j).open? := by
    intro j y hy hj
    rwa [hphase, Function.update_of_ne hj] at hy
  have hown : ∀ y ∈ (srv'.phase i).open?, y = x' := by
    intro y hy
    rw [hphase, Function.update_self] at hy
    exact (Option.some.inj hy).symm
  have hold : ∀ w m, srv.Pending id w m → srv'.Pending id w m := fun w m hm =>
    ⟨hm.given.mono (hmono id), hm.bytes, by rw [hlive]; exact hm.free⟩
  have hcross : ∀ j, j ≠ i → ∀ y ∈ (srv.phase j).open?, ∀ w ∈ x'.appended id,
      ∀ w' ∈ y.appended id, w.change.key ≠ w'.change.key := by
    intro j hj y hy w hw w' hw'
    rw [happended] at hw
    rcases List.mem_append.mp hw with hw | hw
    · exact h.others i j (Ne.symm hj) x hx y hy w hw w' hw'
    · obtain ⟨m, hm⟩ := h.pending j y hy w' hw'
      exact hkeyne _ m hm.given w hw
  constructor
  · intro j y hy
    by_cases hj : j = i
    · subst j
      exact hown y hy ▸ hmatch
    · exact h.matched j y (hself j y hy hj)
  · rw [hseq]
    exact hws.counting
  · intro p st hst
    rw [hlive] at hst
    obtain ⟨m, hkey, hm, hbytes, hle⟩ := hrows p st hst
    refine ⟨m, hkey, hm, hbytes, fun last hlast => hle.trans ?_⟩
    have hcounter := hws.extends_.counter_le id
    unfold Conn.counter at hcounter ⊢
    rw [← hseq, hlast] at hcounter
    exact hcounter
  · intro j y hy w hw
    by_cases hj : j = i
    · subst j
      rw [hown y hy, happended] at hw
      rcases List.mem_append.mp hw with hw | hw
      · obtain ⟨m, hm⟩ := h.pending i x hx w hw
        exact ⟨m, hold w m hm⟩
      · obtain ⟨m, hm, -⟩ := hnew w hw
        exact ⟨m, hm⟩
    · obtain ⟨m, hm⟩ := h.pending j y (hself j y hy hj) w hw
      exact ⟨m, hold w m hm⟩
  · intro j y hy
    by_cases hj : j = i
    · subst j
      rw [hown y hy, happended, List.map_append, List.nodup_append']
      refine ⟨h.own i x hx, ?_, ?_⟩
      · rw [List.Nodup, List.pairwise_map]
        apply (hws.apart.map Prod.fst (fun _ _ h => h)).filter _ |>.imp_of_mem
        intro w w' hw hw' happ
        obtain ⟨hw1, hw2⟩ : w.appended = true ∧ w.id = id := by
          simpa using (List.mem_filter.mp hw).2
        obtain ⟨hw1', hw2'⟩ : w'.appended = true ∧ w'.id = id := by
          simpa using (List.mem_filter.mp hw').2
        exact happ hw1 hw1' (hw2.trans hw2'.symm)
      · intro key hkey hkey'
        obtain ⟨w, hw, rfl⟩ := List.mem_map.mp hkey
        obtain ⟨w', hw', heq⟩ := List.mem_map.mp hkey'
        obtain ⟨m, hm⟩ := h.pending i x hx w hw
        exact hkeyne _ m hm.given w' hw' heq
    · exact h.own j y (hself j y hy hj)
  · intro j k hjk y hy z hz w hw w' hw'
    by_cases hj : j = i
    · subst j
      rw [hown y hy] at hw
      exact hcross k (Ne.symm hjk) z (hself k z hz (Ne.symm hjk)) w hw w' hw'
    · by_cases hk : k = i
      · subst k
        rw [hown z hz] at hw'
        exact (hcross j hj y (hself j y hy hj) w' hw' w hw).symm
      · exact h.others j k hjk y (hself j y hy hj) z (hself k z hz hk) w hw w' hw'
  · intro key hkey
    obtain ⟨m, hm⟩ := h.used key hkey
    exact ⟨m, hm.mono (hmono id)⟩
  · exact h.nodup
  · intro j y hy w hw hmem
    by_cases hj : j = i
    · subst j
      rw [hown y hy, happended] at hw
      rcases List.mem_append.mp hw with hw | hw
      · exact h.apart i x hx w hw hmem
      · obtain ⟨m, hm⟩ := h.used _ hmem
        exact hkeyne _ m hm w hw rfl
    · exact h.apart j y (hself j y hy hj) w hw hmem

theorem KeysOk.exec {given : List G.Key} (hG : Lawful G) (h : srv.KeysOk id given)
    (isEnabled : Name → Bool) (i : ι) (stmt : Stmt G) :
    (srv.execStmt isEnabled i stmt).KeysOk id given := by
  unfold execStmt
  split
  case h_1 x hphase =>
    have hx : x ∈ (srv.phase i).open? := by
      rw [hphase]
      rfl
    obtain ⟨ws, hws⟩ := ((tapwise_appendsSome hG).runStmt stmt).stateAfter
      (srv.tapped isEnabled i x) rfl h.counting
    have hmatch := (runStmt_along stepwise_keepsMatch stmt fun _ _ => trivial).stateAfter
      (srv.tapped isEnabled i x).conn
    rw [← (Projects.runStmt stmt).conn] at hmatch
    obtain ⟨txn, htxn, hputs⟩ := hmatch x.txn rfl
    have hphase' : phaseAfter (stateAfter (Tap.runStmt stmt (srv.tapped isEnabled i x))) =
        .running ⟨txn, (stateAfter (Tap.runStmt stmt (srv.tapped isEnabled i x))).changes,
          (stateAfter (Tap.runStmt stmt (srv.tapped isEnabled i x))).hadDataWrite,
          (stateAfter (Tap.runStmt stmt (srv.tapped isEnabled i x))).written⟩ := by
      unfold phaseAfter
      rw [Option.mem_def.mp htxn]
    dsimp only
    rw [hphase']
    exact h.ran hG hx rfl hws.extends_.live rfl rfl rfl rfl rfl (hputs (h.matched i x hx)) hws
  case h_2 => exact h

theorem storedBy_put (id : UInt64) (p : List UInt8) (st : StoredRow G) :
    storedBy (.put (.row id p) st) = some (id, p, st) := rfl

theorem KeysOk.batch {given : List G.Key} (hG : Lawful G) (h : srv.KeysOk id given) {i : ι}
    {x : OpenTxn G} {stamped : List (ℕ × RowChange G)}
    (hphase : srv.phase i = .committing x [] stamped) (hrewrites : srv.Rewrites id (.write i)) :
    (srv.writeBatch i).KeysOk id (given ++ (x.appended id).map (·.change.key)) := by
  have hx : x ∈ (srv.phase i).open? := by
    rw [hphase]
    rfl
  have hcommitted : srv.committed (.write i) = some x := by
    unfold committed
    dsimp only
    rw [hphase]
  have hsrv : srv.writeBatch i = { srv.setPhase i .idle with
      live := srv.live.commit x.txn.overlay
      log := appendLog srv.log stamped
      commitSeq := if x.hadDataWrite then srv.commitSeq + 1 else srv.commitSeq } := by
    unfold writeBatch
    rw [hphase]
  have hopen : ∀ j, ∀ y ∈ ((srv.writeBatch i).phase j).open?, j ≠ i ∧ y ∈ (srv.phase j).open? := by
    intro j y hy
    rw [hsrv] at hy
    change y ∈ (Function.update srv.phase i .idle j).open? at hy
    by_cases hj : j = i
    · subst j
      exact absurd hy (by simp [SessionPhase.open?])
    · rw [Function.update_of_ne hj] at hy
      exact ⟨hj, hy⟩
  have hseq : (srv.writeBatch i).seq = srv.seq := by rw [hsrv]; rfl
  have hlive : (srv.writeBatch i).live = srv.live.commit x.txn.overlay := by rw [hsrv]
  -- a row of the new store: stored before, or one of those of the batch
  have hcases : ∀ p st, readRow (srv.writeBatch i).live id p = some st →
      readRow srv.live id p = some st ∨ keyBytes st.key = .ok p ∧
        ((∃ w ∈ x.appended id, w.bytes = p ∧ w.change.key = st.key) ∨ srv.Settled id p st.key) := by
    intro p st hst
    rw [hlive] at hst
    rcases row_commit hst with hput | hold
    · refine Or.inr ⟨(h.matched i x hx).bytes hput, ?_⟩
      exact hrewrites x hcommitted (id, p, st)
        (List.mem_filterMap.mpr ⟨_, hput, storedBy_put id p st⟩) rfl
    · exact Or.inl hold
  have hgiven : ∀ key m, srv.Given id key m → (srv.writeBatch i).Given id key m := fun key m hm =>
    hm.mono fun last hlast => ⟨last, by rw [hseq, hlast], le_rfl⟩
  constructor
  · intro j y hy
    obtain ⟨-, hy⟩ := hopen j y hy
    exact h.matched j y hy
  · rw [hseq]
    exact h.counting
  · intro p st hst
    rw [hseq]
    rcases hcases p st hst with hold | ⟨hbytes, ⟨w, hw, hwp, hkey⟩ | ⟨old, hold, hkey⟩ |
        ⟨m, -, hkey, hm, hle⟩⟩
    · exact h.rows p st hold
    · obtain ⟨m, ⟨hwkey, hm, last, hlast, hle⟩, hwbytes, -⟩ := h.pending i x hx w hw
      refine ⟨m, hkey.symm.trans hwkey, hm, hwp ▸ hwbytes, fun last' hlast' => ?_⟩
      rw [hlast, Option.some.injEq] at hlast'
      exact hlast' ▸ hle
    · obtain ⟨m, hm⟩ := h.rows p old hold
      exact ⟨m, hkey ▸ hm⟩
    · exact ⟨m, hkey, hm, hkey ▸ hbytes, fun last hlast => (hle last hlast).1⟩
  · intro j y hy w hw
    obtain ⟨hj, hy⟩ := hopen j y hy
    obtain ⟨m, hm⟩ := h.pending j y hy w hw
    refine ⟨m, hgiven _ _ hm.given, hm.bytes, ?_⟩
    cases hst : readRow (srv.writeBatch i).live id w.bytes with
    | none => rfl
    | some st =>
      exfalso
      rcases hcases _ _ hst with hold | ⟨hbytes, ⟨w', hw', hwp, -⟩ | ⟨old, hold, -⟩ |
          ⟨m', -, hkey, hm', hle⟩⟩
      · exact absurd (hm.free.symm.trans hold) (by simp)
      · -- both were given out, and to one row each
        obtain ⟨m', hm'⟩ := h.pending i x hx w' hw'
        have heq : m' = m := hG.i64_bytes_inj hm'.given.2.1 hm.given.2.1
          (keyBytes_eq_ok.mp hm'.bytes) (keyBytes_eq_ok.mp (hwp ▸ hm.bytes))
        exact h.others i j (Ne.symm hj) x hx y hy w' hw' w hw
          (by rw [hm'.given.1, hm.given.1, heq])
      · exact absurd (hm.free.symm.trans hold) (by simp)
      · obtain ⟨hwkey, hmi, last, hlast, -⟩ := hm.given
        have heq : m' = m := hG.i64_bytes_inj hm' hmi
          (keyBytes_eq_ok.mp (hkey ▸ hbytes)) (keyBytes_eq_ok.mp hm.bytes)
        exact (hle last hlast).2 j y hy w hw (by rw [hwkey, hkey, heq])
  · intro j y hy
    exact h.own j y (hopen j y hy).2
  · intro j k hjk y hy z hz
    exact h.others j k hjk y (hopen j y hy).2 z (hopen k z hz).2
  · intro key hkey
    rcases List.mem_append.mp hkey with hkey | hkey
    · obtain ⟨m, hm⟩ := h.used key hkey
      exact ⟨m, hgiven _ _ hm⟩
    · obtain ⟨w, hw, rfl⟩ := List.mem_map.mp hkey
      obtain ⟨m, hm⟩ := h.pending i x hx w hw
      exact ⟨m, hgiven _ _ hm.given⟩
  · rw [List.nodup_append']
    refine ⟨h.nodup, h.own i x hx, fun key hkey hkey' => ?_⟩
    obtain ⟨w, hw, rfl⟩ := List.mem_map.mp hkey'
    exact h.apart i x hx w hw hkey
  · intro j y hy w hw hmem
    obtain ⟨hj, hy⟩ := hopen j y hy
    rcases List.mem_append.mp hmem with hmem | hmem
    · exact h.apart j y hy w hw hmem
    · obtain ⟨w', hw', heq⟩ := List.mem_map.mp hmem
      exact h.others i j (Ne.symm hj) x hx y hy w' hw' w hw heq

theorem KeysOk.step {given : List G.Key} (hG : Lawful G) (h : srv.KeysOk id given)
    (hmarked : srv.Marked) (isEnabled : Name → Bool) (ev : WriterEvent ι G)
    (hrewrites : srv.Rewrites id ev) :
    (srv.step isEnabled ev).KeysOk id (given ++ srv.committedKeys id ev) := by
  have hidle : ∀ i, ∀ x ∈ (SessionPhase.idle : SessionPhase G).open?,
      x ∈ (srv.phase i).open? ∨ x.txn.overlay = [] ∧ x.written = [] := by
    intro i x hx
    exact absurd hx (by simp [SessionPhase.open?])
  have hsame : ∀ i x, srv.phase i = .running x → ∀ todo stamped, ∀ y ∈
      (SessionPhase.committing x todo stamped).open?,
      y ∈ (srv.phase i).open? ∨ y.txn.overlay = [] ∧ y.written = [] := by
    intro i x hphase todo stamped y hy
    rw [hphase]
    exact Or.inl hy
  have hnone : srv.committed ev = none → srv.committedKeys id ev = [] := by
    intro hc
    rw [committedKeys, hc]
    rfl
  cases ev with
  | begin i =>
    rw [hnone rfl, List.append_nil]
    change (srv.beginTxn i).KeysOk id given
    unfold beginTxn
    split
    · refine h.of_open rfl rfl (open_update rfl ?_)
      intro x hx
      obtain rfl := Option.some.inj hx
      exact Or.inr ⟨rfl, rfl⟩
    · exact h
  | exec i stmt =>
    rw [hnone rfl, List.append_nil]
    exact h.exec hG isEnabled i stmt
  | rollback i =>
    rw [hnone rfl, List.append_nil]
    change (srv.rollback i).KeysOk id given
    unfold rollback
    split
    · exact h.of_open rfl rfl (open_update rfl (hidle i))
    · exact h
  | commit i =>
    have hkeys : srv.committedKeys id (.commit i) = [] := by
      unfold committedKeys committed
      dsimp only
      split
      case h_1 x hphase =>
        split_ifs with hnil
        · have hwritten : x.written = [] := by
            by_contra hne
            exact (hmarked i x (by rw [hphase]; rfl)).overlay
              (by simpa [OpenTxn.mutates] using hne) hnil
          simp [OpenTxn.appended, hwritten]
        · rfl
      case h_2 => rfl
    rw [hkeys, List.append_nil]
    change (srv.startCommit i).KeysOk id given
    unfold startCommit
    split
    case h_1 x hphase =>
      split_ifs with hnil
      · exact h.of_open rfl rfl (open_update rfl (hidle i))
      · split
        · exact h.of_open rfl rfl (open_update rfl (hidle i))
        · exact h.of_open rfl rfl (open_update rfl (hsame i x hphase _ _))
    case h_2 => exact h
  | stamp i =>
    rw [hnone rfl, List.append_nil]
    change (srv.stamp isEnabled i).KeysOk id given
    unfold stamp
    split
    case h_1 x change todo stamped hphase =>
      have hopen : ∀ stamped', ∀ y ∈ (SessionPhase.committing x todo stamped').open?,
          y ∈ (srv.phase i).open? ∨ y.txn.overlay = [] ∧ y.written = [] := by
        intro stamped' y hy
        rw [hphase]
        exact Or.inl hy
      split_ifs with henabled
      · exact h.of_open rfl rfl (open_update rfl (hopen _))
      · exact h.of_open rfl rfl (open_update rfl (hopen _))
    case h_2 => exact h
  | write i =>
    change (srv.writeBatch i).KeysOk id _
    by_cases hcommitting : ∃ x stamped, srv.phase i = .committing x [] stamped
    · obtain ⟨x, stamped, hphase⟩ := hcommitting
      have hkeys : srv.committedKeys id (.write i) = (x.appended id).map (·.change.key) := by
        unfold committedKeys committed
        dsimp only
        rw [hphase]
        simp
      rw [hkeys]
      exact h.batch hG hphase hrewrites
    · have hwrite : srv.writeBatch i = srv := by
        unfold writeBatch
        split
        · rename_i x stamped hphase
          exact absurd ⟨x, stamped, hphase⟩ hcommitting
        · rfl
      have hc : srv.committed (.write i) = none := by
        unfold committed
        dsimp only
        split
        · rename_i x stamped hphase
          exact absurd ⟨x, stamped, hphase⟩ hcommitting
        · rfl
      rw [hwrite, hnone hc, List.append_nil]
      exact h

omit [DecidableEq ι] in
theorem KeysOk.free {given : List G.Key} (h : srv.KeysOk id given) {ev : WriterEvent ι G}
    {x : OpenTxn G} (hx : x ∈ srv.committed ev) :
    ∀ w ∈ x.appended id, readRow srv.live id w.bytes = none := by
  have hopen : ∃ i, x ∈ (srv.phase i).open? := by
    cases ev with
    | commit i =>
      refine ⟨i, ?_⟩
      unfold committed at hx
      dsimp only at hx
      split at hx
      case h_1 y hphase =>
        split_ifs at hx
        · rw [hphase]
          exact hx
        · exact absurd hx (by simp)
      case h_2 => exact absurd hx (by simp)
    | write i =>
      refine ⟨i, ?_⟩
      unfold committed at hx
      dsimp only at hx
      split at hx
      case h_1 y stamped hphase =>
        rw [hphase]
        exact hx
      case h_2 => exact absurd hx (by simp)
    | begin i | exec i stmt | rollback i | stamp i => exact absurd hx (by simp [committed])
  obtain ⟨i, hi⟩ := hopen
  intro w hw
  obtain ⟨m, hm⟩ := h.pending i x hi w hw
  exact hm.free

omit [DecidableEq ι] in
theorem KeysOk.restart {given : List G.Key} (h : srv.KeysOk id given) :
    srv.restart.KeysOk id [] := by
  constructor
  case rows =>
    intro p st hst
    obtain ⟨m, hkey, hm, hbytes, -⟩ := h.rows p st hst
    exact ⟨m, hkey, hm, hbytes, fun last hlast => absurd hlast (by simp [Writer.restart, opened])⟩
  all_goals simp [Writer.restart, opened, SessionPhase.open?]

theorem KeysOk.run {given : List G.Key} (hG : Lawful G) (h : srv.KeysOk id given)
    (hmarked : srv.Marked) {events : List (LifeEvent ι G)} (hconforms : srv.Conforms id events) :
    srv.AppendsFresh id given events := by
  induction events generalizing srv given with
  | nil => trivial
  | cons ev events ih =>
    cases ev with
    | restart =>
      apply ih h.restart _ hconforms
      intro i x hx
      exact absurd hx (by simp [Writer.restart, opened, SessionPhase.open?])
    | conn isEnabled ev =>
      obtain ⟨hrewrites, hrest⟩ := hconforms
      have hstep := h.step hG hmarked isEnabled ev hrewrites
      exact ⟨fun x hx => h.free hx, hstep.nodup, ih hstep (hmarked.step isEnabled ev) hrest⟩

/-- In every run of transactions and restarts whose commits store only rows that
they have appended or that may be stored again, no append overwrites a row and no
key is given to two appends of one writer. -/
theorem appends_fresh (hG : Lawful G) (now : ℤ) (options : ι → ConnOptions) (id : UInt64)
    (events : List (LifeEvent ι G))
    (hconforms : (Writer.opened Kv.empty .empty now options).Conforms id events) :
    (Writer.opened Kv.empty .empty now options).AppendsFresh id [] events := by
  apply (keysOk_opened now options id).run hG _ hconforms
  intro i x hx
  exact absurd hx (by simp [opened, SessionPhase.open?])

end Writer

end Runs

namespace Ints

/-- `CREATE TABLE t (a INT)`. -/
def createKeyless : Stmt engine := .createTable t (some [⟨a, .int, true, none, false⟩])

/-- A statement of connection `i` up to its commit. -/
def unwritten (i : Fin 3) (stmt : Stmt engine) : List (LifeEvent (Fin 3) engine) :=
  [.conn (fun _ => false) (.begin i), .conn (fun _ => false) (.exec i stmt)]

def commitOf (i : Fin 3) : List (LifeEvent (Fin 3) engine) :=
  [.conn (fun _ => false) (.commit i), .conn (fun _ => false) (.write i)]

/-- A table with one row, and a new writer. -/
def reopenedOnce : List (LifeEvent (Fin 3) engine) :=
  unwritten 0 createKeyless ++ commitOf 0 ++ unwritten 0 (insert [10]) ++ commitOf 0 ++ [.restart]

def noOptions : Fin 3 → ConnOptions := fun _ => ⟨false, false, false⟩

def keylessWriter : Writer (Fin 3) engine := .opened Kv.empty .empty 0 noOptions

theorem appends_fresh_reopened : keylessWriter.AppendsFresh 1 []
    (reopenedOnce ++ unwritten 1 (insert [20]) ++ commitOf 1) :=
  Writer.appends_fresh lawful 0 noOptions 1 _ (by decide +kernel)

def deletedBefore : List (LifeEvent (Fin 3) engine) :=
  unwritten 0 createKeyless ++ commitOf 0 ++ unwritten 0 (insert [10]) ++ commitOf 0 ++
    unwritten 0 (.delete t fun _ => true) ++ commitOf 0 ++ [.restart]

/-- The row is updated in a transaction, deleted in another and brought back when
its key has been given out again. -/
def putBack : List (LifeEvent (Fin 3) engine) :=
  reopenedOnce ++ unwritten 0 (.update t fun p => some p.2) ++
    unwritten 1 (.delete t fun _ => true) ++ commitOf 1 ++ unwritten 2 (insert [20]) ++ commitOf 0

/-- A key is given out again after a restart, and an append overwrites the row
that a stale UPDATE brings back. -/
theorem append_collides :
    ((keylessWriter.run (unwritten 0 createKeyless ++ commitOf 0 ++ unwritten 0 (insert [10]) ++
        [.conn (fun _ => false) (.commit 0)])).committedKeys 1 (.write 0) =
          ([.i64 1] : List engine.Key) ∧
      (keylessWriter.run (deletedBefore ++ unwritten 1 (insert [20]) ++
        [.conn (fun _ => false) (.commit 1)])).committedKeys 1 (.write 1) =
          ([.i64 1] : List engine.Key)) ∧
    ¬keylessWriter.AppendsFresh 1 [] (putBack ++ commitOf 2) := by
  refine ⟨⟨?_, ?_⟩, ?_⟩
  · decide +kernel
  · decide +kernel
  · decide +kernel

end Ints

end BlueDB.Sql
