import BlueDB.Sql.Writer

/-!
# The write watermark

The writer counts the commits that changed a row, for every tenant. The counter
moves with a flag of the transaction that the tap sets, and the tap is only
called for a table whose changes an observer or the mirror wants: a commit whose
rows nobody wants is not counted.
-/

namespace BlueDB.Sql

open Overlay (RowChange)

variable {τ ι : Type} {G : Engine}

/-- `overrides` holds for the tables whose choice is the opposite of the default
of their tenant. -/
structure CdcConfig (τ : Type) where
  overrides : τ → Name → Bool
  defaults : τ → Option Bool
  globalDefault : Bool

namespace CdcConfig

def defaultFor (c : CdcConfig τ) (t : τ) : Bool := (c.defaults t).getD c.globalDefault

def isEnabled (c : CdcConfig τ) (t : τ) (table : Name) : Bool :=
  c.defaultFor t ^^ c.overrides t table

def setGlobalDefault (c : CdcConfig τ) (on : Bool) : CdcConfig τ := { c with globalDefault := on }

variable [DecidableEq τ]

def setDefault (c : CdcConfig τ) (t : τ) (on : Bool) : CdcConfig τ :=
  { c with defaults := Function.update c.defaults t (some on) }

def setTable (c : CdcConfig τ) (t : τ) (table : Name) (enabled : Bool) : CdcConfig τ :=
  let choice := Function.update (c.overrides t) table (enabled != c.defaultFor t)
  { c with overrides := Function.update c.overrides t choice }

end CdcConfig

structure Database (τ ι : Type) (G : Engine) where
  config : CdcConfig τ
  tenant : τ → Writer ι G

inductive DatabaseEvent (τ ι : Type) (G : Engine)
  | setGlobalDefault (on : Bool)
  | setDefault (t : τ) (on : Bool)
  | setTable (t : τ) (table : Name) (enabled : Bool)
  | conn (t : τ) (ev : WriterEvent ι G)

namespace Database

/-- A writer that has just opened the stores of its tenants. -/
def opened (config : CdcConfig τ) (live : τ → Store G) (log : τ → OrderedMap ℕ (RowChange G))
    (now : ℤ) (options : τ → ι → ConnOptions) : Database τ ι G :=
  ⟨config, fun t => .opened (live t) (log t) now (options t)⟩

def lastCommitSeq (db : Database τ ι G) (t : τ) : ℕ := (db.tenant t).commitSeq

variable [DecidableEq τ] [DecidableEq ι]

def step (db : Database τ ι G) : DatabaseEvent τ ι G → Database τ ι G
  | .setGlobalDefault on => { db with config := db.config.setGlobalDefault on }
  | .setDefault t on => { db with config := db.config.setDefault t on }
  | .setTable t table enabled => { db with config := db.config.setTable t table enabled }
  | .conn t ev =>
    let srv := (db.tenant t).step (db.config.isEnabled t) ev
    { db with tenant := Function.update db.tenant t srv }

def run (db : Database τ ι G) (events : List (DatabaseEvent τ ι G)) : Database τ ι G :=
  events.foldl step db

/-- The transaction of tenant `t` that a step commits. -/
def commits (db : Database τ ι G) (t : τ) : DatabaseEvent τ ι G → Option (OpenTxn G)
  | .conn t' ev => if t' = t then (db.tenant t).committed ev else none
  | _ => none

/-- The transactions of tenant `t` that a run commits. -/
def committed (db : Database τ ι G) (t : τ) : List (DatabaseEvent τ ι G) → List (OpenTxn G)
  | [] => []
  | ev :: events => (db.commits t ev).toList ++ (db.step ev).committed t events

end Database

/-- The transaction inserted, updated or deleted a row. -/
def OpenTxn.mutates (x : OpenTxn G) : Bool := !x.written.isEmpty

/-- It did so in a table whose changes its connection wanted at that time: it has
a commit observer, or the mirror with the table on. -/
def OpenTxn.wanted (x : OpenTxn G) : Bool := x.written.any Prod.snd

/-- The flag is set when a wanted row was written, and a row is never written
without a write of the store. -/
structure OpenTxn.Marked (x : OpenTxn G) : Prop where
  flag : x.hadDataWrite = x.wanted
  overlay : x.mutates = true → x.txn.overlay ≠ []

/-- The transaction on a connection with a tap. -/
def Tapped.open? (s : Tapped G) : Option (OpenTxn G) :=
  s.conn.txn.map fun txn => ⟨txn, s.changes, s.hadDataWrite, s.written⟩

def KeepsMarked (s s' : Tapped G) : Prop :=
  ∀ x ∈ s.open?, x.Marked → ∃ x' ∈ s'.open?, x'.Marked

/-- What a method does to the connection, with the tap left alone. -/
theorem Along.lift {α : Type} {Q : Conn G → Conn G → Prop} {R : Tapped G → Tapped G → Prop}
    {x : Exec G α} (hx : Along Q (fun _ => Q) x)
    (hR : ∀ s c, Q s.conn c → R s { s with conn := c }) : Along R (fun _ => R) (Tap.lift x) := by
  constructor
  intro s
  have hq := hx.holds s.conn
  unfold Holds at hq ⊢
  unfold Tap.lift
  cases hres : x s.conn with
  | ok a c =>
    rw [hres] at hq
    exact hR s c hq
  | error e c =>
    rw [hres] at hq
    exact hR s c hq

theorem lift_keepsMarked {α : Type} {x : Exec G α} (hx : Silent x) :
    Along KeepsMarked (fun _ => KeepsMarked) (Tap.lift x) := by
  apply Along.lift (hx.along bufferwise_grows)
  intro s c hgrows x hopen hmarked
  obtain ⟨txn, htxn, rfl⟩ := Option.map_eq_some_iff.mp hopen
  obtain ⟨y, hy, y', hy', -, ws, hover⟩ := (hgrows (by rw [htxn]; rfl)).txn
  obtain rfl : txn = y := Option.some.inj (htxn.symm.trans hy)
  refine ⟨⟨y', s.changes, s.hadDataWrite, s.written⟩, ?_, hmarked.flag, ?_⟩
  · unfold Tapped.open?
    rw [Option.mem_def.mp hy']
    rfl
  · intro hmutates
    change y'.overlay ≠ []
    rw [hover]
    exact List.append_ne_nil_of_left_ne_nil (hmarked.overlay hmutates) _

/-- The tap sets the flag for a wanted row; the write that follows is buffered. -/
theorem write_keepsMarked (w : TappedRow G) (value : Option (StoredRow G)) :
    Along KeepsMarked (fun _ => KeepsMarked) (tapWrite w value) := by
  constructor
  intro s
  change KeepsMarked s { s.tap w with
    conn := (s.tap w).conn.write ⟨.row w.id w.bytes, value⟩ }
  intro x hopen hmarked
  obtain ⟨txn, htxn, rfl⟩ := Option.map_eq_some_iff.mp hopen
  have hflag : s.hadDataWrite = s.written.any Prod.snd := hmarked.flag
  by_cases hwants : s.wantsChanges w.change.table = true
  · refine ⟨⟨{ txn with overlay := txn.overlay ++ [⟨.row w.id w.bytes, value⟩] },
      s.changes ++ [w.change], true, s.written ++ [(w, true)]⟩, ?_, ?_, ?_⟩
    · have htap : s.tap w = { s with
          changes := s.changes ++ [w.change]
          hadDataWrite := true
          written := s.written ++ [(w, true)] } := by
        unfold Tapped.tap Tapped.recordChange
        unfold Tapped.wantsChanges at hwants ⊢
        simp [hwants, htxn]
      rw [htap]
      unfold Tapped.open? Conn.write
      simp [htxn]
    · simp [OpenTxn.wanted]
    · simp
  · refine ⟨⟨{ txn with overlay := txn.overlay ++ [⟨.row w.id w.bytes, value⟩] },
      s.changes, s.hadDataWrite, s.written ++ [(w, false)]⟩, ?_, ?_, ?_⟩
    · have htap : s.tap w = { s with written := s.written ++ [(w, false)] } := by
        unfold Tapped.tap
        unfold Tapped.wantsChanges at hwants ⊢
        simp [hwants]
      rw [htap]
      unfold Tapped.open? Conn.write
      simp [htxn]
    · simp [OpenTxn.wanted, hflag]
    · simp

theorem tapwise_keepsMarked : Tapwise (KeepsMarked (G := G)) := by
  have htrans : ∀ {s s' s'' : Tapped G}, KeepsMarked s s' → KeepsMarked s' s'' →
      KeepsMarked s s'' := by
    intro s s' s'' h h' x hx hmarked
    obtain ⟨x', hx', hmarked'⟩ := h x hx hmarked
    exact h' x' hx' hmarked'
  have hrefl : ∀ s : Tapped G, KeepsMarked s s := fun s x hx hmarked => ⟨x, hx, hmarked⟩
  exact ⟨hrefl, htrans, lift_keepsMarked, fun w value _ => write_keepsMarked w value,
    Along.tapAppendData ⟨hrefl, htrans, htrans⟩ lift_keepsMarked write_keepsMarked⟩

namespace Writer

variable [DecidableEq ι] {srv : Writer ι G}

/-- Every open transaction is marked. -/
def Marked (srv : Writer ι G) : Prop := ∀ i, ∀ x ∈ (srv.phase i).open?, x.Marked

theorem Marked.update (h : srv.Marked) {srv' : Writer ι G} {i : ι} {p : SessionPhase G}
    (hphase : srv'.phase = Function.update srv.phase i p) (hp : ∀ x ∈ p.open?, x.Marked) :
    srv'.Marked := by
  intro j x hx
  rw [hphase] at hx
  by_cases hj : j = i
  · subst j
    rw [Function.update_self] at hx
    exact hp x hx
  · rw [Function.update_of_ne hj] at hx
    exact h j x hx

theorem Marked.exec (h : srv.Marked) (isEnabled : Name → Bool) (i : ι) (stmt : Stmt G) :
    (srv.execStmt isEnabled i stmt).Marked := by
  unfold execStmt
  split
  case h_1 x hphase =>
    apply h.update rfl
    intro y hy
    have hx : x.Marked := h i x (by rw [hphase]; rfl)
    have hkeeps := (tapwise_keepsMarked.runStmt stmt).stateAfter (srv.tapped isEnabled i x)
    obtain ⟨x', hx', hmarked⟩ := hkeeps x rfl hx
    have hopen : (phaseAfter (stateAfter (Tap.runStmt stmt (srv.tapped isEnabled i x)))).open? =
        (stateAfter (Tap.runStmt stmt (srv.tapped isEnabled i x))).open? := by
      unfold phaseAfter Tapped.open?
      split <;> simp_all [SessionPhase.open?]
    rw [hopen, Option.mem_def.mp hx'] at hy
    exact Option.some.inj hy ▸ hmarked
  case h_2 => exact h

theorem Marked.step (h : srv.Marked) (isEnabled : Name → Bool) (ev : WriterEvent ι G) :
    (srv.step isEnabled ev).Marked := by
  have hidle : ∀ x ∈ (SessionPhase.idle : SessionPhase G).open?, x.Marked := by
    intro x hx
    simp [SessionPhase.open?] at hx
  cases ev with
  | begin i =>
    change (srv.beginTxn i).Marked
    unfold beginTxn
    split
    · apply h.update rfl
      intro x hx
      obtain rfl := Option.some.inj hx
      exact ⟨rfl, by simp [OpenTxn.mutates]⟩
    · exact h
  | exec i stmt => exact h.exec isEnabled i stmt
  | rollback i =>
    change (srv.rollback i).Marked
    unfold rollback
    split
    · exact h.update rfl hidle
    · exact h
  | commit i =>
    change (srv.startCommit i).Marked
    unfold startCommit
    split
    case h_1 x hphase =>
      have hx : x.Marked := h i x (by rw [hphase]; rfl)
      split_ifs with hnil
      · exact h.update rfl hidle
      · split
        · exact h.update rfl hidle
        · apply h.update rfl
          intro y hy
          exact Option.some.inj hy ▸ hx
    case h_2 => exact h
  | stamp i =>
    change (srv.stamp isEnabled i).Marked
    unfold stamp
    split
    case h_1 x change todo stamped hphase =>
      have hx : ∀ y ∈ (SessionPhase.committing x todo stamped).open?, y.Marked := by
        intro y hy
        exact Option.some.inj hy ▸ h i x (by rw [hphase]; rfl)
      split_ifs with henabled
      · exact h.update rfl hx
      · exact h.update rfl hx
    case h_2 => exact h
  | write i =>
    change (srv.writeBatch i).Marked
    unfold writeBatch
    split
    · exact h.update rfl hidle
    · exact h

theorem Marked.commitSeq (h : srv.Marked) (isEnabled : Name → Bool) (ev : WriterEvent ι G) :
    (srv.step isEnabled ev).commitSeq =
      srv.commitSeq + (srv.committed ev).toList.countP OpenTxn.wanted := by
  cases ev with
  | begin i =>
    change (srv.beginTxn i).commitSeq = _
    unfold beginTxn
    split <;> rfl
  | exec i stmt =>
    change (srv.execStmt isEnabled i stmt).commitSeq = _
    unfold execStmt
    split <;> rfl
  | rollback i =>
    change (srv.rollback i).commitSeq = _
    unfold rollback
    split <;> rfl
  | commit i =>
    change (srv.startCommit i).commitSeq = _
    unfold startCommit committed
    dsimp only
    split
    case h_1 x hphase =>
      have hx : x.Marked := h i x (by rw [hphase]; rfl)
      split_ifs with hnil
      · -- a transaction without writes has not written a row
        have hunwanted : x.wanted = false := by
          have hwritten : x.written = [] := by
            by_contra hne
            exact hx.overlay (by simpa [OpenTxn.mutates] using hne) hnil
          simp [OpenTxn.wanted, hwritten]
        simp [hunwanted, setPhase]
      · split <;> rfl
    case h_2 => rfl
  | stamp i =>
    change (srv.stamp isEnabled i).commitSeq = _
    unfold stamp
    split
    · split_ifs <;> rfl
    · rfl
  | write i =>
    change (srv.writeBatch i).commitSeq = _
    unfold writeBatch committed
    dsimp only
    split
    case h_1 x stamped hphase =>
      have hx : x.Marked := h i x (by rw [hphase]; rfl)
      dsimp only
      rw [hx.flag]
      cases hw : x.wanted <;> simp [hw]
    case h_2 => simp

end Writer

section Runs

variable [DecidableEq τ] [DecidableEq ι] {db : Database τ ι G}

theorem marked_step (h : ∀ t, (db.tenant t).Marked) (ev : DatabaseEvent τ ι G) (t : τ) :
    ((db.step ev).tenant t).Marked := by
  cases ev with
  | setGlobalDefault on => exact h t
  | setDefault t' on => exact h t
  | setTable t' table enabled => exact h t
  | conn t' ev =>
    by_cases ht : t = t'
    · subst t'
      change (Function.update db.tenant t _ t).Marked
      rw [Function.update_self]
      exact (h t).step _ ev
    · change (Function.update db.tenant t' _ t).Marked
      rw [Function.update_of_ne ht]
      exact h t

theorem lastCommitSeq_step (h : ∀ t, (db.tenant t).Marked) (ev : DatabaseEvent τ ι G) (t : τ) :
    (db.step ev).lastCommitSeq t =
      db.lastCommitSeq t + (db.commits t ev).toList.countP OpenTxn.wanted := by
  cases ev with
  | setGlobalDefault on => rfl
  | setDefault t' on => rfl
  | setTable t' table enabled => rfl
  | conn t' ev =>
    by_cases ht : t' = t
    · subst t'
      change (Function.update db.tenant t _ t).commitSeq = _
      rw [Function.update_self, (h t).commitSeq]
      simp [Database.commits, Database.lastCommitSeq]
    · change (Function.update db.tenant t' _ t).commitSeq = _
      rw [Function.update_of_ne (Ne.symm ht)]
      simp [Database.commits, ht, Database.lastCommitSeq]

theorem lastCommitSeq_run (h : ∀ t, (db.tenant t).Marked) (events : List (DatabaseEvent τ ι G))
    (t : τ) : (db.run events).lastCommitSeq t =
      db.lastCommitSeq t + (db.committed t events).countP OpenTxn.wanted := by
  induction events generalizing db with
  | nil => rfl
  | cons ev events ih =>
    change ((db.step ev).run events).lastCommitSeq t = _
    rw [ih (marked_step h ev), lastCommitSeq_step h ev t, Database.committed, List.countP_append,
      Nat.add_assoc]

end Runs

theorem countP_eq_iff {α : Type*} {p q : α → Bool} (hpq : ∀ a, p a = true → q a = true)
    (l : List α) : l.countP p = l.countP q ↔ ∀ a ∈ l, q a = true → p a = true := by
  induction l with
  | nil => simp
  | cons a l ih =>
    have hle := List.countP_mono_left (l := l) (fun a _ => hpq a)
    rw [List.countP_cons, List.countP_cons, List.forall_mem_cons, ← ih]
    cases hp : p a with
    | true => simp [hpq a hp]
    | false =>
      cases hq : q a with
      | true =>
        simp only [Bool.false_eq_true, if_false, if_true]
        constructor
        · intro h
          omega
        · intro h
          exact absurd (h.1 trivial) (by simp)
      | false => simp

/-- For every run since the writer opened, with observers and the mirror on or off,
the watermark of a tenant is the number of its commits that changed a row exactly
when each of these changed a row of a table whose changes were wanted. -/
theorem lastCommitSeq_eq_iff [DecidableEq τ] [DecidableEq ι] (config : CdcConfig τ)
    (live : τ → Store G) (log : τ → OrderedMap ℕ (RowChange G)) (now : ℤ)
    (options : τ → ι → ConnOptions) (events : List (DatabaseEvent τ ι G)) (t : τ) :
    ((Database.opened config live log now options).run events).lastCommitSeq t =
        ((Database.opened config live log now options).committed t events).countP
          OpenTxn.mutates ↔
      ∀ x ∈ (Database.opened config live log now options).committed t events,
        x.mutates = true → x.wanted = true := by
  have hmarked : ∀ t, ((Database.opened config live log now options).tenant t).Marked := by
    intro t i x hx
    simp [Database.opened, Writer.opened, SessionPhase.open?] at hx
  have hwanted : ∀ x : OpenTxn G, x.wanted = true → x.mutates = true := by
    intro x hx
    obtain ⟨w, hw, -⟩ := List.any_eq_true.mp hx
    simpa [OpenTxn.mutates] using List.ne_nil_of_mem hw
  rw [lastCommitSeq_run hmarked]
  change 0 + _ = _ ↔ _
  rw [Nat.zero_add]
  exact countP_eq_iff hwanted _

/-- A connection without an observer and without the mirror inserts a row. -/
def Ints.unobserved : List (DatabaseEvent Unit Unit Ints.engine) :=
  ([.begin (), .exec () Ints.createTable, .commit (), .write (), .begin (),
    .exec () (Ints.insert [1, 10]), .commit (), .write ()] : List (WriterEvent Unit _)).map
      (DatabaseEvent.conn ())

/-- The row is committed and the watermark still at zero. -/
theorem lastCommitSeq_unobserved :
    ¬∀ events : List (DatabaseEvent Unit Unit Ints.engine),
      ((Database.opened ⟨fun _ _ => false, fun _ => none, false⟩ (fun _ => Kv.empty)
          (fun _ => OrderedMap.empty) 0 fun _ _ => ⟨false, false, false⟩).run
            events).lastCommitSeq () =
        ((Database.opened ⟨fun _ _ => false, fun _ => none, false⟩ (fun _ => Kv.empty)
          (fun _ => OrderedMap.empty) 0 fun _ _ => ⟨false, false, false⟩).committed ()
            events).countP OpenTxn.mutates := by
  intro h
  exact absurd (h Ints.unobserved) (by decide +kernel)

end BlueDB.Sql
