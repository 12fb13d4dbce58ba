import BlueDB.Sql.Server
import BlueDB.Sql.Sessions

/-!
# Ids of tables

CREATE TABLE reads the counter of table ids in its snapshot and writes the next
one; RENAME TABLE moves the id that the table has in its snapshot. A commit checks
neither against the committed store, so that two statements that overlap can leave
two tables with one id.
-/

namespace BlueDB.Sql

variable {G : Engine} {c c' : Conn G} {t : Name}

/-- The last id given out, zero before the first. -/
def lastTableId (s : Store G) : ℕ := ((readTableIdSeq s).map UInt64.toNat).getD 0

/-- The id under which a record is kept: that of a row or an index entry, or the
one that the record of a table's id holds. -/
def usedId (s : Store G) : StorageKey → Option UInt64
  | .row id p => (readRow s id p).map fun _ => id
  | .indexEntry id n v p => (readEntry s id n v p).map fun _ => id
  | .tableid t => resolveTableId s t
  | _ => none

theorem usedId_written {s : Store G} {k : StorageKey} {id : UInt64} (h : usedId s k = some id) :
    k ∈ s.written := by
  apply s.covers
  cases k with
  | row id' p =>
    obtain ⟨st, hst, -⟩ := Option.map_eq_some_iff.mp h
    exact Option.isSome_iff_exists.mpr ⟨st, hst⟩
  | indexEntry id' n v p =>
    obtain ⟨pk, hpk, -⟩ := Option.map_eq_some_iff.mp h
    exact Option.isSome_iff_exists.mpr ⟨pk, hpk⟩
  | tableid t => exact Option.isSome_iff_exists.mpr ⟨id, h⟩
  | schema t | metadata t | colcat t | tableidSeq | pkcat t | uniqueidx t =>
    exact absurd h (by simp [usedId])

/-- Tables that exist at the same time have different ids. -/
def IdsApart (s : Store G) : Prop :=
  ∀ t u id, resolveTableId s t = some id → resolveTableId s u = some id → t = u

def Vacant (s : Store G) (id : UInt64) : Prop :=
  (∀ p, readRow s id p = none) ∧ ∀ n v p, readEntry s id n v p = none

/-- The rows and entries of `s'` are those of `s`, or fewer. -/
def Thins (s s' : Store G) : Prop := ∀ k, k.IsData → s'.get k = s.get k ∨ s'.get k = none

/-- The batch leaves the tables and their ids alone and stores no row or entry. -/
def NoIds (ws : Batch G) : Prop :=
  ∀ w ∈ ws, (∀ t, w.key ≠ .schema t) ∧ (∀ t, w.key ≠ .tableid t) ∧ w.key ≠ .tableidSeq ∧
    (w.key.IsData → w.value = none)

theorem NoIds.append {ws ws' : Batch G} (h : NoIds ws) (h' : NoIds ws') : NoIds (ws ++ ws') := by
  intro w hw
  rcases List.mem_append.mp hw with hw | hw
  · exact h w hw
  · exact h' w hw

/-- What a batch does to the tables of the store it is applied to. -/
structure Renumbers (ws : Batch G) (ids : (Name → Option UInt64) → Name → Option UInt64)
    (named : (Name → Bool) → Name → Bool) (seq : Option UInt64 → Option UInt64) : Prop where
  ids : ∀ s, resolveTableId (s.commit ws) = ids (resolveTableId s)
  named : ∀ s, (fun t => (readSchema (s.commit ws) t).isSome) =
    named fun t => (readSchema s t).isSome
  seq : ∀ s, readTableIdSeq (s.commit ws) = seq (readTableIdSeq s)
  thins : ∀ s, Thins s (s.commit ws)

theorem Thins.trans {s s' s'' : Store G} (h : Thins s s') (h' : Thins s' s'') :
    Thins s s'' := by
  intro k hk
  rcases h' k hk with h' | h'
  · rcases h k hk with h | h
    · exact Or.inl (h'.trans h)
    · exact Or.inr (h'.trans h)
  · exact Or.inr h'

theorem NoIds.renumbers {ws : Batch G} (h : NoIds ws) : Renumbers ws id id id where
  ids s := by
    funext t
    exact Kv.get_commit_of_forall_ne fun w hw => (h w hw).2.1 t
  named s := by
    funext t
    exact congrArg Option.isSome (Kv.get_commit_of_forall_ne fun w hw => (h w hw).1 t)
  seq s := Kv.get_commit_of_forall_ne fun w hw => (h w hw).2.2.1
  thins s := by
    induction ws generalizing s with
    | nil => exact fun k _ => Or.inl rfl
    | cons w ws ih =>
      rw [Kv.commit_cons]
      apply Thins.trans _ (ih (fun w' hw' => h w' (List.mem_cons_of_mem _ hw')) (s.write w))
      intro k hk
      by_cases hkey : k = w.key
      · subst k
        rw [Kv.get_write_self]
        exact Or.inr ((h w (by simp)).2.2.2 hk)
      · exact Or.inl (Kv.get_write_of_ne hkey)

theorem Renumbers.append {ws ws' : Batch G}
    {ids ids' : (Name → Option UInt64) → Name → Option UInt64}
    {named named' : (Name → Bool) → Name → Bool} {seq seq' : Option UInt64 → Option UInt64}
    (h : Renumbers ws ids named seq) (h' : Renumbers ws' ids' named' seq') :
    Renumbers (ws ++ ws') (ids' ∘ ids) (named' ∘ named) (seq' ∘ seq) where
  ids s := by
    rw [Kv.commit_append, h'.ids, h.ids]
    rfl
  named s := by
    rw [Kv.commit_append, h'.named, h.named]
    rfl
  seq s := by
    rw [Kv.commit_append, h'.seq, h.seq]
    rfl
  thins s := by
    rw [Kv.commit_append]
    exact (h.thins s).trans (h'.thins _)

theorem thins_write {s : Store G} {w : Write (StorageKey.Value G)} (hw : ¬w.key.IsData) :
    Thins s (s.write w) := by
  intro k hk
  left
  apply Kv.get_write_of_ne
  rintro rfl
  exact hw hk

theorem renumbers_seq (next : UInt64) :
    Renumbers ([.put .tableidSeq next] : Batch G) id id fun _ => some next where
  ids s := by
    funext t
    exact Kv.get_write_of_ne (by simp)
  named s := by
    funext t
    exact congrArg Option.isSome (Kv.get_write_of_ne (by simp))
  seq s := Kv.get_write_put s .tableidSeq next
  thins s := thins_write not_false

theorem renumbers_tableid (t : Name) (value : Option UInt64) :
    Renumbers ([⟨.tableid t, value⟩] : Batch G) (fun ids => Function.update ids t value) id id where
  ids s := by
    funext u
    by_cases hu : u = t
    · subst u
      rw [Function.update_self]
      exact Kv.get_write_self s _
    · rw [Function.update_of_ne hu]
      exact Kv.get_write_of_ne (by simpa using hu)
  named s := by
    funext u
    exact congrArg Option.isSome (Kv.get_write_of_ne (by simp))
  seq s := Kv.get_write_of_ne (by simp)
  thins s := thins_write not_false

theorem renumbers_schema (t : Name) (value : Option (Schema G)) :
    Renumbers ([⟨.schema t, value⟩] : Batch G) id
      (fun named => Function.update named t value.isSome) id where
  ids s := by
    funext u
    exact Kv.get_write_of_ne (by simp)
  named s := by
    funext u
    by_cases hu : u = t
    · subst u
      have hself : readSchema (s.commit [⟨.schema t, value⟩]) t = value :=
        Kv.get_write_self s (⟨.schema t, value⟩ : Write (StorageKey.Value G))
      rw [Function.update_self, hself]
    · rw [Function.update_of_ne hu]
      exact congrArg Option.isSome (Kv.get_write_of_ne (by simpa using hu))
  seq s := Kv.get_write_of_ne (by simp)
  thins s := thins_write not_false

def Txn.buffer (x : Txn G) (ws : Batch G) : Txn G := { x with overlay := x.overlay ++ ws }

@[simp] theorem Txn.buffer_nil (x : Txn G) : x.buffer [] = x := by
  unfold buffer
  rw [List.append_nil]

@[simp] theorem Txn.buffer_buffer (x : Txn G) (ws ws' : Batch G) :
    (x.buffer ws).buffer ws' = x.buffer (ws ++ ws') := by
  unfold buffer
  rw [List.append_assoc]

/-- In an open transaction nothing is buffered but writes beside the ids. -/
def SparesIds (c c' : Conn G) : Prop :=
  ∀ x, c.txn = some x → ∃ ws, NoIds ws ∧ c'.txn = some (x.buffer ws)

theorem sparesIds_tracks :
    Tracks (SparesIds (G := G)) fun (_ : Error G) (_ _ : Conn G) => True where
  refl c x hx := ⟨[], fun w hw => absurd hw List.not_mem_nil, by rw [hx, Txn.buffer_nil]⟩
  trans h h' x hx := by
    obtain ⟨ws, hws, hx'⟩ := h x hx
    obtain ⟨ws', hws', hx''⟩ := h' _ hx'
    exact ⟨ws ++ ws', hws.append hws', by rw [hx'', Txn.buffer_buffer]⟩
  fail _ _ := trivial

/-- A program that spares the ids. -/
abbrev Spares {α : Type} (x : Exec G α) : Prop := Along SparesIds (fun _ _ _ => True) x

namespace Spares

variable {α β : Type}

theorem bind {x : Exec G α} {f : α → Exec G β} (hx : Spares x) (hf : ∀ a, Spares (f a)) :
    Spares (x >>= f) := Along.bind sparesIds_tracks hx hf

theorem pure (a : α) : Spares (pure a : Exec G α) := Along.pure sparesIds_tracks a

theorem get : Spares (get : Exec G (Conn G)) := Along.get sparesIds_tracks

theorem except {x : Except (Error G) α} : Spares (ofExcept x) :=
  Along.ofExcept sparesIds_tracks fun _ _ _ => trivial

theorem write {w : Write (StorageKey.Value G)} (hw : NoIds [w]) :
    Spares (modify (·.write w) : Exec G Unit) := by
  apply Along.modify
  intro c x hx
  refine ⟨[w], hw, ?_⟩
  unfold Conn.write
  rw [hx]
  rfl

theorem deleteKey {k : StorageKey}
    (hk : (∀ t, k ≠ .schema t) ∧ (∀ t, k ≠ .tableid t) ∧ k ≠ .tableidSeq) :
    Spares (deleteKey k : Exec G Unit) := by
  apply write
  intro w hw
  rw [List.mem_singleton.mp hw]
  exact ⟨hk.1, hk.2.1, hk.2.2, fun _ => rfl⟩

theorem writeKey {k : StorageKey} (v : k.Value G)
    (hk : (∀ t, k ≠ .schema t) ∧ (∀ t, k ≠ .tableid t) ∧ k ≠ .tableidSeq) (hdata : ¬k.IsData) :
    Spares (writeKey k v) := by
  apply write
  intro w hw
  rw [List.mem_singleton.mp hw]
  exact ⟨hk.1, hk.2.1, hk.2.2, fun h => absurd h hdata⟩

theorem applyIndexEntry (t : Name) (id : UInt64) (columns : Option (List Name))
    (unique : List Name) (pk : G.Key) (row : DataRow G.Value) (index : SchemaIndex G) :
    Spares (applyIndexEntry t id columns unique pk row false index) := by
  unfold Sql.applyIndexEntry
  apply bind except
  intro value
  apply bind
  · change Spares (checkUnique t id [] index.name value pk)
    rw [checkUnique, if_neg fun hunique => absurd hunique.1 List.not_mem_nil]
    exact pure _
  · intro _
    apply bind except
    intro valueBytes
    apply bind except
    intro pkBytes
    exact deleteKey (by simp)

theorem applyIndexEntries (t : Name) (pk : G.Key) (row : DataRow G.Value) :
    Spares (applyIndexEntries t pk row false) := by
  unfold Sql.applyIndexEntries
  apply bind get
  intro c
  dsimp only
  split_ifs with hindexes
  · exact pure _
  · apply bind except
    intro id
    apply Along.forM sparesIds_tracks
    intro index _
    exact applyIndexEntry ..

theorem deleteRowKey (id : UInt64) (key : G.Key) : Spares (deleteRowKey id key) := by
  unfold Sql.deleteRowKey
  apply bind except
  intro bytes
  exact deleteKey (by simp)

theorem stampMetadata (t : Name) : Spares (stampMetadata t : Exec G Unit) := by
  unfold Sql.stampMetadata
  apply bind get
  intro c
  split_ifs with hstamped
  · exact writeKey _ (by simp) not_false
  · exact pure _

theorem moveKey (src dst : StorageKey) (hkind : src.Value G = dst.Value G)
    (hsrc : (∀ t, src ≠ .schema t) ∧ (∀ t, src ≠ .tableid t) ∧ src ≠ .tableidSeq)
    (hdst : (∀ t, dst ≠ .schema t) ∧ (∀ t, dst ≠ .tableid t) ∧ dst ≠ .tableidSeq)
    (hdata : ¬dst.IsData) : Spares (moveKey src dst hkind) := by
  unfold Sql.moveKey
  apply bind get
  intro c
  split
  · apply bind (writeKey _ hdst hdata)
    intro _
    exact deleteKey hsrc
  · exact pure _

end Spares

/-- The writes `ws` behind the overlay of `x`, with what they do to the tables. -/
def Ran (x : Txn G) (c' : Conn G) (ids : (Name → Option UInt64) → Name → Option UInt64)
    (named : (Name → Bool) → Name → Bool) (seq : Option UInt64 → Option UInt64) : Prop :=
  ∃ ws, c'.txn = some (x.buffer ws) ∧ Renumbers ws ids named seq

section Ran

variable {x : Txn G} {ids : (Name → Option UInt64) → Name → Option UInt64}
  {named : (Name → Bool) → Name → Bool} {seq : Option UInt64 → Option UInt64}

theorem ran_nil (hc : c.txn = some x) : Ran x c id id id :=
  ⟨[], by rw [hc, Txn.buffer_nil], NoIds.renumbers fun w hw => absurd hw List.not_mem_nil⟩

theorem Ran.write {ids' : (Name → Option UInt64) → Name → Option UInt64}
    {named' : (Name → Bool) → Name → Bool} {seq' : Option UInt64 → Option UInt64}
    (h : Ran x c ids named seq) {w : Write (StorageKey.Value G)}
    (hw : Renumbers [w] ids' named' seq') :
    Ran x (c.write w) (ids' ∘ ids) (named' ∘ named) (seq' ∘ seq) := by
  obtain ⟨ws, hc, hws⟩ := h
  refine ⟨ws ++ [w], ?_, hws.append hw⟩
  unfold Conn.write
  rw [hc]
  exact congrArg some (Txn.buffer_buffer ..)

theorem Ran.spares (h : Ran x c ids named seq) {α : Type} {p : Exec G α} (hp : Spares p) :
    Holds p c (fun _ c' => Ran x c' ids named seq) (fun _ _ => True) := by
  obtain ⟨ws, hc, hws⟩ := h
  apply (hp.holds c).mono
  · intro _ c' hspares
    obtain ⟨ws', hws', hc'⟩ := hspares _ hc
    exact ⟨ws ++ ws', by rw [hc', Txn.buffer_buffer], hws.append hws'.renumbers⟩
  · exact fun _ _ _ => trivial

end Ran

section Statements

variable {x : Txn G} {α : Type} {f : Unit → Exec G α} {post : α → Conn G → Prop}
  {fail : Error G → Conn G → Prop}

theorem holds_writeKey_bind {k : StorageKey} {v : k.Value G} :
    Holds (writeKey k v >>= f) c post fail ↔ Holds (f ()) (c.write (.put k v)) post fail :=
  Holds.bind_iff

theorem holds_deleteKey_bind {k : StorageKey} :
    Holds (deleteKey k >>= f) c post fail ↔ Holds (f ()) (c.write (.delete k)) post fail :=
  Holds.bind_iff

/-- A schema record is there exactly when the id is. -/
def Paired (s : Store G) : Prop := ∀ t, (readSchema s t).isSome = (resolveTableId s t).isSome

theorem nextTableId_toNat_eq {s : Store G} {next : UInt64}
    (h : (nextTableId (readTableIdSeq s) : Except (Error G) UInt64) = .ok next) :
    next.toNat = lastTableId s + 1 := by
  unfold lastTableId
  cases hseq : readTableIdSeq s with
  | none =>
    rw [hseq] at h
    obtain rfl : 1 = next := Except.ok.inj h
    rfl
  | some last =>
    rw [hseq] at h
    exact nextTableId_toNat h last rfl

theorem createTableStmt_ran (hc : c.txn = some x) (hpaired : Paired c.view)
    (columns : Option (List (ColumnDef G))) :
    Holds (createTableStmt t columns) c
      (fun _ c' => ∃ next : UInt64, next.toNat = lastTableId c.view + 1 ∧
        Ran x c' (fun ids => Function.update ids t (some next))
          (fun named => Function.update named t true) fun _ => some next)
      (fun _ _ => True) := by
  unfold createTableStmt
  rw [Holds.bind_iff, Holds.get_iff]
  split_ifs with hexists hnodup
  · trivial
  · have hnone : resolveTableId c.view t = none := by
      rw [← Option.not_isSome_iff_eq_none, ← hpaired t]
      exact hexists
    unfold insertSchema
    rw [Holds.bind_iff]
    apply enforceStrict_holds.mono
    · intro _ c1 hsame
      subst c1
      unfold ensureTableId
      rw [Holds.bind_iff, Holds.bind_iff, Holds.get_iff]
      dsimp only
      rw [hnone]
      dsimp only
      rw [Holds.bind_iff]
      apply holds_ofExcept
      · intro next hnext
        have hran := (((ran_nil hc).write (renumbers_seq next)).write
          (renumbers_tableid t (some next))).write
            (renumbers_schema t (some (⟨t, columns, []⟩ : Schema G)))
        apply (hran.spares (Spares.stampMetadata t)).mono
        · intro _ c' hran'
          exact ⟨next, nextTableId_toNat_eq hnext, hran'⟩
        · exact fun _ _ _ => trivial
      · exact fun _ _ => trivial
    · exact fun _ _ _ => trivial
  · trivial

theorem dropTableStmt_ran (hc : c.txn = some x) :
    Holds (dropTableStmt t) c
      (fun _ c' => Ran x c' (fun ids => Function.update ids t none)
        (fun named => Function.update named t false) id)
      (fun _ _ => True) := by
  unfold dropTableStmt deleteSchema
  rw [Holds.bind_iff, Holds.get_iff, Holds.bind_iff]
  apply holds_ofExcept
  · intro schema _
    rw [Holds.bind_iff, Holds.get_iff]
    dsimp only
    rw [Holds.bind_iff]
    apply holds_ofExcept
    · intro id _
      rw [Holds.bind_iff]
      apply holds_ofExcept
      · intro rows _
        rw [Holds.bind_iff]
        apply ((ran_nil hc).spares (Along.forM sparesIds_tracks rows fun q _ =>
          Spares.applyIndexEntries t q.1 q.2)).mono
        · intro _ c1 h1
          rw [Holds.bind_iff]
          apply (h1.spares (Along.forM sparesIds_tracks rows fun q _ =>
            Spares.deleteRowKey id q.1)).mono
          · intro _ c2 h2
            rw [holds_deleteKey_bind, Holds.bind_iff]
            apply ((h2.write (renumbers_schema t none)).spares
              (Spares.deleteKey (k := .metadata t) (by simp))).mono
            · intro _ c3 h3
              rw [Holds.bind_iff]
              apply (h3.spares (Spares.deleteKey (k := .colcat t) (by simp))).mono
              · intro _ c4 h4
                rw [Holds.bind_iff]
                apply (h4.spares (Spares.deleteKey (k := .pkcat t) (by simp))).mono
                · intro _ c5 h5
                  exact h5.write (renumbers_tableid t none)
                · exact fun _ _ _ => trivial
              · exact fun _ _ _ => trivial
            · exact fun _ _ _ => trivial
          · exact fun _ _ _ => trivial
        · exact fun _ _ _ => trivial
      · exact fun _ _ => trivial
    · exact fun _ _ => trivial
  · exact fun _ _ => trivial

theorem renameSchema_ran (hc : c.txn = some x) {new : Name} :
    Holds (renameSchema t new) c
      (fun _ c' => ∃ id, resolveTableId c.view t = some id ∧
        Ran x c' (fun ids => Function.update (Function.update ids new (some id)) t none)
          (fun named => Function.update (Function.update named new true) t false) fun seq => seq)
      (fun _ _ => True) := by
  unfold renameSchema
  rw [Holds.bind_iff, Holds.get_iff]
  dsimp only
  split
  · trivial
  · rename_i schema _
    rw [Holds.bind_iff]
    apply holds_ofExcept
    · intro id hid
      have hresolve : resolveTableId c.view t = some id := by
        unfold tableId at hid
        split at hid
        · rename_i id' hid'
          rw [hid', Except.ok.inj hid]
        · exact absurd hid (by simp)
      have hran := ((((ran_nil hc).write (renumbers_schema new (some (withName schema new)))).write
        (renumbers_schema t none)).write (renumbers_tableid new (some id))).write
          (renumbers_tableid t none)
      have hmoves : Spares (do
          moveKey (.metadata t) (.metadata new) rfl
          moveKey (.colcat t) (.colcat new) rfl
          moveKey (.pkcat t) (.pkcat new) rfl : Exec G Unit) := by
        apply Spares.bind (Spares.moveKey (.metadata t) (.metadata new) rfl (by simp)
            (by simp) not_false)
        intro _
        apply Spares.bind (Spares.moveKey (.colcat t) (.colcat new) rfl (by simp)
            (by simp) not_false)
        intro _
        exact Spares.moveKey (.pkcat t) (.pkcat new) rfl (by simp) (by simp) not_false
      rw [holds_writeKey_bind, holds_deleteKey_bind, holds_writeKey_bind, holds_deleteKey_bind]
      apply (hran.spares hmoves).mono
      · intro _ c' hran'
        exact ⟨id, hresolve, hran'⟩
      · exact fun _ _ _ => trivial
    · exact fun _ _ => trivial

end Statements

section Commits

variable {s : Store G} {ws : Batch G} {new : Name} {next : UInt64}

/-- No id in use is above the counter of the snapshot, that of the table itself aside. -/
def Counted (live snapshot : Store G) (t : Name) : Prop :=
  ∀ k id, k ≠ .tableid t → usedId live k = some id → id.toNat ≤ lastTableId snapshot

def Unclaimed (live snapshot : Store G) (t new : Name) : Prop :=
  ∀ id, resolveTableId snapshot t = some id → ∀ u, u ≠ t → u ≠ new → resolveTableId live u ≠ some id

theorem counted_iff {live snapshot : Store G} : Counted live snapshot t ↔
    ∀ k ∈ live.written, k ≠ .tableid t →
      (usedId live k).all (fun id => decide (id.toNat ≤ lastTableId snapshot)) = true := by
  simp only [Option.all_eq_true, decide_eq_true_eq]
  constructor
  · intro h k _ hk id hid
    exact h k id hk hid
  · intro h k id hk hid
    exact h k (usedId_written hid) hk id hid

instance (live snapshot : Store G) (t : Name) : Decidable (Counted live snapshot t) :=
  decidable_of_iff _ counted_iff.symm

def namedId (s : Store G) : StorageKey → Option UInt64
  | .tableid t => resolveTableId s t
  | _ => none

theorem unclaimed_iff {live snapshot : Store G} : Unclaimed live snapshot t new ↔
    (resolveTableId snapshot t).all (fun id => decide (∀ k ∈ live.written,
      k ≠ .tableid t → k ≠ .tableid new → namedId live k ≠ some id)) = true := by
  simp only [Option.all_eq_true, decide_eq_true_eq]
  constructor
  · intro h id hid k _ hk hk'
    cases k with
    | tableid u => exact h id hid u (by simpa using hk) (by simpa using hk')
    | _ => exact fun heq => absurd heq (by simp [namedId])
  · intro h id hid u hu hu' hlive
    have hmem : .tableid u ∈ live.written :=
        live.covers (.tableid u) (Option.isSome_iff_exists.mpr ⟨id, hlive⟩)
    exact h id hid (.tableid u) hmem (by simpa using hu) (by simpa using hu') hlive

instance (live snapshot : Store G) (t new : Name) : Decidable (Unclaimed live snapshot t new) :=
  decidable_of_iff _ unclaimed_iff.symm

theorem Paired.commit {ids : (Name → Option UInt64) → Name → Option UInt64}
    {named : (Name → Bool) → Name → Bool} {seq : Option UInt64 → Option UInt64} (h : Paired s)
    (hws : Renumbers ws ids named seq)
    (hsame : ∀ f u, named (fun t => (f t).isSome) u = (ids f u).isSome) : Paired (s.commit ws) := by
  intro u
  have hnamed : (readSchema (s.commit ws) u).isSome = named (fun t => (readSchema s t).isSome) u :=
    congrFun (hws.named s) u
  rw [hnamed, hws.ids, ← hsame]
  exact congrArg (named · u) (funext h)

theorem IdsApart.create (h : IdsApart s) {snapshot : Store G} (hcounted : Counted s snapshot t)
    (hnext : next.toNat = lastTableId snapshot + 1)
    (hids : resolveTableId (s.commit ws) = Function.update (resolveTableId s) t (some next)) :
    IdsApart (s.commit ws) := by
  have hfresh : ∀ u, u ≠ t → resolveTableId s u ≠ some next := by
    intro u hu hid
    have hle := hcounted (.tableid u) next (by simpa using hu) hid
    omega
  intro u u' id hid hid'
  rw [hids] at hid hid'
  by_cases hu : u = t <;> by_cases hu' : u' = t
  · rw [hu, hu']
  · subst u
    rw [Function.update_self] at hid
    rw [Function.update_of_ne hu', ← hid] at hid'
    exact absurd hid' (hfresh u' hu')
  · subst u'
    rw [Function.update_self] at hid'
    rw [Function.update_of_ne hu, ← hid'] at hid
    exact absurd hid (hfresh u hu)
  · rw [Function.update_of_ne hu] at hid
    rw [Function.update_of_ne hu'] at hid'
    exact h u u' id hid hid'

theorem IdsApart.drop (h : IdsApart s)
    (hids : resolveTableId (s.commit ws) = Function.update (resolveTableId s) t none) :
    IdsApart (s.commit ws) := by
  have hkept : ∀ u id, resolveTableId (s.commit ws) u = some id → resolveTableId s u = some id := by
    intro u id hid
    rw [hids] at hid
    by_cases hu : u = t
    · subst u
      rw [Function.update_self] at hid
      exact absurd hid (by simp)
    · rwa [Function.update_of_ne hu] at hid
  intro u u' id hid hid'
  exact h u u' id (hkept u id hid) (hkept u' id hid')

theorem IdsApart.rename (h : IdsApart s) {snapshot : Store G}
    (hunclaimed : Unclaimed s snapshot t new) (hid : resolveTableId snapshot t = some next)
    (hids : resolveTableId (s.commit ws) =
      Function.update (Function.update (resolveTableId s) new (some next)) t none) :
    IdsApart (s.commit ws) := by
  have hcases : ∀ u id, resolveTableId (s.commit ws) u = some id →
      u ≠ t ∧ (u = new ∧ id = next ∨ u ≠ new ∧ resolveTableId s u = some id) := by
    intro u id huid
    rw [hids] at huid
    have hu : u ≠ t := by
      rintro rfl
      rw [Function.update_self] at huid
      exact absurd huid (by simp)
    rw [Function.update_of_ne hu] at huid
    refine ⟨hu, ?_⟩
    by_cases hnew : u = new
    · subst u
      rw [Function.update_self, Option.some.injEq] at huid
      exact Or.inl ⟨rfl, huid.symm⟩
    · rw [Function.update_of_ne hnew] at huid
      exact Or.inr ⟨hnew, huid⟩
  intro u u' id huid huid'
  obtain ⟨hu, ⟨rfl, rfl⟩ | ⟨hnew, hold⟩⟩ := hcases u id huid
  · obtain ⟨hu', ⟨rfl, -⟩ | ⟨hnew', hold'⟩⟩ := hcases u' id huid'
    · rfl
    · exact absurd hold' (hunclaimed id hid u' hu' hnew')
  · obtain ⟨hu', ⟨rfl, rfl⟩ | ⟨hnew', hold'⟩⟩ := hcases u' id huid'
    · exact absurd hold (hunclaimed id hid u hu hnew)
    · exact h u u' id hold hold'

/-- Nothing is stored under an id that the counter has not reached. -/
theorem Counted.vacant {snapshot : Store G} (h : Counted s snapshot t)
    (hnext : next.toNat = lastTableId snapshot + 1) : Vacant s next := by
  constructor
  · intro p
    rw [Option.eq_none_iff_forall_ne_some]
    intro st hst
    have hle := h (.row next p) next (by simp) (by simp [usedId, hst])
    omega
  · intro n v p
    rw [Option.eq_none_iff_forall_ne_some]
    intro pk hpk
    have hle := h (.indexEntry next n v p) next (by simp) (by simp [usedId, hpk])
    omega

theorem Vacant.thins {s' : Store G} {id : UInt64} (h : Vacant s id) (hs : Thins s s') :
    Vacant s' id := by
  constructor
  · intro p
    rcases hs (.row id p) trivial with hget | hget
    · exact hget.trans (h.1 p)
    · exact hget
  · intro n v p
    rcases hs (.indexEntry id n v p) trivial with hget | hget
    · exact hget.trans (h.2 n v p)
    · exact hget

end Commits

/-- The statements that name tables. -/
def Stmt.NamesTables : Stmt G → Prop
  | .createTable _ _ => True
  | .dropTable _ => True
  | .renameTable _ _ => True
  | _ => False

instance : DecidablePred (Stmt.NamesTables (G := G))
  | .createTable _ _ | .dropTable _ | .renameTable _ _ => .isTrue trivial
  | .insert _ _ | .update _ _ | .delete _ _ | .createIndex _ _ _ _ | .dropIndex _ _
  | .addColumn _ _ | .dropColumn _ _ _ | .renameColumn _ _ _ => .isFalse not_false

def Event.NamesTables : Event G → Prop
  | .begin _ stmt => stmt.NamesTables
  | _ => True

instance : DecidablePred (Event.NamesTables (G := G))
  | .begin _ stmt => inferInstanceAs (Decidable stmt.NamesTables)
  | .exec _ | .commit _ => .isTrue trivial

/-- What the commit of the statement does not check against the committed store. -/
def Running.Claims (r : Running G) (live : Store G) : Prop :=
  match r.stmt with
  | .createTable t _ => Counted live r.txn.snapshot t
  | .renameTable t new => Unclaimed live r.txn.snapshot t new
  | _ => True

instance (live : Store G) : DecidablePred fun r : Running G => r.Claims live
  | ⟨.createTable t _, txn, _⟩ => inferInstanceAs (Decidable (Counted live txn.snapshot t))
  | ⟨.renameTable t new, txn, _⟩ =>
    inferInstanceAs (Decidable (Unclaimed live txn.snapshot t new))
  | ⟨.dropTable _, _, _⟩ | ⟨.insert _ _, _, _⟩ | ⟨.update _ _, _, _⟩ | ⟨.delete _ _, _, _⟩
  | ⟨.createIndex _ _ _ _, _, _⟩ | ⟨.dropIndex _ _, _, _⟩ | ⟨.addColumn _ _, _, _⟩
  | ⟨.dropColumn _ _ _, _, _⟩ | ⟨.renameColumn _ _ _, _, _⟩ => .isTrue trivial

namespace Server

def Claims (srv : Server G) : Event G → Prop
  | .commit i => ∀ r ∈ srv.running i, r.executed = true → r.Claims srv.live
  | _ => True

instance (srv : Server G) : DecidablePred srv.Claims
  | .begin _ _ | .exec _ => .isTrue trivial
  | .commit i => inferInstanceAs
      (Decidable (∀ r ∈ srv.running i, r.executed = true → r.Claims srv.live))

/-- Every commit of the run takes an id that is not in use. -/
def AlwaysClaims : Server G → List (Event G) → Prop
  | _, [] => True
  | srv, e :: events => srv.Claims e ∧ (srv.step e).AlwaysClaims events

instance decidableAlwaysClaims : (srv : Server G) → (events : List (Event G)) →
    Decidable (srv.AlwaysClaims events)
  | _, [] => .isTrue trivial
  | srv, e :: events =>
    have := decidableAlwaysClaims (srv.step e) events
    inferInstanceAs (Decidable (srv.Claims e ∧ (srv.step e).AlwaysClaims events))

theorem AlwaysClaims.append {srv : Server G} {events more : List (Event G)}
    (h : srv.AlwaysClaims (events ++ more)) :
    srv.AlwaysClaims events ∧ (srv.run events).AlwaysClaims more := by
  induction events generalizing srv with
  | nil => exact ⟨trivial, h⟩
  | cons e events ih =>
    obtain ⟨hfirst, hrest⟩ := h
    exact ⟨⟨hfirst, (ih hrest).1⟩, (ih hrest).2⟩

end Server

/-- What an executed statement has buffered over its snapshot. -/
def Running.Renames (r : Running G) : Prop :=
  match r.stmt with
  | .createTable t _ => ∃ next : UInt64, next.toNat = lastTableId r.txn.snapshot + 1 ∧
      Renumbers r.txn.overlay (fun ids => Function.update ids t (some next))
        (fun named => Function.update named t true) fun _ => some next
  | .dropTable t => Renumbers r.txn.overlay (fun ids => Function.update ids t none)
      (fun named => Function.update named t false) id
  | .renameTable t new => ∃ id, resolveTableId r.txn.snapshot t = some id ∧
      Renumbers r.txn.overlay
        (fun ids => Function.update (Function.update ids new (some id)) t none)
        (fun named => Function.update (Function.update named new true) t false) fun seq => seq
  | _ => False

structure RunningNamed (r : Running G) : Prop where
  kind : r.stmt.NamesTables
  paired : Paired r.txn.snapshot
  unchecked : r.txn.uniqueChecks = [] ∧ r.txn.uniqueIndexChecks = []
  fresh : r.executed = false → r.txn.overlay = []
  renames : r.executed = true → r.Renames

structure ServerNamed (srv : Server G) : Prop where
  paired : Paired srv.live
  apart : IdsApart srv.live
  running : ∀ i r, srv.running i = some r → RunningNamed r

section Steps

variable {srv : Server G}

theorem ServerNamed.set (h : ServerNamed srv) {i : ℕ} {r : Option (Running G)} {live : Store G}
    {seq : UInt64 → Option ℤ} (hpaired : Paired live) (hapart : IdsApart live)
    (hr : ∀ r', r = some r' → RunningNamed r') :
    ServerNamed
      { srv with live := live, seq := seq, running := Function.update srv.running i r } := by
  refine ⟨hpaired, hapart, fun j r' hj => ?_⟩
  by_cases hji : j = i
  · subst j
    simp only [Function.update_self] at hj
    exact hr r' hj
  · simp only [Function.update_of_ne hji] at hj
    exact h.running j r' hj

theorem RunningNamed.run {r : Running G} (hr : RunningNamed r) (hexecuted : r.executed = false) :
    Holds (runStmt r.stmt) (srv.conn r.txn) (fun _ c => ∃ x, c.txn = some x ∧
      RunningNamed ⟨r.stmt, x, true⟩) (fun _ _ => True) := by
  have hempty := hr.fresh hexecuted
  have hview : (srv.conn r.txn).view = r.txn.snapshot := by
    simp [Server.conn, Conn.view, hempty]
  have hbuffer : ∀ {c : Conn G} {ids named seq}, Ran r.txn c ids named seq →
      ∃ x, c.txn = some x ∧ x.snapshot = r.txn.snapshot ∧ x.uniqueChecks = [] ∧
        x.uniqueIndexChecks = [] ∧ Renumbers x.overlay ids named seq := by
    rintro c ids named seq ⟨ws, hc, hws⟩
    refine ⟨_, hc, rfl, hr.unchecked.1, hr.unchecked.2, ?_⟩
    unfold Txn.buffer
    rwa [hempty]
  have hdone : ∀ {x : Txn G}, x.snapshot = r.txn.snapshot → x.uniqueChecks = [] →
      x.uniqueIndexChecks = [] → Running.Renames ⟨r.stmt, x, true⟩ →
        RunningNamed ⟨r.stmt, x, true⟩ := by
    intro x hsnap hchecks hindexes hrenames
    exact ⟨hr.kind, by rw [hsnap]; exact hr.paired, ⟨hchecks, hindexes⟩,
      fun hfalse => absurd hfalse (by simp), fun _ => hrenames⟩
  have hkind := hr.kind
  cases hstmt : r.stmt with
  | createTable t columns =>
    apply (createTableStmt_ran rfl (hview ▸ hr.paired) columns).mono
    · rintro _ c ⟨next, hnext, hran⟩
      obtain ⟨x, hx, hsnap, hchecks, hindexes, hws⟩ := hbuffer hran
      rw [hstmt] at hdone
      rw [hview, ← hsnap] at hnext
      exact ⟨x, hx, hdone hsnap hchecks hindexes ⟨next, hnext, hws⟩⟩
    · exact fun _ _ _ => trivial
  | dropTable t =>
    apply (dropTableStmt_ran rfl).mono
    · intro _ c hran
      obtain ⟨x, hx, hsnap, hchecks, hindexes, hws⟩ := hbuffer hran
      rw [hstmt] at hdone
      exact ⟨x, hx, hdone hsnap hchecks hindexes hws⟩
    · exact fun _ _ _ => trivial
  | renameTable t new =>
    apply (renameSchema_ran rfl).mono
    · rintro _ c ⟨id, hid, hran⟩
      obtain ⟨x, hx, hsnap, hchecks, hindexes, hws⟩ := hbuffer hran
      rw [hstmt] at hdone
      rw [hview, ← hsnap] at hid
      exact ⟨x, hx, hdone hsnap hchecks hindexes ⟨id, hid, hws⟩⟩
    · exact fun _ _ _ => trivial
  | _ =>
    rw [hstmt] at hkind
    exact hkind.elim

theorem ServerNamed.exec (h : ServerNamed srv) (i : ℕ) :
    ServerNamed (srv.execStmt i) ∧ (srv.execStmt i).live = srv.live := by
  unfold Server.execStmt
  cases hi : srv.running i with
  | none => exact ⟨h, rfl⟩
  | some r =>
    have hr := h.running i r hi
    dsimp only
    split_ifs with hexecuted
    · exact ⟨h, rfl⟩
    · have hlive := (runStmt_grows r.stmt).holds (srv.conn r.txn)
      have hrun := @RunningNamed.run _ srv _ hr (Bool.not_eq_true _ ▸ hexecuted)
      unfold Holds at hlive hrun
      cases hresult : runStmt r.stmt (srv.conn r.txn) with
      | error e c =>
        rw [hresult] at hlive
        have hsame : c.live = srv.live := (hlive rfl).live
        exact ⟨h.set (hsame ▸ h.paired) (hsame ▸ h.apart) (by simp), hsame⟩
      | ok a c =>
        rw [hresult] at hlive hrun
        have hsame : c.live = srv.live := (hlive rfl).live
        obtain ⟨x, hx, hnamed⟩ := hrun
        refine ⟨h.set (hsame ▸ h.paired) (hsame ▸ h.apart) fun r' hr' => ?_, hsame⟩
        rw [hx] at hr'
        rw [← Option.some.inj hr']
        exact hnamed

theorem commit_unchecked {x : Txn G} (hc : c.txn = some x)
    (hx : x.uniqueChecks = [] ∧ x.uniqueIndexChecks = []) :
    ∃ c', Sql.commit c = .ok () c' ∧ c'.live = c.live.commit x.overlay := by
  unfold Sql.commit
  rw [hc]
  dsimp only
  split_ifs with hempty
  · rw [hempty]
    exact ⟨_, rfl, rfl⟩
  · unfold recheck
    rw [hx.1, hx.2]
    exact ⟨_, rfl, rfl⟩

/-- The batch of an executed statement whose id nothing else has. -/
theorem RunningNamed.commit {r : Running G} {s : Store G} (hr : RunningNamed r)
    (hexecuted : r.executed = true) (hpaired : Paired s) (hapart : IdsApart s)
    (hclaims : r.Claims s) : Paired (s.commit r.txn.overlay) ∧ IdsApart (s.commit r.txn.overlay) ∧
      Thins s (s.commit r.txn.overlay) := by
  have hrenames := hr.renames hexecuted
  unfold Running.Renames at hrenames
  unfold Running.Claims at hclaims
  cases hstmt : r.stmt with
  | createTable t columns =>
    rw [hstmt] at hrenames hclaims
    obtain ⟨next, hnext, hws⟩ := hrenames
    refine ⟨hpaired.commit hws fun f u => ?_, hapart.create hclaims hnext (hws.ids s),
      hws.thins s⟩
    by_cases hu : u = t
    · rw [hu, Function.update_self, Function.update_self]
      rfl
    · rw [Function.update_of_ne hu, Function.update_of_ne hu]
  | dropTable t =>
    rw [hstmt] at hrenames
    refine ⟨hpaired.commit hrenames fun f u => ?_, hapart.drop (hrenames.ids s),
      hrenames.thins s⟩
    by_cases hu : u = t
    · rw [hu, Function.update_self, Function.update_self]
      rfl
    · rw [Function.update_of_ne hu, Function.update_of_ne hu]
  | renameTable t new =>
    rw [hstmt] at hrenames hclaims
    obtain ⟨id, hid, hws⟩ := hrenames
    refine ⟨hpaired.commit hws fun f u => ?_, hapart.rename hclaims hid (hws.ids s),
      hws.thins s⟩
    by_cases hu : u = t
    · rw [hu, Function.update_self, Function.update_self]
      rfl
    · rw [Function.update_of_ne hu, Function.update_of_ne hu]
      by_cases hnew : u = new
      · rw [hnew, Function.update_self, Function.update_self]
        rfl
      · rw [Function.update_of_ne hnew, Function.update_of_ne hnew]
  | _ =>
    rw [hstmt] at hrenames
    exact hrenames.elim

theorem Thins.refl (s : Store G) : Thins s s := fun _ _ => Or.inl rfl

theorem ServerNamed.commit (h : ServerNamed srv) (i : ℕ) (hclaims : srv.Claims (.commit i)) :
    ServerNamed (srv.commitStmt i) ∧ Thins srv.live (srv.commitStmt i).live := by
  unfold Server.commitStmt
  cases hi : srv.running i with
  | none => exact ⟨h, Thins.refl _⟩
  | some r =>
    have hr := h.running i r hi
    dsimp only
    split_ifs with hexecuted
    · obtain ⟨c', hc', hlive⟩ := commit_unchecked (c := srv.conn r.txn) rfl hr.unchecked
      obtain ⟨hpaired, hapart, hthins⟩ :=
        hr.commit hexecuted h.paired h.apart (hclaims r hi hexecuted)
      have hsame : c'.live = srv.live.commit r.txn.overlay := hlive
      rw [hc']
      refine ⟨h.set (hsame ▸ hpaired) (hsame ▸ hapart) (by simp), ?_⟩
      rw [← hsame] at hthins
      exact hthins
    · exact ⟨h, Thins.refl _⟩

theorem ServerNamed.step (h : ServerNamed srv) {e : Event G} (hkind : e.NamesTables)
    (hclaims : srv.Claims e) : ServerNamed (srv.step e) ∧ Thins srv.live (srv.step e).live := by
  cases e with
  | begin i stmt =>
    change ServerNamed (srv.beginStmt i stmt) ∧ Thins _ (srv.beginStmt i stmt).live
    unfold Server.beginStmt
    cases hi : srv.running i with
    | some r => exact ⟨h, Thins.refl _⟩
    | none =>
      refine ⟨h.set h.paired h.apart fun r hr => ?_, Thins.refl _⟩
      rw [← Option.some.inj hr]
      exact ⟨hkind, h.paired, ⟨rfl, rfl⟩, fun _ => rfl, fun htrue => absurd htrue (by simp)⟩
  | exec i =>
    obtain ⟨hnamed, hlive⟩ := h.exec i
    refine ⟨hnamed, fun k _ => Or.inl ?_⟩
    exact congrArg (Kv.get · k) hlive
  | commit i => exact h.commit i hclaims

theorem ServerNamed.run (h : ServerNamed srv) {events : List (Event G)}
    (hkind : ∀ e ∈ events, e.NamesTables) (hclaims : srv.AlwaysClaims events) :
    ServerNamed (srv.run events) ∧ Thins srv.live (srv.run events).live := by
  induction events generalizing srv with
  | nil => exact ⟨h, Thins.refl _⟩
  | cons e events ih =>
    obtain ⟨hstep, hthins⟩ := h.step (hkind e (by simp)) hclaims.1
    obtain ⟨hrun, hrest⟩ := ih hstep (fun e' he' => hkind e' (List.mem_cons_of_mem _ he')) hclaims.2
    exact ⟨hrun, hthins.trans hrest⟩

theorem ServerNamed.created (h : ServerNamed srv) {i : ℕ} {r : Running G} {t : Name}
    {columns : Option (List (ColumnDef G))} (hi : srv.running i = some r)
    (hexecuted : r.executed = true) (hstmt : r.stmt = .createTable t columns)
    (hclaims : srv.Claims (.commit i)) :
    ∃ id, resolveTableId (srv.step (.commit i)).live t = some id ∧ Vacant srv.live id := by
  have hr := h.running i r hi
  have hrenames := hr.renames hexecuted
  have hcounted := hclaims r hi hexecuted
  unfold Running.Renames at hrenames
  unfold Running.Claims at hcounted
  rw [hstmt] at hrenames hcounted
  obtain ⟨next, hnext, hws⟩ := hrenames
  obtain ⟨c', hc', hlive⟩ := commit_unchecked (c := srv.conn r.txn) rfl hr.unchecked
  have hstep : (srv.step (.commit i)).live = srv.live.commit r.txn.overlay := by
    change (srv.commitStmt i).live = _
    unfold Server.commitStmt
    simp only [hi, hexecuted, if_true, hc']
    exact hlive
  refine ⟨next, ?_, hcounted.vacant hnext⟩
  rw [hstep, hws.ids, Function.update_self]

end Steps

theorem Integrity.paired {s : Store G} (h : Integrity s) : Paired s := by
  intro t
  rw [Bool.eq_iff_iff]
  constructor
  · intro hschema
    obtain ⟨schema, hschema⟩ := Option.isSome_iff_exists.mp hschema
    obtain ⟨-, id, hid, -⟩ := h.table t schema hschema
    exact Option.isSome_iff_exists.mpr ⟨id, hid⟩
  · intro hid
    obtain ⟨id, hid⟩ := Option.isSome_iff_exists.mp hid
    exact h.ids t id hid

/-- In every interleaving of CREATE, DROP and RENAME TABLE in which each commit takes
an id that is not in use, tables have ids of their own and a new one starts empty
and stays so. -/
theorem tables_apart (hG : Lawful G) (strict : Bool) (now : ℤ) (ops : List (Op G))
    (hops : (Session.init strict now).Conforms ops) (events : List (Event G))
    (hkind : ∀ e ∈ events, e.NamesTables)
    (hclaims : (Server.idle (Sql.run (Conn.init strict now) ops)).AlwaysClaims events) :
    IdsApart ((Server.idle (Sql.run (Conn.init strict now) ops)).run events).live ∧
      ∀ before i after r t columns, events = before ++ .commit i :: after →
        ((Server.idle (Sql.run (Conn.init strict now) ops)).run before).running i = some r →
        r.executed = true → r.stmt = .createTable t columns →
        ∃ id, resolveTableId ((Server.idle (Sql.run (Conn.init strict now) ops)).run
            (before ++ [.commit i])).live t = some id ∧
          Vacant ((Server.idle (Sql.run (Conn.init strict now) ops)).run events).live id := by
  have h0 := integrity_run hG hops
  have hstart : ServerNamed (Server.idle (Sql.run (Conn.init strict now) ops)) :=
    ⟨h0.paired, h0.ids_inj, fun i r hi => absurd hi (by simp [Server.idle])⟩
  refine ⟨(hstart.run hkind hclaims).1.apart, ?_⟩
  intro before i after r t columns hevents hi hexecuted hstmt
  subst events
  obtain ⟨hbefore, hcommit, hafter⟩ := hclaims.append
  have hnamed := (hstart.run (fun e he => hkind e (by simp [he])) hbefore).1
  obtain ⟨id, hid, hvacant⟩ := hnamed.created hi hexecuted hstmt hcommit
  obtain ⟨hstep, hthins⟩ := hnamed.step (hkind (.commit i) (by simp)) hcommit
  have hlast := (hstep.run (fun e he => hkind e (by simp [he])) hafter).2
  refine ⟨id, ?_, ?_⟩
  · unfold Server.run at hid ⊢
    rw [List.foldl_append]
    exact hid
  · unfold Server.run at hlast ⊢
    rw [List.foldl_append]
    exact hvacant.thins (hthins.trans hlast)

/-- A table is dropped and another renamed between two CREATE TABLE statements. -/
def Ints.inTurn : List (Event Ints.engine) :=
  [.begin 0 Ints.createTable, .begin 1 (.renameTable Ints.t Ints.u), .exec 0, .commit 0, .exec 1,
    .begin 1 (.renameTable Ints.t Ints.u), .begin 2 (.dropTable Ints.u), .exec 1, .commit 1,
    .exec 2, .begin 2 (.dropTable Ints.u), .exec 2, .begin 0 Ints.createTable, .commit 2, .exec 0,
    .commit 0]

theorem tables_apart_inTurn : IdsApart ((Server.idle
    (run (Conn.init false 0) ([] : List (Op Ints.engine)))).run Ints.inTurn).live := by
  apply (tables_apart Ints.lawful false 0 [] trivial Ints.inTurn _ _).1
  · decide +kernel
  · decide +kernel

/-- Two CREATE TABLE statements that read the counter in the same snapshot. -/
def Ints.overlapping : List (Event Ints.engine) :=
  [.begin 0 Ints.createTable, .begin 1 (.createTable Ints.u none), .exec 0, .exec 1, .commit 0,
    .commit 1]

/-- Both tables are there, with the id 1. -/
theorem tables_share_id :
    (∀ e ∈ Ints.overlapping, e.NamesTables) ∧ Ints.t ≠ Ints.u ∧
      (readSchema ((Server.idle (run (Conn.init false 0) [])).run Ints.overlapping).live
        Ints.t).isSome = true ∧
      (readSchema ((Server.idle (run (Conn.init false 0) [])).run Ints.overlapping).live
        Ints.u).isSome = true ∧
      resolveTableId ((Server.idle (run (Conn.init false 0) [])).run Ints.overlapping).live
        Ints.t = some 1 ∧
      resolveTableId ((Server.idle (run (Conn.init false 0) [])).run Ints.overlapping).live
        Ints.u = some 1 := by
  decide +kernel

end BlueDB.Sql
