import BlueDB.Sql.Sessions

/-!
# The commit of a transaction that runs alone

Statements check rows against what the transaction reads, the commit against the
committed store. The two differ in the rows and entries the transaction itself
took away: such a key or value, given to a row again, fails the commit.
-/

namespace BlueDB.Sql

variable {G : Engine} {c c' c'' : Conn G} {t : Name} {schema : Schema G} {id : UInt64}
  {catalog : Option (ColumnCatalog G)} {unique : List Name} {p : List UInt8} {key : G.Key}
  {row : DataRow G.Value}

/-- The key is free for the transaction, and a committed row has it. -/
def KeyTaken (c : Conn G) (id : UInt64) (key : G.Key) : Prop :=
  ∃ p, keyBytes key = .ok p ∧ readRow c.view id p = none ∧ (readRow c.live id p).isSome = true

/-- A committed entry holds a unique value of the row under another key. -/
def ValueTaken (c : Conn G) (schema : Schema G) (t : Name) (id : UInt64) (key : G.Key)
    (row : DataRow G.Value) : Prop :=
  ∃ n value v, UniqueValue schema (readUniqueIndexes c.view t) row n value ∧
    keyBytes value = .ok v ∧ ∃ p k, readEntry c.live id n v p = some k ∧ k ≠ key

def storedRows (c : Conn G) (t : Name) (schema : Schema G) (id : UInt64) :
    Stmt G → List (G.Key × DataRow G.Value)
  | .insert _ rows => insertedRows c t schema id rows
  | .update _ assign =>
    changedRows assign (logicalRows c.view (readCatalog c.view t) (scanTable c.view id))
  | _ => []

/-- The statement stores rows under keys of theirs, not under allocated ones. -/
def Stmt.keyed (schema : Schema G) : Stmt G → Bool
  | .insert _ _ => (primaryKeyIndex schema).isSome
  | _ => true

/-- The statement stores a row under a key or with a unique value that is taken. -/
def Taken (c : Conn G) (stmt : Stmt G) : Prop :=
  ∃ t ∈ stmt.target, ∃ schema ∈ readSchema c.view t, ∃ id ∈ resolveTableId c.view t,
    ∃ q ∈ storedRows c t schema id stmt,
      stmt.keyed schema = true ∧ KeyTaken c id q.1 ∨ ValueTaken c schema t id q.1 q.2

/-- No statement of the run stores such a row. -/
def Undisturbed : Conn G → List (Stmt G) → Prop
  | _, [] => True
  | c, stmt :: rest => ¬Taken c stmt ∧ Undisturbed (step c (.exec stmt)) rest

/-- Something is buffered in the open transaction. -/
def Written (c : Conn G) : Prop := ∀ x ∈ c.txn, x.overlay ≠ []

theorem written_write (w : Write (StorageKey.Value G)) : Written (c.write w) := by
  intro x hx
  unfold Conn.write at hx
  cases hc : c.txn with
  | none =>
    rw [hc] at hx
    cases hx
  | some y =>
    rw [hc] at hx
    rw [← Option.some.inj hx]
    exact List.append_ne_nil_of_right_ne_nil _ (List.cons_ne_nil _ _)

theorem putRow_written (bytes : List UInt8) :
    Holds (putRow t id catalog bytes key row) c (fun _ c' => Written c') fun _ _ => True := by
  unfold putRow
  rw [Holds.bind_iff]
  exact Holds.always (fun _ c1 => written_write (c := c1) _) fun _ _ => trivial

theorem insertRow_written :
    Holds (insertRow t id catalog key row) c (fun _ c' => Written c') fun _ _ => True := by
  unfold insertRow
  rw [Holds.bind_iff]
  apply holds_ofExcept
  · intro bytes _
    rw [Holds.bind_iff]
    exact Holds.always (fun _ _ => putRow_written bytes) fun _ _ => trivial
  · exact fun _ _ => trivial

theorem appendRow_written {m : ℤ} :
    Holds (appendRow t id catalog m row) c (fun _ c' => Written c') fun _ _ => True := by
  unfold appendRow
  rw [Holds.bind_iff]
  apply holds_ofExcept
  · exact fun bytes _ => putRow_written bytes
  · exact fun _ _ => trivial

/-- The storage key of a row that is new to the transaction. -/
def FreshKey (c : Conn G) (id : UInt64) (key : G.Key) (k : StorageKey) : Prop :=
  ∃ p, keyBytes key = .ok p ∧ FreshRow c.view id p k

/-- A statement has stored the rows `done` since `c`. -/
structure Stored (c c' : Conn G) (t : Name) (schema : Schema G) (id : UInt64)
    (catalog : Option (ColumnCatalog G)) (keyed : Bool) (done : List (G.Key × DataRow G.Value)) :
    Prop where
  table : TableAt c'.view t schema id catalog
  unique : readUniqueIndexes c'.view t = readUniqueIndexes c.view t
  free : ∀ p, readRow c'.view id p = none ↔
    readRow c.view id p = none ∧ ∀ q ∈ done, keyBytes q.1 ≠ .ok p
  staged : Stages c c' (fun k => ∃ q ∈ done, keyed = true ∧ FreshKey c id q.1 k)
    (fun ch => ∃ q ∈ done, RowCheck schema (readUniqueIndexes c.view t) t id q.1 q.2 ch)
  written : done ≠ [] → Written c'

namespace Stored

variable {keyed : Bool} {done : List (G.Key × DataRow G.Value)}

theorem start (hc : c.txn.isSome = true) (hat : TableAt c.view t schema id catalog)
    (seq : UInt64 → Option ℤ) : Stored c { c with seq := seq } t schema id catalog keyed [] where
  table := hat
  unique := rfl
  free p := (and_iff_left (by simp)).symm
  staged := (Stages.refl hc).congr (by simp) (by simp)
  written h := absurd rfl h

theorem put (h : Stored c c' t schema id catalog keyed done)
    (hput : RowPut c'.view c''.view schema id catalog (readUniqueIndexes c'.view t) p key row)
    (hstages : Stages c' c'' (fun k => keyed = true ∧ FreshRow c'.view id p k)
      (RowCheck schema (readUniqueIndexes c'.view t) t id key row)) (hwritten : Written c'') :
    Stored c c'' t schema id catalog keyed (done ++ [(key, row)]) := by
  constructor
  · exact h.table.of_other hput.other
  · exact (hput.uniqueIndexes t).trans h.unique
  · intro q
    by_cases hq : q = p
    · subst hq
      rw [hput.stored]
      constructor
      · exact fun hnone => absurd hnone (by simp)
      · exact fun hfree => absurd hput.bytes (hfree.2 (key, row) (by simp))
    · have hrow : readRow c''.view id q = readRow c'.view id q :=
        hput.other (.row id q) (fun heq => hq (StorageKey.row.inj heq).2) (by simp)
      have hbytes : keyBytes key ≠ .ok q := by
        intro heq
        exact hq (Except.ok.inj (heq.symm.trans hput.bytes))
      rw [hrow, h.free q]
      simp [or_imp, forall_and, hbytes]
  · apply (h.staged.trans hstages).congr
    · intro k
      constructor
      · rintro (⟨q, hq, hfresh⟩ | ⟨hkeyed, rfl, hnone⟩)
        · exact ⟨q, List.mem_append_left _ hq, hfresh⟩
        · exact ⟨(key, row), by simp, hkeyed, p, hput.bytes, rfl, ((h.free p).mp hnone).1⟩
      · intro ⟨q, hq, hkeyed, p', hp', hfresh⟩
        rcases List.mem_append.mp hq with hq | hq
        · exact Or.inl ⟨q, hq, hkeyed, p', hp', hfresh⟩
        · -- the row itself: its key is new unless an earlier row has it
          obtain rfl := List.mem_singleton.mp hq
          obtain rfl : p = p' := Except.ok.inj (hput.bytes.symm.trans hp')
          obtain ⟨rfl, hnone⟩ := hfresh
          by_cases hdone : ∃ q ∈ done, keyBytes q.1 = .ok p
          · obtain ⟨q, hq, hbytes⟩ := hdone
            exact Or.inl ⟨q, hq, hkeyed, p, hbytes, rfl, hnone⟩
          · have hfree := (h.free p).mpr ⟨hnone, fun q hq hbytes => hdone ⟨q, hq, hbytes⟩⟩
            exact Or.inr ⟨hkeyed, rfl, hfree⟩
    · intro ch
      rw [h.unique]
      simp [or_and_right, exists_or]
  · exact fun _ => hwritten

theorem insertRow (h : Stored c c' t schema id catalog true done) (key : G.Key)
    (row : DataRow G.Value) :
    Holds (insertRow t id catalog key row) c'
      (fun _ c'' => Stored c c'' t schema id catalog true (done ++ [(key, row)]))
      fun _ _ => True := by
  apply ((insertRow_put h.staged.isSome h.table rfl).and insertRow_written).mono
  · intro _ c'' ⟨⟨p, hput, hstages⟩, hwritten⟩
    exact h.put hput (hstages.congr (fun _ => by simp) fun _ => Iff.rfl) hwritten
  · exact fun _ _ _ => trivial

theorem appendRow (h : Stored c c' t schema id catalog false done) (m : ℤ)
    (row : DataRow G.Value) :
    Holds (appendRow t id catalog m row) c'
      (fun _ c'' => Stored c c'' t schema id catalog false (done ++ [(G.i64 m, row)]))
      fun _ _ => True := by
  apply ((appendRow_put h.staged.isSome h.table rfl).and appendRow_written).mono
  · intro _ c'' ⟨⟨p, hput, hstages⟩, hwritten⟩
    exact h.put hput (hstages.congr (fun _ => by simp) fun _ => Iff.rfl) hwritten
  · exact fun _ _ _ => trivial

end Stored

theorem insertStmt_stored (hc : c.txn.isSome = true) (hat : TableAt c.view t schema id catalog)
    (rows : List (DataRow G.Value)) :
    Holds (insertStmt t rows) c
      (fun _ c' => Stored c c' t schema id catalog ((Stmt.insert t rows).keyed schema)
        (insertedRows c t schema id rows)) fun _ _ => True := by
  apply insertStmt_rule
    (J := fun done c' => Stored c c' t schema id catalog ((Stmt.insert t rows).keyed schema) done)
    hat (Stored.start hc hat)
  · intro done key row c' hins h
    obtain ⟨i, hpk, _⟩ := hins.primary
    have hkeyed : (Stmt.insert t rows).keyed schema = true := by rw [Stmt.keyed, hpk]; rfl
    rw [hkeyed] at h ⊢
    exact h.insertRow key row
  · intro done m row c' happ h
    have hkeyed : (Stmt.insert t rows).keyed schema = false := by rw [Stmt.keyed, happ.keyless]; rfl
    rw [hkeyed] at h ⊢
    exact h.appendRow m row
  · exact fun _ _ => trivial

theorem updateStmt_stored (hc : c.txn.isSome = true) (hat : TableAt c.view t schema id catalog)
    (assign : G.Key × DataRow G.Value → Option (DataRow G.Value)) :
    Holds (updateStmt t assign) c
      (fun _ c' => Stored c c' t schema id catalog true
        (changedRows assign (logicalRows c.view catalog (scanTable c.view id)))) fun _ _ => True :=
  updateStmt_rule (J := fun done c' => Stored c c' t schema id catalog true done) hat
    (Stored.start hc hat c.seq) (fun _ key row _ _ h => h.insertRow key row) fun _ _ => trivial

/-- A staged check fails against the committed store. -/
def Conflict (c : Conn G) : Prop :=
  ∃ x ∈ c.txn, (∃ k ∈ x.uniqueChecks, (c.live.get k).isSome = true) ∨
    ∃ ch ∈ x.uniqueIndexChecks, violates c.live ch = true

theorem violates_iff {live : Store G} {n : Name} {v : List UInt8} :
    violates live ⟨t, n, indexValuePrefix id n v, key⟩ = true ↔
      ∃ p k, readEntry live id n v p = some k ∧ k ≠ key := by
  change (owners live id n v).any (· ≠ key) = true ↔ _
  rw [List.any_eq_true]
  simp only [decide_eq_true_iff, mem_owners]
  constructor
  · intro ⟨k, ⟨p, hk⟩, hne⟩
    exact ⟨p, k, hk, hne⟩
  · intro ⟨p, k, hk, hne⟩
    exact ⟨k, ⟨p, hk⟩, hne⟩

theorem Stages.conflict {keys : StorageKey → Prop} {checks : UniqueIndexCheck G → Prop}
    (h : Stages c c' keys checks) (hlive : c'.live = c.live) :
    Conflict c' ↔ Conflict c ∨ (∃ k, keys k ∧ (c.live.get k).isSome = true) ∨
      ∃ ch, checks ch ∧ violates c.live ch = true := by
  obtain ⟨x, hx, x', hx', hk, hch⟩ := h
  have hold : Conflict c ↔ (∃ k ∈ x.uniqueChecks, (c.live.get k).isSome = true) ∨
      ∃ ch ∈ x.uniqueIndexChecks, violates c.live ch = true := by
    constructor
    · intro ⟨y, hy, hconflict⟩
      obtain rfl : x = y := Option.some.inj (hx.symm.trans hy)
      exact hconflict
    · exact fun hconflict => ⟨x, hx, hconflict⟩
  have hnew : Conflict c' ↔ (∃ k ∈ x'.uniqueChecks, (c.live.get k).isSome = true) ∨
      ∃ ch ∈ x'.uniqueIndexChecks, violates c.live ch = true := by
    unfold Conflict
    rw [hlive]
    constructor
    · intro ⟨y, hy, hconflict⟩
      obtain rfl : x' = y := Option.some.inj (hx'.symm.trans hy)
      exact hconflict
    · exact fun hconflict => ⟨x', hx', hconflict⟩
  rw [hold, hnew]
  simp only [hk, hch, or_and_right, exists_or]
  exact or_or_or_comm

/-- The checks of a statement fail when its rows are taken. -/
theorem Stored.conflict {keyed : Bool} {done : List (G.Key × DataRow G.Value)}
    (h : Stored c c' t schema id catalog keyed done) (hlive : c'.live = c.live) :
    Conflict c' ↔ Conflict c ∨ ∃ q ∈ done,
      keyed = true ∧ KeyTaken c id q.1 ∨ ValueTaken c schema t id q.1 q.2 := by
  rw [h.staged.conflict hlive]
  apply or_congr_right
  constructor
  · rintro (⟨k, ⟨q, hq, hkeyed, p, hp, rfl, hnone⟩, hsome⟩ | ⟨ch, ⟨q, hq, hcheck⟩, hviolates⟩)
    · exact ⟨q, hq, Or.inl ⟨hkeyed, p, hp, hnone, hsome⟩⟩
    · obtain ⟨n, value, v, hvalue, hv, rfl⟩ := hcheck
      exact ⟨q, hq, Or.inr ⟨n, value, v, hvalue, hv, violates_iff.mp hviolates⟩⟩
  · rintro ⟨q, hq, ⟨hkeyed, p, hp, hnone, hsome⟩ | ⟨n, value, v, hvalue, hv, howner⟩⟩
    · exact Or.inl ⟨.row id p, ⟨q, hq, hkeyed, p, hp, rfl, hnone⟩, hsome⟩
    · exact Or.inr ⟨⟨t, n, indexValuePrefix id n v, q.1⟩, ⟨q, hq, n, value, v, hvalue, hv, rfl⟩,
        violates_iff.mpr howner⟩

/-- INSERT, UPDATE and DELETE. -/
def Stmt.IsDml : Stmt G → Prop
  | .insert _ _ => True
  | .update _ _ => True
  | .delete _ _ => True
  | _ => False

theorem Written.extends (h : Written c) (hext : Extends c c') : Written c' := by
  obtain ⟨x, hx, x', hx', -, ws, hover⟩ := hext.txn
  intro y hy
  obtain rfl : x' = y := Option.some.inj (hx'.symm.trans hy)
  rw [hover]
  exact List.append_ne_nil_of_left_ne_nil (h x hx) ws

/-- What a statement adds to the conflicts of its transaction. -/
structure Conflicts (c c' : Conn G) (stmt : Stmt G) : Prop where
  iff : Conflict c' ↔ Conflict c ∨ Taken c stmt
  written : Taken c stmt → Written c'

theorem not_taken_of_no_id (stmt : Stmt G) (ht : stmt.target = some t)
    (hid : resolveTableId c.view t = none) : ¬Taken c stmt := by
  intro ⟨t', ht', _, _, id, hid', _⟩
  obtain rfl : t = t' := Option.some.inj (ht.symm.trans ht')
  rw [hid] at hid'
  cases hid'

theorem not_taken_of_no_target {stmt : Stmt G} (ht : stmt.target = none) : ¬Taken c stmt := by
  intro ⟨t, ht', _⟩
  rw [ht] at ht'
  cases ht'

theorem taken_iff (stmt : Stmt G) (ht : stmt.target = some t)
    (hat : TableAt c.view t schema id catalog) : Taken c stmt ↔
      ∃ q ∈ storedRows c t schema id stmt,
        stmt.keyed schema = true ∧ KeyTaken c id q.1 ∨ ValueTaken c schema t id q.1 q.2 := by
  constructor
  · intro ⟨t', ht', schema', hschema, id', hid, htaken⟩
    obtain rfl : t = t' := Option.some.inj (ht.symm.trans ht')
    obtain rfl : schema = schema' := Option.some.inj (hat.schema.symm.trans hschema)
    obtain rfl : id = id' := Option.some.inj (hat.id.symm.trans hid)
    exact htaken
  · exact fun htaken => ⟨t, ht, schema, hat.schema, id, hat.id, htaken⟩

theorem Stored.conflicts {keyed : Bool} {done : List (G.Key × DataRow G.Value)} {stmt : Stmt G}
    (h : Stored c c' t schema id catalog keyed done) (hlive : c'.live = c.live)
    (ht : stmt.target = some t) (hat : TableAt c.view t schema id catalog)
    (hkeyed : stmt.keyed schema = keyed) (hdone : storedRows c t schema id stmt = done) :
    Conflicts c c' stmt := by
  have htaken := taken_iff stmt ht hat
  rw [hkeyed, hdone] at htaken
  constructor
  · rw [h.conflict hlive, htaken]
  · intro h'
    obtain ⟨q, hq, _⟩ := htaken.mp h'
    exact h.written (List.ne_nil_of_mem hq)

theorem insertStmt_no_id (hid : resolveTableId c.view t = none) (rows : List (DataRow G.Value)) :
    Holds (insertStmt t rows) c (fun _ c' => c' = c) fun _ _ => True := by
  have htable : tableId c.view t = .error (.noStableId t) := by rw [tableId, hid]
  unfold insertStmt
  rw [Holds.bind_iff, Holds.get_iff]
  dsimp only
  rw [Holds.bind_iff]
  apply holds_getSchema
  · intro schema _
    rw [Holds.bind_iff]
    apply holds_checkRows
    · intro _
      cases primaryKeyIndex schema with
      | some i =>
        dsimp only
        rw [Holds.bind_iff]
        apply holds_ofExcept
        · intro keys _
          rw [Holds.bind_iff]
          apply holds_ofExcept
          · intro _ _
            unfold insertData
            rw [Holds.bind_iff, Holds.get_iff]
            dsimp only
            rw [htable]
            trivial
          · exact fun _ _ => trivial
        · exact fun _ _ => trivial
      | none =>
        dsimp only
        unfold appendData
        split_ifs with hnil
        · rfl
        · rw [Holds.bind_iff]
          unfold allocateKeys
          rw [Holds.bind_iff, Holds.get_iff]
          dsimp only
          rw [htable]
          trivial
    · trivial
  · trivial

theorem deleteStmt_stages (hc : c.txn.isSome = true) (hat : TableAt c.view t schema id catalog)
    (selects : G.Key × DataRow G.Value → Bool) :
    Holds (deleteStmt t selects) c (fun _ c' => Stages c c' (fun _ => False) fun _ => False)
      fun _ _ => True := by
  have hrule : Holds (deleteStmt t selects) c (fun _ c' => TableAt c'.view t schema id catalog ∧
      Stages c c' (fun _ => False) fun _ => False) fun _ _ => True := by
    apply deleteStmt_rule (J := fun _ c' => TableAt c'.view t schema id catalog ∧
      Stages c c' (fun _ => False) fun _ => False) hat ⟨hat, Stages.refl hc⟩
    · intro _ key c' ⟨hat', hstages⟩
      apply (deleteRow_gone hstages.isSome hat').mono
      · intro _ c'' ⟨p, _, hgone, hstages'⟩
        constructor
        · exact hat'.of_other hgone.other
        · exact (hstages.trans hstages').congr (fun _ => or_self_iff) fun _ => or_self_iff
      · exact fun _ _ _ => trivial
    · exact fun _ _ => trivial
  exact hrule.mono (fun _ _ h => h.2) fun _ _ h => h

theorem holds_scan {f : Schema G → List (G.Key × DataRow G.Value) → Exec G Unit}
    {post : Unit → Conn G → Prop}
    (h : ∀ schema id catalog, TableAt c.view t schema id catalog →
      Holds (ofExcept (getSchema c.view t) >>= fun schema =>
        ofExcept (scanData c.view t) >>= f schema) c post fun _ _ => True) :
    Holds (ofExcept (getSchema c.view t) >>= fun schema =>
      ofExcept (scanData c.view t) >>= f schema) c post fun _ _ => True := by
  cases hschema : readSchema c.view t with
  | none =>
    unfold getSchema
    rw [hschema]
    trivial
  | some schema =>
    cases hid : resolveTableId c.view t with
    | none =>
      unfold getSchema scanData collectRows tableId
      rw [hschema, hid]
      trivial
    | some id => exact h schema id _ ⟨hschema, hid, rfl⟩

theorem conflicts_of_none {stmt : Stmt G} (htaken : ¬Taken c stmt)
    (hsame : Conflict c' ↔ Conflict c) : Conflicts c c' stmt :=
  ⟨hsame.trans (or_iff_left htaken).symm, fun h => absurd h htaken⟩

theorem runStmt_conflicts (hc : c.txn.isSome = true) (stmt : Stmt G) (hdml : stmt.IsDml) :
    Holds (runStmt stmt) c (fun _ c' => Conflicts c c' stmt ∧ Extends c c') fun _ _ => True := by
  have hext : Holds (runStmt stmt) c (fun _ c' => Extends c c') fun _ _ => True :=
    ((runStmt_grows stmt).holds c).mono (fun _ _ h => h hc) fun _ _ _ => trivial
  suffices hconflicts : Holds (runStmt stmt) c (fun _ c' => Extends c c' → Conflicts c c' stmt)
      fun _ _ => True by
    exact (hconflicts.and hext).mono (fun _ _ h => ⟨h.1 h.2, h.2⟩) fun _ _ _ => trivial
  cases stmt with
  | insert t rows =>
    change Holds (insertStmt t rows) c _ _
    cases hid : resolveTableId c.view t with
    | none =>
      apply (insertStmt_no_id hid rows).mono
      · intro _ c' hsame _
        rw [hsame]
        exact conflicts_of_none (not_taken_of_no_id _ rfl hid) Iff.rfl
      · exact fun _ _ h => h
    | some id =>
      cases hschema : readSchema c.view t with
      | none =>
        unfold insertStmt getSchema
        rw [Holds.bind_iff, Holds.get_iff]
        dsimp only
        rw [hschema]
        trivial
      | some schema =>
        have hat : TableAt c.view t schema id (readCatalog c.view t) := ⟨hschema, hid, rfl⟩
        apply (insertStmt_stored hc hat rows).mono
        · intro _ c' h hext'
          exact h.conflicts hext'.live rfl hat rfl rfl
        · exact fun _ _ h => h
  | update t assign =>
    apply holds_scan
    intro schema id catalog hat
    apply (updateStmt_stored hc hat assign).mono
    · intro _ c' h hext'
      apply h.conflicts hext'.live rfl hat rfl
      rw [← hat.catalog]
      rfl
    · exact fun _ _ h => h
  | delete t selects =>
    apply holds_scan
    intro schema id catalog hat
    apply (deleteStmt_stages hc hat selects).mono
    · intro _ c' h hext'
      apply conflicts_of_none (not_taken_of_no_target rfl)
      rw [h.conflict hext'.live]
      simp
    · exact fun _ _ h => h
  | createTable t columns | dropTable t | createIndex t index expr asc | dropIndex t index
  | addColumn t column | dropColumn t column ifExists | renameColumn t old new
  | renameTable t new => exact hdml.elim

/-- The statements return one after the other. -/
def Succeed : Conn G → List (Stmt G) → Prop
  | _, [] => True
  | c, stmt :: rest => failure c (.exec stmt) = none ∧ Succeed (step c (.exec stmt)) rest

instance Succeed.decidable : (c : Conn G) → (stmts : List (Stmt G)) → Decidable (Succeed c stmts)
  | _, [] => isTrue trivial
  | c, stmt :: rest =>
    have := decidable (step c (.exec stmt)) rest
    inferInstanceAs (Decidable (_ ∧ _))

theorem step_conflicts (hc : c.txn.isSome = true) {stmt : Stmt G} (hdml : stmt.IsDml)
    (hok : failure c (.exec stmt) = none) :
    Conflicts c (step c (.exec stmt)) stmt ∧ Extends c (step c (.exec stmt)) := by
  have hrun := runStmt_conflicts hc stmt hdml
  have hexec : execute (.exec stmt) c = runStmt stmt c := if_pos hc
  unfold failure at hok
  unfold step
  rw [hexec] at hok ⊢
  unfold Holds at hrun
  cases hx : runStmt stmt c with
  | ok _ c' =>
    rw [hx] at hrun
    exact hrun
  | error e c' =>
    rw [hx] at hok
    cases hok

/-- A transaction and what its statements have made of it. -/
structure Outcome (c c' : Conn G) (stmts : List (Stmt G)) : Prop where
  conflict : Conflict c' ↔ Conflict c ∨ ¬Undisturbed c stmts
  written : ¬Undisturbed c stmts → Written c'
  ext : Extends c c'

theorem run_conflicts (hc : c.txn.isSome = true) {stmts : List (Stmt G)}
    (hdml : ∀ stmt ∈ stmts, stmt.IsDml) (hok : Succeed c stmts) :
    Outcome c (run c (stmts.map Op.exec)) stmts := by
  induction stmts generalizing c with
  | nil =>
    constructor
    · exact (or_iff_left (not_not.mpr trivial)).symm
    · exact fun h => absurd trivial h
    · exact Extends.refl hc
  | cons stmt rest ih =>
    obtain ⟨hstep, hext⟩ := step_conflicts hc (hdml stmt (by simp)) hok.1
    have hrest := ih hext.isSome (fun stmt' h => hdml stmt' (List.mem_cons_of_mem _ h)) hok.2
    have hsplit : ¬Undisturbed c (stmt :: rest) ↔
        Taken c stmt ∨ ¬Undisturbed (step c (.exec stmt)) rest := by
      change ¬(¬Taken c stmt ∧ Undisturbed (step c (.exec stmt)) rest) ↔ _
      rw [not_and_or, not_not]
    constructor
    · rw [hsplit, ← or_assoc, ← hstep.iff]
      exact hrest.conflict
    · intro h
      rcases hsplit.mp h with htaken | h
      · exact (hstep.written htaken).extends hrest.ext
      · exact hrest.written h
    · exact hext.trans hrest.ext

theorem recheck_error_iff {live : Store G} {x : Txn G} :
    (∃ e, recheck live x = .error e) ↔ (∃ k ∈ x.uniqueChecks, (live.get k).isSome = true) ∨
      ∃ ch ∈ x.uniqueIndexChecks, violates live ch = true := by
  unfold recheck
  cases hkey : x.uniqueChecks.find? fun k => (live.get k).isSome with
  | some k =>
    have hfound := List.find?_some hkey
    exact iff_of_true ⟨_, rfl⟩ (Or.inl ⟨k, List.mem_of_find?_eq_some hkey, hfound⟩)
  | none =>
    have hkeys : ¬∃ k ∈ x.uniqueChecks, (live.get k).isSome = true := by
      intro ⟨k, hk, hsome⟩
      exact List.find?_eq_none.mp hkey k hk hsome
    rw [or_iff_right hkeys]
    dsimp only
    cases hcheck : x.uniqueIndexChecks.find? (violates live) with
    | some ch =>
      exact iff_of_true ⟨_, rfl⟩ ⟨ch, List.mem_of_find?_eq_some hcheck, List.find?_some hcheck⟩
    | none =>
      apply iff_of_false
      · intro ⟨e, he⟩
        cases he
      · intro ⟨ch, hch, hviolates⟩
        exact List.find?_eq_none.mp hcheck ch hch hviolates

theorem recheck_isUniqueViolation {live : Store G} {x : Txn G} {e : Error G}
    (h : recheck live x = .error e) : e.IsUniqueViolation := by
  unfold recheck at h
  split at h
  · rw [← Except.error.inj h]
    trivial
  · split at h
    · rw [← Except.error.inj h]
      trivial
    · cases h

theorem commit_violates_iff (hc : c.txn.isSome = true) (hwritten : Conflict c → Written c) :
    (∃ e c', commit c = .error e c' ∧ e.IsUniqueViolation) ↔ Conflict c := by
  obtain ⟨x, hx⟩ := Option.isSome_iff_exists.mp hc
  have hconflict : Conflict c ↔ ∃ e, recheck c.live x = .error e := by
    rw [recheck_error_iff]
    constructor
    · intro ⟨y, hy, h⟩
      obtain rfl : x = y := Option.some.inj (hx.symm.trans hy)
      exact h
    · exact fun h => ⟨x, hx, h⟩
  unfold commit
  rw [hx]
  dsimp only
  constructor
  · intro ⟨e, c', herror, _⟩
    split_ifs at herror
    cases hcheck : recheck c.live x with
    | error e' => exact hconflict.mpr ⟨e', hcheck⟩
    | ok _ =>
      rw [hcheck] at herror
      cases herror
  · intro h
    obtain ⟨e, he⟩ := hconflict.mp h
    rw [if_neg (hwritten h x hx), he]
    exact ⟨e, _, rfl, recheck_isUniqueViolation he⟩

/-- The commit of a transaction that ran alone fails with no violation exactly when
none of its rows was stored under a key or with a unique value that was taken. -/
theorem commit_alone_iff (hidle : c.txn = none) {stmts : List (Stmt G)}
    (hdml : ∀ stmt ∈ stmts, stmt.IsDml) (hok : Succeed c.openTxn stmts) :
    (∀ e c', commit (run c (.begin :: stmts.map Op.exec)) = .error e c' → ¬e.IsUniqueViolation) ↔
      Undisturbed c.openTxn stmts := by
  have hbegin : run c (.begin :: stmts.map Op.exec) = run c.openTxn (stmts.map Op.exec) := by
    change run (step c .begin) _ = _
    have hstep : step c .begin = c.openTxn := by
      unfold step
      change (if c.txn.isSome then c else c.openTxn) = c.openTxn
      rw [hidle]
      rfl
    rw [hstep]
  have hrun := run_conflicts (c := c.openTxn) rfl hdml hok
  have hfresh : ¬Conflict c.openTxn := by
    intro ⟨x, hx, h⟩
    rw [← Option.some.inj hx] at h
    simp at h
  have hconflict := hrun.conflict.trans (or_iff_right hfresh)
  rw [hbegin, ← not_iff_not, ← hconflict,
    ← commit_violates_iff hrun.ext.isSome fun h => hrun.written (hconflict.mp h)]
  simp only [not_forall, not_not, exists_prop]

namespace Ints

def uniqueRow : Conn engine :=
  run (Conn.init false 0)
    [.exec createTable, .declareUnique Ints.t x, .exec createIndex, .exec (insert [1, 10])]

/-- `UPDATE t SET a = n`. -/
def updateA (n : ℤ) : Stmt engine :=
  .update Ints.t fun
    | (_, .vec (key :: _)) => some (.vec [key, .int n])
    | _ => none

/-- `DELETE FROM t`. -/
def deleteRows : Stmt engine := .delete Ints.t fun _ => true

end Ints

theorem commit_alone_other :
    Undisturbed Ints.uniqueRow.openTxn [Ints.deleteRows, Ints.insert [2, 20], Ints.updateA 30] ∧
      failure (run Ints.uniqueRow (.begin :: [Ints.deleteRows, Ints.insert [2, 20],
        Ints.updateA 30].map Op.exec)) .commit = none := by
  have hcommit : failure (run Ints.uniqueRow (.begin :: [Ints.deleteRows, Ints.insert [2, 20],
      Ints.updateA 30].map Op.exec)) .commit = none := by decide +kernel
  refine ⟨(commit_alone_iff (by decide +kernel) ?_ (by decide +kernel)).mp ?_, hcommit⟩
  · simp [Ints.deleteRows, Ints.insert, Ints.updateA, Stmt.IsDml]
  · intro e c' herror
    unfold failure at hcommit
    rw [show execute .commit = commit (G := Ints.engine) from rfl, herror] at hcommit
    cases hcommit

/-- The row is deleted and inserted again; its value is moved to a new row. -/
theorem commit_alone_fails :
    (Succeed Ints.uniqueRow.openTxn [Ints.deleteRows, Ints.insert [1, 10]] ∧
      failure (run Ints.uniqueRow (.begin :: [Ints.deleteRows, Ints.insert [1, 10]].map Op.exec))
        .commit = some (.uniqueViolation (.rowExists
          (StorageKey.row 1 (Ints.toCmpBeBytes (.i64 1))).encode))) ∧
    (Succeed Ints.uniqueRow.openTxn [Ints.updateA 20, Ints.insert [2, 10]] ∧
      failure (run Ints.uniqueRow (.begin :: [Ints.updateA 20, Ints.insert [2, 10]].map Op.exec))
        .commit = some (.uniqueViolation (.duplicateAtCommit Ints.x Ints.t))) := by
  decide +kernel

end BlueDB.Sql
