import BlueDB.Sql.RowSteps

/-!
# Statements as steps

A statement is put together from a few steps: writes beside the registry of
unique indexes, index entries, staged checks, allocated keys. Whatever these
steps keep a statement keeps, whether it returns or fails.
-/

namespace BlueDB.Sql

variable {G : Engine} {α β : Type}

theorem getSchema_plain (s : Store G) (t : Name) : Plain (getSchema s t) := by
  unfold getSchema
  split
  · exact Plain.ok _
  · exact Plain.error not_false

theorem collectRows_plain (s : Store G) (t : Name) : Plain (collectRows s t) := by
  unfold collectRows
  apply Plain.bind (tableId_plain s t)
  intro id
  exact Plain.ok _

theorem enforce_plain (schema : Schema G) : Plain (enforce schema) := by
  unfold enforce
  split
  · exact Plain.error not_false
  · split_ifs with hprimary
    · exact Plain.ok ()
    · exact Plain.error not_false

theorem nextTableId_plain (last : Option UInt64) :
    Plain (nextTableId last : Except (Error G) _) := by
  unfold nextTableId
  split
  · exact Plain.ok _
  · split_ifs with hlimit
    · exact Plain.ok _
    · exact Plain.error not_false

theorem fillValue_plain (column : ColumnDef G) : Plain (fillValue column) := by
  unfold fillValue
  split
  · exact Plain.mapError fun _ => not_false
  · exact Plain.ok _
  · exact Plain.error not_false

/-- A write that a statement makes beside the registry of unique indexes: a row is
stored under the bytes of its key. -/
structure Placed (w : Write (StorageKey.Value G)) : Prop where
  registry : ∀ t, w.key ≠ .uniqueidx t
  row : ∀ id p (st : StoredRow G), w = .put (.row id p) st → keyBytes st.key = .ok p

/-- What the steps of a statement keep, when rows are stored in the tables `T` only. -/
structure Stepwise (T : Name → Prop) (R : Conn G → Conn G → Prop)
    (F : Error G → Conn G → Conn G → Prop) : Prop where
  tracks : Tracks R F
  write : ∀ c w, Placed w → R c (c.write w)
  forget : ∀ t i, Along R F (forgetUniqueIndex t i)
  entries : ∀ t pk row insert, (insert = true → T t) → Along R F (applyIndexEntries t pk row insert)
  stage : ∀ k, Along R F (stageUniqueCheck k)
  allocate : ∀ t n, Along R F (allocateKeys t n)
  error : ∀ e c, ¬e.IsUniqueViolation → F e c c

namespace Stepwise

variable {T : Name → Prop} {R : Conn G → Conn G → Prop} {F : Error G → Conn G → Conn G → Prop}

section Parts

variable (h : Stepwise T R F)
include h

theorem bind {x : Exec G α} {f : α → Exec G β} (hx : Along R F x) (hf : ∀ a, Along R F (f a)) :
    Along R F (x >>= f) := Along.bind h.tracks hx hf

theorem pure (a : α) : Along R F (pure a : Exec G α) := Along.pure h.tracks a

theorem get : Along R F (get : Exec G (Conn G)) := Along.get h.tracks

theorem throw {e : Error G} (he : ¬e.IsUniqueViolation) : Along R F (throw e : Exec G α) :=
  Along.throw fun c => h.error e c he

theorem except {x : Except (Error G) α} (hx : Plain x) : Along R F (ofExcept x) :=
  Along.ofExcept h.tracks fun e he c => h.error e c (hx e he)

theorem forM {f : α → Exec G Unit} (l : List α) (hf : ∀ a ∈ l, Along R F (f a)) :
    Along R F (l.forM f) := Along.forM h.tracks l hf

theorem exceptBind {x : Except (Error G) α} {f : α → Exec G β} (hx : Plain x)
    (hf : ∀ a, x = .ok a → Along R F (f a)) : Along R F (ofExcept x >>= f) := by
  cases x with
  | ok a => exact hf a rfl
  | error e => exact h.throw (hx e rfl)

theorem writeKey {k : StorageKey} (v : k.Value G)
    (hk : (∀ t, k ≠ .uniqueidx t) ∧ ∀ id p, k ≠ .row id p) : Along R F (writeKey k v) := by
  apply Along.modify
  intro c
  exact h.write c _ ⟨hk.1, fun id p _ heq => absurd (congrArg Write.key heq) (hk.2 id p)⟩

theorem deleteKey {k : StorageKey} (hk : ∀ t, k ≠ .uniqueidx t) :
    Along R F (deleteKey k : Exec G Unit) := by
  apply Along.modify
  intro c
  refine h.write c _ ⟨hk, fun id p st heq => ?_⟩
  obtain rfl : k = .row id p := congrArg Write.key heq
  exact absurd (eq_of_heq (Write.mk.inj heq).2) (by simp)

theorem putRow {t : Name} (ht : T t) (id : UInt64) (catalog : Option (ColumnCatalog G))
    {bytes : List UInt8} {key : G.Key} (hbytes : keyBytes key = .ok bytes)
    (row : DataRow G.Value) : Along R F (putRow t id catalog bytes key row) := by
  unfold Sql.putRow
  apply h.bind (h.entries t key row true fun _ => ht)
  intro _
  apply Along.modify
  intro c
  refine h.write c _ ⟨by simp, fun id' p st heq => ?_⟩
  obtain ⟨rfl, rfl⟩ := StorageKey.row.inj (congrArg Write.key heq)
  obtain ⟨-, hvalue⟩ := Write.mk.inj heq
  obtain rfl : _ = st := Option.some.inj (eq_of_heq hvalue)
  exact hbytes

theorem appendRows {t : Name} (ht : T t) (id : UInt64) (catalog : Option (ColumnCatalog G))
    (next : ℤ) (rows : List (DataRow G.Value)) : Along R F (appendRows t id catalog next rows) := by
  induction rows generalizing next with
  | nil => exact h.pure _
  | cons row rows ih =>
    unfold Sql.appendRows
    apply h.bind
    · unfold appendRow
      apply h.exceptBind (keyBytes_plain _)
      intro bytes hbytes
      exact h.putRow ht _ _ hbytes _
    · intro _
      exact ih _

theorem insertRow {t : Name} (ht : T t) (id : UInt64) (catalog : Option (ColumnCatalog G))
    (key : G.Key) (row : DataRow G.Value) : Along R F (insertRow t id catalog key row) := by
  unfold Sql.insertRow
  apply h.exceptBind (keyBytes_plain _)
  intro bytes hbytes
  apply h.bind
  · unfold retireRow
    apply h.bind h.get
    intro c
    split
    · exact h.entries t _ _ false (by simp)
    · exact h.stage _
  · intro _
    exact h.putRow ht _ _ hbytes _

theorem insertData {t : Name} (ht : T t) (rows : List (G.Key × DataRow G.Value)) :
    Along R F (insertData t rows) := by
  unfold Sql.insertData
  apply h.bind h.get
  intro c
  apply h.bind (h.except (tableId_plain _ _))
  intro id
  apply h.forM
  intro q _
  exact h.insertRow ht ..

theorem checkRows (t : Name) (schema : Schema G) (rows : List (DataRow G.Value)) :
    Along R F (checkRows t schema rows) := by
  unfold Sql.checkRows
  split_ifs with hfits
  · exact h.pure _
  · exact h.throw not_false

theorem insertStmt {t : Name} (ht : T t) (rows : List (DataRow G.Value)) :
    Along R F (insertStmt t rows) := by
  unfold Sql.insertStmt
  apply h.bind h.get
  intro c
  apply h.bind (h.except (getSchema_plain _ _))
  intro schema
  apply h.bind (h.checkRows ..)
  intro _
  split
  · apply h.bind (h.except (Plain.mapM (rowPrimaryKey_plain _ _) _))
    intro keys
    apply h.bind (h.except (checkFresh_plain _ _ _))
    intro _
    exact h.insertData ht _
  · unfold appendData
    split_ifs with hnil
    · exact h.pure _
    · apply h.bind (h.allocate ..)
      intro next
      apply h.bind h.get
      intro c
      apply h.bind (h.except (tableId_plain _ _))
      intro id
      exact h.appendRows ht ..

theorem updateStmt {t : Name} (ht : T t)
    (assign : G.Key × DataRow G.Value → Option (DataRow G.Value)) :
    Along R F (updateStmt t assign) := by
  unfold Sql.updateStmt
  apply h.bind h.get
  intro c
  apply h.bind (h.except (getSchema_plain _ _))
  intro schema
  apply h.bind (h.except (collectRows_plain _ _))
  intro rows
  apply h.bind (h.checkRows ..)
  intro _
  exact h.insertData ht _

theorem deleteRow (t : Name) (id : UInt64) (catalog : Option (ColumnCatalog G)) (key : G.Key) :
    Along R F (deleteRow t id catalog key) := by
  unfold Sql.deleteRow
  apply h.bind (h.except (keyBytes_plain _))
  intro bytes
  apply h.bind
  · unfold removeEntries
    apply h.bind h.get
    intro c
    split
    · exact h.entries t _ _ false (by simp)
    · exact h.pure _
  · intro _
    exact h.deleteKey (by simp)

theorem deleteStmt (t : Name) (selects : G.Key × DataRow G.Value → Bool) :
    Along R F (deleteStmt t selects) := by
  unfold Sql.deleteStmt
  apply h.bind h.get
  intro c
  apply h.bind (h.except (getSchema_plain _ _))
  intro _
  apply h.bind (h.except (collectRows_plain _ _))
  intro rows
  unfold deleteData
  apply h.bind h.get
  intro c
  apply h.bind (h.except (tableId_plain _ _))
  intro id
  apply h.forM
  intro key _
  exact h.deleteRow ..

theorem insertSchema (schema : Schema G) : Along R F (insertSchema schema) := by
  unfold Sql.insertSchema
  apply h.bind
  · unfold enforceStrict
    apply h.bind h.get
    intro c
    split_ifs with hstrict
    · exact h.except (enforce_plain _)
    · exact h.pure _
  · intro _
    apply h.bind
    · unfold ensureTableId
      apply h.bind h.get
      intro c
      dsimp only
      split
      · exact h.pure _
      · apply h.bind (h.except (nextTableId_plain _))
        intro next
        apply h.bind (h.writeKey _ (by simp))
        intro _
        apply h.bind (h.writeKey _ (by simp))
        intro _
        exact h.pure _
    · intro _
      apply h.bind (h.writeKey _ (by simp))
      intro _
      unfold stampMetadata
      apply h.bind h.get
      intro c
      split_ifs with hstamped
      · exact h.writeKey _ (by simp)
      · exact h.pure _

theorem createTableStmt (t : Name) (columns : Option (List (ColumnDef G))) :
    Along R F (createTableStmt t columns) := by
  unfold Sql.createTableStmt
  apply h.bind h.get
  intro c
  split_ifs with hexists hnodup
  · exact h.throw not_false
  · exact h.insertSchema _
  · exact h.throw not_false

theorem dropTableStmt (t : Name) : Along R F (dropTableStmt t : Exec G Unit) := by
  unfold Sql.dropTableStmt deleteSchema
  apply h.bind h.get
  intro c
  apply h.bind (h.except (getSchema_plain _ _))
  intro _
  apply h.bind h.get
  intro c
  apply h.bind (h.except (tableId_plain _ _))
  intro id
  apply h.bind (h.except (collectRows_plain _ _))
  intro rows
  apply h.bind
  · apply h.forM
    intro q _
    exact h.entries t _ _ false (by simp)
  · intro _
    apply h.bind
    · apply h.forM
      intro q _
      unfold deleteRowKey
      apply h.bind (h.except (keyBytes_plain _))
      intro bytes
      exact h.deleteKey (by simp)
    · intro _
      apply h.bind (h.deleteKey (by simp))
      intro _
      apply h.bind (h.deleteKey (by simp))
      intro _
      apply h.bind (h.deleteKey (by simp))
      intro _
      apply h.bind (h.deleteKey (by simp))
      intro _
      exact h.deleteKey (by simp)

theorem createIndexStmt (t index : Name) (expr : G.Expr) (asc : Option Bool) :
    Along R F (createIndexStmt t index expr asc) := by
  unfold Sql.createIndexStmt
  apply h.bind h.get
  intro c
  apply h.bind (h.except (getSchema_plain _ _))
  intro schema
  split_ifs with hexpr
  · unfold createIndex
    apply h.bind h.get
    intro c
    dsimp only
    split
    · exact h.throw not_false
    · split_ifs with hexists
      · exact h.throw not_false
      · apply h.bind (h.except (tableId_plain _ _))
        intro id
        apply h.bind (h.except (collectRows_plain _ _))
        intro rows
        apply h.bind
        · apply h.forM
          intro q _
          unfold backfillEntry
          apply h.bind (h.except (indexValue_plain _ _ _))
          intro value
          apply h.bind (h.except (keyBytes_plain _))
          intro valueBytes
          apply h.bind (h.except (keyBytes_plain _))
          intro pkBytes
          exact h.writeKey _ (by simp)
        · intro _
          exact h.writeKey _ (by simp)
  · exact h.throw not_false

theorem dropIndex (t index : Name) : Along R F (dropIndex t index : Exec G Unit) := by
  unfold Sql.dropIndex
  apply h.bind h.get
  intro c
  dsimp only
  split
  · exact h.throw not_false
  · split_ifs with hexists
    · apply h.bind (h.except (tableId_plain _ _))
      intro id
      apply h.bind
      · apply h.forM
        intro k hk
        apply h.deleteKey
        obtain ⟨v, p, rfl⟩ := indexPrefix_isPrefix.mp (mem_scanRange_prefixed.mp hk).1
        simp
      · intro _
        apply h.bind (h.writeKey _ (by simp))
        intro _
        exact h.forget t index
    · exact h.throw not_false

theorem addColumn (t : Name) (column : ColumnDef G) : Along R F (addColumn t column) := by
  unfold Sql.addColumn
  apply h.bind h.get
  intro c
  dsimp only
  split
  · exact h.throw not_false
  · apply h.bind (h.except (fillValue_plain _))
    intro default
    split
    · exact h.throw not_false
    · split_ifs with hexists
      · exact h.throw not_false
      · apply h.bind (h.insertSchema _)
        intro _
        exact h.writeKey _ (by simp)

theorem dropColumnStmt (t column : Name) (ifExists : Bool) :
    Along R F (dropColumnStmt t column ifExists : Exec G Unit) := by
  unfold Sql.dropColumnStmt
  apply h.bind h.get
  intro c
  apply h.bind
  · apply h.forM
    intro i _
    exact h.dropIndex ..
  · intro _
    unfold dropColumn
    apply h.bind h.get
    intro c
    dsimp only
    split
    · exact h.throw not_false
    · split
      · exact h.throw not_false
      · split
        · split_ifs
          · exact h.pure _
          · exact h.throw not_false
        · split_ifs with hkey
          · exact h.throw not_false
          · apply h.bind (h.insertSchema _)
            intro _
            exact h.writeKey _ (by simp)

theorem renameColumn (t old new : Name) : Along R F (renameColumn t old new : Exec G Unit) := by
  unfold Sql.renameColumn
  apply h.bind h.get
  intro c
  split
  · exact h.throw not_false
  · split
    · exact h.throw not_false
    · split_ifs with hexists hold
      · exact h.throw not_false
      · exact h.insertSchema _
      · exact h.throw not_false

theorem moveKey (src dst : StorageKey) (hkind : src.Value G = dst.Value G)
    (hsrc : ∀ t, src ≠ .uniqueidx t)
    (hdst : (∀ t, dst ≠ .uniqueidx t) ∧ ∀ id p, dst ≠ .row id p) :
    Along R F (moveKey src dst hkind) := by
  unfold Sql.moveKey
  apply h.bind h.get
  intro c
  split
  · apply h.bind (h.writeKey _ hdst)
    intro _
    exact h.deleteKey hsrc
  · exact h.pure _

theorem renameSchema (t new : Name) : Along R F (renameSchema t new : Exec G Unit) := by
  unfold Sql.renameSchema
  apply h.bind h.get
  intro c
  dsimp only
  split
  · exact h.throw not_false
  · apply h.bind (h.except (tableId_plain _ _))
    intro id
    apply h.bind (h.writeKey _ (by simp))
    intro _
    apply h.bind (h.deleteKey (by simp))
    intro _
    apply h.bind (h.writeKey _ (by simp))
    intro _
    apply h.bind (h.deleteKey (by simp))
    intro _
    apply h.bind (h.moveKey (.metadata t) (.metadata new) rfl (by simp) (by simp))
    intro _
    apply h.bind (h.moveKey (.colcat t) (.colcat new) rfl (by simp) (by simp))
    intro _
    exact h.moveKey (.pkcat t) (.pkcat new) rfl (by simp) (by simp)

end Parts

end Stepwise

/-- The table a statement stores rows in. -/
def Stmt.target : Stmt G → Option Name
  | .insert t _ => some t
  | .update t _ => some t
  | _ => none

theorem runStmt_along {T : Name → Prop} {R : Conn G → Conn G → Prop}
    {F : Error G → Conn G → Conn G → Prop} (h : Stepwise T R F) (stmt : Stmt G)
    (ht : ∀ t ∈ stmt.target, T t) : Along R F (runStmt stmt) := by
  cases stmt with
  | createTable t columns => exact h.createTableStmt ..
  | dropTable t => exact h.dropTableStmt ..
  | insert t rows => exact h.insertStmt (ht t rfl) ..
  | update t assign => exact h.updateStmt (ht t rfl) ..
  | delete t selects => exact h.deleteStmt ..
  | createIndex t index expr asc => exact h.createIndexStmt ..
  | dropIndex t index => exact h.dropIndex ..
  | addColumn t column => exact h.addColumn ..
  | dropColumn t column ifExists => exact h.dropColumnStmt ..
  | renameColumn t old new => exact h.renameColumn ..
  | renameTable t new => exact h.renameSchema ..

end BlueDB.Sql
