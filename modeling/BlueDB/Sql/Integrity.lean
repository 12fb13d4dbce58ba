import BlueDB.Sql.Effects
import BlueDB.Sql.Keyspace
import BlueDB.Sql.Laws
import BlueDB.Sql.Layout

/-!
# Stores whose indexes agree with their rows

The invariant of a store: every table has an id of its own, nothing is stored
under an id that no table has, and the entries of a table are the values of its
indexes on its rows. It is kept by every write of a row together with the
entries the methods write beside it.
-/

namespace BlueDB.Sql

variable {G : Engine}

/-- What holds of a row stored under the bytes `p`. -/
structure RowOk (schema : Schema G) (catalog : Option (ColumnCatalog G)) (p : List UInt8)
    (st : StoredRow G) : Prop where
  key : keyBytes st.key = .ok p
  fits : ∀ columns, schema.columnDefs = some columns → StoredFits catalog columns.length st.row
  evaluable : Evaluable schema (toLogical catalog st.row)

structure TableOk (schema : Schema G) (catalog : Option (ColumnCatalog G))
    (rows : List UInt8 → Option (StoredRow G))
    (entries : Name → List UInt8 → List UInt8 → Option G.Key) : Prop where
  columns_nodup : (schemaColumns schema).Nodup
  indexes_nodup : (schema.indexes.map SchemaIndex.name).Nodup
  exprs : ∀ i ∈ schema.indexes, indexExprOk schema i.expr = true
  catalog_fits : ∀ columns, schema.columnDefs = some columns → CatalogFits catalog columns.length
  row : ∀ p st, rows p = some st → RowOk schema catalog p st
  entry : ∀ n v p k, entries n v p = some k ↔ ∃ st, rows p = some st ∧ k = st.key ∧
    Indexed schema (toLogical catalog st.row) n v

def readTableIdSeq (s : Store G) : Option UInt64 := s.get .tableidSeq

structure Integrity (s : Store G) : Prop where
  table : ∀ t schema, readSchema s t = some schema → schema.tableName = t ∧
    ∃ id, resolveTableId s t = some id ∧
      TableOk schema (readCatalog s t) (readRow s id) (readEntry s id)
  ids : ∀ t id, resolveTableId s t = some id → (readSchema s t).isSome = true
  ids_inj : ∀ t t' id, resolveTableId s t = some id → resolveTableId s t' = some id → t = t'
  catalogs : ∀ t, (readCatalog s t).isSome = true → (readSchema s t).isSome = true
  counter : ∀ t id, resolveTableId s t = some id →
    ∃ last, readTableIdSeq s = some last ∧ id.toNat ≤ last.toNat
  dead : ∀ id, (∀ t, resolveTableId s t ≠ some id) →
    (∀ p, readRow s id p = none) ∧ ∀ n v p, readEntry s id n v p = none

theorem integrity_empty : Integrity (Kv.empty : Store G) where
  table t schema h := absurd h (by simp [readSchema])
  ids t id h := absurd h (by simp [resolveTableId])
  ids_inj t t' id h := absurd h (by simp [resolveTableId])
  catalogs t h := absurd h (by simp [readCatalog])
  counter t id h := absurd h (by simp [resolveTableId])
  dead id _ := ⟨fun _ => rfl, fun _ _ _ => rfl⟩

namespace Integrity

variable {s s' : Store G} {t : Name} {schema : Schema G} {id : UInt64}
  {catalog : Option (ColumnCatalog G)}

theorem tableAt (h : Integrity s) (hschema : readSchema s t = some schema) :
    ∃ id, TableAt s t schema id (readCatalog s t) := by
  obtain ⟨-, id, hid, -⟩ := h.table t schema hschema
  exact ⟨id, hschema, hid, rfl⟩

theorem tableOk (h : Integrity s) (hat : TableAt s t schema id catalog) :
    TableOk schema catalog (readRow s id) (readEntry s id) := by
  obtain ⟨-, id', hid', hok⟩ := h.table t schema hat.schema
  rw [hat.id, Option.some.injEq] at hid'
  rw [← hat.catalog, hid']
  exact hok

theorem tableName (h : Integrity s) (hat : TableAt s t schema id catalog) : schema.tableName = t :=
  (h.table t schema hat.schema).1

theorem allEvaluable (h : Integrity s) (hat : TableAt s t schema id catalog) :
    AllEvaluable s schema id catalog :=
  fun p st hst => ((h.tableOk hat).row p st hst).evaluable

end Integrity

/-- The records that belong to a table with its id. -/
def Owned (t : Name) (id : UInt64) : StorageKey → Prop
  | .schema t' => t' = t
  | .row id' _ => id' = id
  | .indexEntry id' _ _ _ => id' = id
  | .metadata t' => t' = t
  | .colcat t' => t' = t
  | .tableid _ => False
  | .tableidSeq => False
  | .pkcat t' => t' = t
  | .uniqueidx t' => t' = t

theorem Integrity.of_table {s s' : Store G} {t : Name} {schema' : Schema G} {id : UInt64}
    (h : Integrity s) (hid : resolveTableId s t = some id)
    (hframe : ∀ k, ¬Owned t id k → s'.get k = s.get k) (hschema : readSchema s' t = some schema')
    (hname : schema'.tableName = t)
    (hok : TableOk schema' (readCatalog s' t) (readRow s' id) (readEntry s' id)) :
    Integrity s' := by
  have hids : ∀ t', resolveTableId s' t' = resolveTableId s t' :=
    fun t' => hframe (.tableid t') not_false
  have hschemas : ∀ t', t' ≠ t → readSchema s' t' = readSchema s t' :=
    fun t' ht' => hframe (.schema t') ht'
  have hcatalogs : ∀ t', t' ≠ t → readCatalog s' t' = readCatalog s t' :=
    fun t' ht' => hframe (.colcat t') ht'
  have hrows : ∀ id', id' ≠ id → readRow s' id' = readRow s id' :=
    fun id' hid' => funext fun p => hframe (.row id' p) hid'
  have hentries : ∀ id', id' ≠ id → readEntry s' id' = readEntry s id' :=
    fun id' hid' => funext fun n => funext fun v => funext fun p =>
      hframe (.indexEntry id' n v p) hid'
  constructor
  · intro t' schema hread
    by_cases ht' : t' = t
    · subst t'
      rw [hschema, Option.some.injEq] at hread
      subst schema
      exact ⟨hname, id, (hids t).trans hid, hok⟩
    · rw [hschemas t' ht'] at hread
      obtain ⟨hname', id', hid', hok'⟩ := h.table t' schema hread
      have hne : id' ≠ id := fun heq => ht' (h.ids_inj t' t id (heq ▸ hid') hid)
      refine ⟨hname', id', (hids t').trans hid', ?_⟩
      rw [hcatalogs t' ht', hrows id' hne, hentries id' hne]
      exact hok'
  · intro t' id' hid'
    by_cases ht' : t' = t
    · rw [ht', hschema]
      rfl
    · rw [hschemas t' ht']
      exact h.ids t' id' ((hids t').symm.trans hid')
  · intro t' t'' id' h' h''
    exact h.ids_inj t' t'' id' ((hids t').symm.trans h') ((hids t'').symm.trans h'')
  · intro t' hcat
    by_cases ht' : t' = t
    · rw [ht', hschema]
      rfl
    · rw [hcatalogs t' ht'] at hcat
      rw [hschemas t' ht']
      exact h.catalogs t' hcat
  · intro t' id' hid'
    have hseq : readTableIdSeq s' = readTableIdSeq s := hframe .tableidSeq not_false
    rw [hseq]
    exact h.counter t' id' ((hids t').symm.trans hid')
  · intro id' hdead
    have hne : id' ≠ id := fun heq => hdead t (by rw [hids, hid, heq])
    rw [hrows id' hne, hentries id' hne]
    exact h.dead id' fun t' => by rw [← hids]; exact hdead t'

/-- The row under `p` becomes `new`, with the entries that belong to it. -/
structure RowSet (schema : Schema G) (catalog : Option (ColumnCatalog G)) (s s' : Store G)
    (id : UInt64) (p : List UInt8) (new : Option (StoredRow G)) : Prop where
  other : ∀ k, k ≠ .row id p → (∀ n v, k ≠ .indexEntry id n v p) → s'.get k = s.get k
  row : readRow s' id p = new
  entry : ∀ n v k, readEntry s' id n v p = some k ↔ ∃ st, new = some st ∧ k = st.key ∧
    Indexed schema (toLogical catalog st.row) n v

section RowSet

variable {s s' : Store G} {t : Name} {schema : Schema G} {id : UInt64}
  {catalog : Option (ColumnCatalog G)} {p : List UInt8} {key : G.Key} {row : DataRow G.Value}
  {old new : Batch G} {st : Option (StoredRow G)}

theorem Retired.readEntry (h : Retired s schema id catalog p key old)
    (hok : TableOk schema catalog (readRow s id) (readEntry s id)) (n : Name) (v : List UInt8) :
    readEntry (s.commit old) id n v p = none := by
  cases hrow : readRow s id p with
  | none =>
    rw [h.missing hrow, Kv.commit_nil, Option.eq_none_iff_forall_ne_some]
    intro k hk
    obtain ⟨st, hst, -⟩ := (hok.entry n v p k).mp hk
    rw [hrow] at hst
    exact absurd hst (by simp)
  | some st =>
    have hbatch := h.stored st hrow
    by_cases hindexed : Indexed schema (toLogical catalog st.row) n v
    · rw [hbatch.readEntry s hindexed]
      rfl
    · have hget : Sql.readEntry (s.commit old) id n v p = Sql.readEntry s id n v p := by
        apply hbatch.get_of_ne
        intro n' v' hindexed' hkey
        injection hkey with _ hn hv _
        exact hindexed (hn ▸ hv ▸ hindexed')
      rw [hget, Option.eq_none_iff_forall_ne_some]
      intro k hk
      obtain ⟨st', hst', -, hindexed'⟩ := (hok.entry n v p k).mp hk
      rw [hrow, Option.some.injEq] at hst'
      exact hindexed (hst' ▸ hindexed')

theorem Retired.get_of_ne (h : Retired s schema id catalog p key old) {k : StorageKey}
    (hk : ∀ n v, k ≠ .indexEntry id n v p) : (s.commit old).get k = s.get k := by
  cases hrow : readRow s id p with
  | none => rw [h.missing hrow, Kv.commit_nil]
  | some st => exact (h.stored st hrow).get_of_ne s fun n v _ => hk n v

theorem rowSet_insert (hok : TableOk schema catalog (readRow s id) (readEntry s id))
    (hold : Retired s schema id catalog p key old)
    (hnew : EntryBatch schema row id p key true new)
    (hrow : toLogical catalog (toPhysical catalog row) = row) :
    RowSet schema catalog s
      (s.commit (old ++ (new ++ [.put (.row id p) ⟨key, toPhysical catalog row⟩]))) id p
      (some ⟨key, toPhysical catalog row⟩) := by
  have hcommit : s.commit (old ++ (new ++ [.put (.row id p) ⟨key, toPhysical catalog row⟩])) =
      ((s.commit old).commit new).write (.put (.row id p) ⟨key, toPhysical catalog row⟩) := by
    rw [Kv.commit_append, Kv.commit_append, Kv.commit_cons, Kv.commit_nil]
  rw [hcommit]
  constructor
  · intro k hk hentry
    rw [Kv.get_write_of_ne hk, hnew.get_of_ne _ fun n v _ => hentry n v, hold.get_of_ne hentry]
  · exact Kv.get_write_put ..
  · intro n v k
    have hwrite : readEntry (((s.commit old).commit new).write
        (.put (.row id p) ⟨key, toPhysical catalog row⟩)) id n v p =
          readEntry ((s.commit old).commit new) id n v p := Kv.get_write_of_ne (by simp)
    rw [hwrite]
    by_cases hindexed : Indexed schema row n v
    · rw [hnew.readEntry _ hindexed, if_pos rfl, Option.some.injEq]
      constructor
      · intro hk
        exact ⟨_, rfl, hk.symm, by rw [hrow]; exact hindexed⟩
      · intro ⟨st, hst, hk, _⟩
        rw [← Option.some.inj hst] at hk
        exact hk.symm
    · have hnone : readEntry ((s.commit old).commit new) id n v p = none := by
        rw [← hold.readEntry hok n v]
        apply hnew.get_of_ne
        intro n' v' hindexed' hkey
        injection hkey with _ hn hv _
        exact hindexed (hn ▸ hv ▸ hindexed')
      rw [hnone]
      constructor
      · intro h
        exact absurd h (by simp)
      · intro ⟨st, hst, _, hindexed'⟩
        rw [← Option.some.inj hst, hrow] at hindexed'
        exact absurd hindexed' hindexed

theorem rowSet_delete (hok : TableOk schema catalog (readRow s id) (readEntry s id))
    (hold : Retired s schema id catalog p key old) :
    RowSet schema catalog s (s.commit (old ++ [.delete (.row id p)])) id p none := by
  rw [Kv.commit_append, Kv.commit_cons, Kv.commit_nil]
  constructor
  · intro k hk hentry
    rw [Kv.get_write_of_ne hk, hold.get_of_ne hentry]
  · exact Kv.get_write_delete ..
  · intro n v k
    have hwrite : readEntry ((s.commit old).write (.delete (.row id p))) id n v p =
        readEntry (s.commit old) id n v p := Kv.get_write_of_ne (by simp)
    rw [hwrite, hold.readEntry hok]
    simp

theorem RowSet.tableOk (hset : RowSet schema catalog s s' id p st)
    (hok : TableOk schema catalog (readRow s id) (readEntry s id))
    (hnew : ∀ x, st = some x → RowOk schema catalog p x) :
    TableOk schema catalog (readRow s' id) (readEntry s' id) := by
  have hrow : ∀ q, q ≠ p → readRow s' id q = readRow s id q := by
    intro q hq
    exact hset.other (.row id q) (fun h => hq (StorageKey.row.inj h).2) (by simp)
  have hentry : ∀ n v q, q ≠ p → readEntry s' id n v q = readEntry s id n v q := by
    intro n v q hq
    apply hset.other (.indexEntry id n v q) (by simp)
    intro n' v' h
    exact hq (StorageKey.indexEntry.inj h).2.2.2
  constructor
  · exact hok.columns_nodup
  · exact hok.indexes_nodup
  · exact hok.exprs
  · exact hok.catalog_fits
  · intro q x hx
    by_cases hq : q = p
    · rw [hq, hset.row] at hx
      rw [hq]
      exact hnew x hx
    · rw [hrow q hq] at hx
      exact hok.row q x hx
  · intro n v q k
    by_cases hq : q = p
    · rw [hq, hset.entry, hset.row]
    · rw [hentry n v q hq, hrow q hq]
      exact hok.entry n v q k

theorem RowSet.tableAt (hset : RowSet schema catalog s s' id p st)
    (hat : TableAt s t schema id catalog) : TableAt s' t schema id catalog := by
  constructor
  · exact (hset.other (.schema t) (by simp) (by simp)).trans hat.schema
  · exact (hset.other (.tableid t) (by simp) (by simp)).trans hat.id
  · exact (hset.other (.colcat t) (by simp) (by simp)).trans hat.catalog

theorem RowSet.integrity (hset : RowSet schema catalog s s' id p st) (h : Integrity s)
    (hat : TableAt s t schema id catalog) (hnew : ∀ x, st = some x → RowOk schema catalog p x) :
    Integrity s' := by
  have hat' := hset.tableAt hat
  apply h.of_table hat.id _ hat'.schema (h.tableName hat)
  · rw [hat'.catalog]
    exact hset.tableOk (h.tableOk hat) hnew
  · intro k hk
    apply hset.other k
    · intro hkey
      exact hk (hkey ▸ rfl)
    · intro n v hkey
      exact hk (hkey ▸ rfl)

end RowSet

/-- A row of the right shape is read back as it was written. -/
theorem toLogical_toPhysical_of_rowFits {schema : Schema G} {catalog : Option (ColumnCatalog G)}
    {row : DataRow G.Value}
    (hcat : ∀ columns, schema.columnDefs = some columns → CatalogFits catalog columns.length)
    (h : rowFits schema row = true) :
    toLogical catalog (toPhysical catalog row) = row ∧ ∀ columns,
      schema.columnDefs = some columns →
        StoredFits catalog columns.length (toPhysical catalog row) := by
  cases row with
  | vec values =>
    cases hcolumns : schema.columnDefs with
    | none => simp [rowFits, hcolumns] at h
    | some columns =>
      have hlen : values.length = columns.length := by simpa [rowFits, hcolumns] using h
      refine ⟨toLogical_toPhysical (hcat columns hcolumns) hlen, ?_⟩
      intro columns' hcolumns'
      rw [← Option.some.inj hcolumns']
      exact storedFits_toPhysical hlen
  | map entries =>
    constructor
    · cases catalog <;> rfl
    · intro columns hcolumns
      simp [rowFits, hcolumns] at h

end BlueDB.Sql
