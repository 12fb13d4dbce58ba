import BlueDB.Sql.Dml

/-!
# Indexes and columns

CREATE and DROP INDEX, and ADD, DROP and RENAME COLUMN. A column alteration
writes no row and no index entry: the entries stay right because the columns an
index names keep their names and their values.
-/

namespace BlueDB.Sql

variable {G : Engine}

section Lookup

variable {V : Type} {m : Name}

theorem lookup_zip_isSome {names : List Name} {values : List V} (hm : m ∈ names)
    (hlen : values.length = names.length) : ((names.zip values).lookup m).isSome = true := by
  rw [List.lookup_isSome_iff]
  obtain ⟨i, hi, hget⟩ := List.getElem_of_mem hm
  have hi' : i < values.length := hlen ▸ hi
  refine ⟨(names[i], values[i]), ?_, by simp [hget]⟩
  apply List.mem_of_getElem? (i := i)
  rw [List.getElem?_zip_eq_some]
  simp [hi, hlen]

theorem lookup_zip_append {names : List Name} {values : List V} (c : Name) (v : V)
    (hm : m ∈ names) (hlen : values.length = names.length) :
    ((names ++ [c]).zip (values ++ [v])).lookup m = (names.zip values).lookup m := by
  obtain ⟨x, hx⟩ := Option.isSome_iff_exists.mp (lookup_zip_isSome hm hlen)
  rw [List.zip_append hlen.symm, List.lookup_append, hx, Option.some_or]

theorem lookup_zip_eraseIdx {names : List Name} {values : List V} {i : ℕ}
    (hi : names[i]? ≠ some m) :
    ((names.eraseIdx i).zip (values.eraseIdx i)).lookup m = (names.zip values).lookup m := by
  induction names generalizing values i with
  | nil => rfl
  | cons a names ih =>
    cases values with
    | nil => simp
    | cons v values =>
      cases i with
      | zero =>
        have hne : m ≠ a := fun h => hi (by simp [h])
        simp [List.lookup_cons, beq_eq_false_iff_ne.mpr hne]
      | succ i =>
        have htail := @ih values i (by simpa using hi)
        simp [List.lookup_cons, htail]

end Lookup

section RenameFirst

variable {old new m : Name} {defs : List (ColumnDef G)}

theorem lookup_zip_renameFirst {values : List G.Value} (hold : m ≠ old) (hnew : m ≠ new) :
    (((renameFirst old new defs).map ColumnDef.name).zip values).lookup m =
      ((defs.map ColumnDef.name).zip values).lookup m := by
  induction defs generalizing values with
  | nil => rfl
  | cons d defs ih =>
    cases values with
    | nil => simp
    | cons v values =>
      by_cases hd : d.name = old
      · simp [renameFirst, hd, List.lookup_cons, beq_eq_false_iff_ne.mpr hold,
          beq_eq_false_iff_ne.mpr hnew]
      · simp [renameFirst, hd, List.lookup_cons, ih]

theorem mem_renameFirst (hm : m ∈ defs.map ColumnDef.name) (hold : m ≠ old) :
    m ∈ (renameFirst old new defs).map ColumnDef.name := by
  induction defs with
  | nil => exact hm
  | cons d defs ih =>
    rw [List.map_cons, List.mem_cons] at hm
    by_cases hd : d.name = old
    · rcases hm with rfl | hm
      · exact absurd hd hold
      · simp only [renameFirst, hd, if_true, List.map_cons]
        exact List.mem_cons_of_mem _ hm
    · simp only [renameFirst, hd, if_false, List.map_cons]
      rcases hm with rfl | hm
      · exact List.mem_cons_self
      · exact List.mem_cons_of_mem _ (ih hm)

theorem mem_of_mem_renameFirst (hm : m ∈ (renameFirst old new defs).map ColumnDef.name) :
    m = new ∨ m ∈ defs.map ColumnDef.name := by
  induction defs with
  | nil => exact Or.inr hm
  | cons d defs ih =>
    by_cases hd : d.name = old
    · simp only [renameFirst, hd, if_true, List.map_cons, List.mem_cons] at hm
      rcases hm with hm | hm
      · exact Or.inl hm
      · exact Or.inr (List.mem_cons_of_mem _ hm)
    · simp only [renameFirst, hd, if_false, List.map_cons, List.mem_cons] at hm
      rcases hm with hm | hm
      · exact Or.inr (by simp [hm])
      · exact (ih hm).imp_right fun h => List.mem_cons_of_mem _ h

theorem renameFirst_nodup (hnodup : (defs.map ColumnDef.name).Nodup)
    (hnew : new ∉ defs.map ColumnDef.name) :
    ((renameFirst old new defs).map ColumnDef.name).Nodup := by
  induction defs with
  | nil => exact List.nodup_nil
  | cons d defs ih =>
    rw [List.map_cons, List.nodup_cons] at hnodup
    rw [List.map_cons, List.mem_cons, not_or] at hnew
    by_cases hd : d.name = old
    · simp only [renameFirst, hd, if_true, List.map_cons, List.nodup_cons]
      exact ⟨hnew.2, hnodup.2⟩
    · simp only [renameFirst, hd, if_false, List.map_cons, List.nodup_cons]
      refine ⟨fun hmem => ?_, ih hnodup.2 hnew.2⟩
      rcases mem_of_mem_renameFirst hmem with heq | hmem
      · exact hnew.1 heq.symm
      · exact hnodup.1 hmem

theorem renameFirst_length : (renameFirst old new defs).length = defs.length := by
  induction defs with
  | nil => rfl
  | cons d defs ih => by_cases hd : d.name = old <;> simp [renameFirst, hd, ih]

theorem renameFirst_primary (h : ∀ d ∈ renameFirst old new defs, d.primary = false) :
    ∀ d ∈ defs, d.primary = false := by
  induction defs with
  | nil => simp
  | cons d defs ih =>
    intro d' hd'
    by_cases hd : d.name = old
    · simp only [renameFirst, hd, if_true, List.mem_cons, forall_eq_or_imp] at h
      rcases List.mem_cons.mp hd' with rfl | hd'
      · exact h.1
      · exact h.2 d' hd'
    · simp only [renameFirst, hd, if_false, List.mem_cons, forall_eq_or_imp] at h
      rcases List.mem_cons.mp hd' with rfl | hd'
      · exact h.1
      · exact ih h.2 d' hd'

end RenameFirst

section Relayout

variable {schema schema' : Schema G} {catalog catalog' : Option (ColumnCatalog G)}
  {rows : List UInt8 → Option (StoredRow G)}
  {entries : Name → List UInt8 → List UInt8 → Option G.Key}

theorem mentions_subset {i : SchemaIndex G} (h : indexExprOk schema i.expr = true) :
    ∀ m ∈ G.mentions i.expr, m ∈ schemaColumns schema := by
  intro m hm
  have hall := (Bool.and_eq_true_iff.mp h).2
  exact of_decide_eq_true (List.all_eq_true.mp hall m hm)

theorem mentions_ne_nil {i : SchemaIndex G} (h : indexExprOk schema i.expr = true) :
    G.mentions i.expr ≠ [] := by
  intro hnil
  simp [indexExprOk, hnil] at h

theorem indexExprOk_of_subset {expr : G.Expr} (hne : G.mentions expr ≠ [])
    (h : ∀ m ∈ G.mentions expr, m ∈ schemaColumns schema) : indexExprOk schema expr = true := by
  unfold indexExprOk
  rw [Bool.and_eq_true, List.all_eq_true]
  constructor
  · simpa using hne
  · intro m hm
    exact decide_eq_true (h m hm)

theorem indexBytes_congr (hG : Lawful G) {i : SchemaIndex G} {columns columns' : List Name}
    {values values' : List G.Value} (hne : G.mentions i.expr ≠ [])
    (hmem : ∀ m ∈ G.mentions i.expr, m ∈ columns) (hmem' : ∀ m ∈ G.mentions i.expr, m ∈ columns')
    (h : ∀ m ∈ G.mentions i.expr,
      (columns'.zip values').lookup m = (columns.zip values).lookup m) :
    indexBytes (contextColumns columns') (.vec values') i =
      indexBytes (contextColumns columns) (.vec values) i := by
  obtain ⟨m, hm⟩ := List.exists_mem_of_ne_nil _ hne
  have hcols : contextColumns columns = some columns :=
    if_neg (List.ne_nil_of_mem (hmem m hm))
  have hcols' : contextColumns columns' = some columns' :=
    if_neg (List.ne_nil_of_mem (hmem' m hm))
  unfold indexBytes indexValue
  rw [hcols, hcols', hG.evaluate_congr h]

theorem TableOk.relayout (h : TableOk schema catalog rows entries)
    (hindexes : schema'.indexes = schema.indexes) (hnodup : (schemaColumns schema').Nodup)
    (hexprs : ∀ i ∈ schema.indexes, indexExprOk schema' i.expr = true)
    (hcatalog : ∀ columns, schema'.columnDefs = some columns →
      CatalogFits catalog' columns.length)
    (hfits : ∀ p st, rows p = some st → ∀ columns, schema'.columnDefs = some columns →
      StoredFits catalog' columns.length st.row)
    (hsame : ∀ p st, rows p = some st → ∀ i ∈ schema.indexes,
      indexBytes (evalColumns schema') (toLogical catalog' st.row) i =
        indexBytes (evalColumns schema) (toLogical catalog st.row) i) :
    TableOk schema' catalog' rows entries := by
  constructor
  · exact hnodup
  · rw [hindexes]
    exact h.indexes_nodup
  · rw [hindexes]
    exact hexprs
  · exact hcatalog
  · intro p st hst
    have hrow := h.row p st hst
    refine ⟨hrow.key, hfits p st hst, ?_⟩
    intro i hi
    rw [hindexes] at hi
    rw [hsame p st hst i hi]
    exact hrow.evaluable i hi
  · intro n v p k
    rw [h.entry]
    apply exists_congr
    intro st
    apply and_congr_right
    intro hst
    apply and_congr_right
    intro _
    unfold Indexed
    rw [hindexes]
    constructor
    · intro ⟨i, hi, hn, hv⟩
      exact ⟨i, hi, hn, (hsame p st hst i hi).trans hv⟩
    · intro ⟨i, hi, hn, hv⟩
      exact ⟨i, hi, hn, (hsame p st hst i hi).symm.trans hv⟩

end Relayout

section InsertSchema

variable {c : Conn G} {t : Name} {schema : Schema G} {id : UInt64}
  {catalog : Option (ColumnCatalog G)}

/-- The schema record is written, and the creation time if there is none. -/
structure SchemaBatch (s : Store G) (schema : Schema G) (ws : Batch G) : Prop where
  other : ∀ k, k ≠ .schema schema.tableName → k ≠ .metadata schema.tableName →
    (s.commit ws).get k = s.get k
  schema : readSchema (s.commit ws) schema.tableName = some schema

theorem schemaBatch_cons (s : Store G) (schema : Schema G) {ws : Batch G}
    (hws : ∀ w ∈ ws, w.key = .metadata schema.tableName) :
    SchemaBatch s schema (.put (.schema schema.tableName) schema :: ws) := by
  constructor
  · intro k hk hmeta
    rw [Kv.commit_cons, Kv.get_commit_of_forall_ne, Kv.get_write_of_ne hk]
    intro w hw hkey
    exact hmeta (hkey.symm.trans (hws w hw))
  · rw [Kv.commit_cons, readSchema, Kv.get_commit_of_forall_ne, Kv.get_write_put]
    intro w hw hkey
    rw [hws w hw] at hkey
    exact absurd hkey (by simp)

theorem stampMetadata_holds (hc : c.txn.isSome = true) {fail : Error G → Conn G → Prop} :
    Holds (stampMetadata t) c
      (fun _ c' => ∃ ws, (∀ w ∈ ws, w.key = .metadata t) ∧ Buffered c c' ws) fail := by
  unfold stampMetadata
  rw [Holds.bind_iff, Holds.get_iff]
  split_ifs with hmeta
  · apply holds_writeKey hc
    intro c' hbuf
    exact ⟨_, by simp, hbuf⟩
  · exact ⟨[], by simp, Buffered.refl hc⟩

theorem writeSchema_holds (hc : c.txn.isSome = true) {fail : Error G → Conn G → Prop} :
    Holds (do writeKey (.schema schema.tableName) schema; stampMetadata schema.tableName) c
      (fun _ c' => ∃ ws, SchemaBatch c.view schema ws ∧ Buffered c c' ws) fail := by
  rw [Holds.bind_iff]
  apply holds_writeKey hc
  intro c1 hbuf
  apply (@stampMetadata_holds G c1 schema.tableName hbuf.isSome fail).mono
  · intro _ c2 ⟨ws, hws, hbuf2⟩
    exact ⟨_, schemaBatch_cons c.view schema hws, hbuf.trans hbuf2⟩
  · intro e c2 h
    exact h

theorem enforceStrict_holds :
    Holds (enforceStrict schema) c (fun _ c' => c' = c) (fun e c' => c' = c ∧ ¬e.IsIndexEval) := by
  unfold enforceStrict
  rw [Holds.bind_iff, Holds.get_iff]
  split_ifs with hstrict
  · apply holds_ofExcept
    · intro _ _
      rfl
    · intro e he
      refine ⟨rfl, ?_⟩
      unfold enforce at he
      split at he
      · rw [← Except.error.inj he]
        exact not_false
      · split_ifs at he
        rw [← Except.error.inj he]
        exact not_false
  · rfl

theorem insertSchema_holds (hc : c.txn.isSome = true)
    (hid : resolveTableId c.view schema.tableName = some id) :
    Holds (insertSchema schema) c
      (fun _ c' => ∃ ws, SchemaBatch c.view schema ws ∧ Buffered c c' ws)
      (fun e c' => c' = c ∧ ¬e.IsIndexEval) := by
  unfold insertSchema
  rw [Holds.bind_iff]
  apply enforceStrict_holds.mono
  · intro _ c1 hsame
    subst c1
    have hensure : Holds (ensureTableId schema.tableName) c (fun _ c' => c' = c)
        (fun e c' => c' = c ∧ ¬e.IsIndexEval) := by
      unfold ensureTableId
      rw [Holds.bind_iff, Holds.get_iff]
      dsimp only
      rw [hid]
      rfl
    rw [Holds.bind_iff]
    apply hensure.mono
    · intro _ c1 hsame
      subst c1
      exact writeSchema_holds hc
    · intro e c1 h
      exact h
  · intro e c1 h
    exact h

end InsertSchema

section Columns

variable {schema : Schema G} {catalog : Option (ColumnCatalog G)}
  {rows : List UInt8 → Option (StoredRow G)}
  {entries : Name → List UInt8 → List UInt8 → Option G.Key} {columns : List (ColumnDef G)}

def withColumns (schema : Schema G) (columns : List (ColumnDef G)) : Schema G :=
  { schema with columnDefs := some columns }

theorem schemaColumns_eq (hdefs : schema.columnDefs = some columns) :
    schemaColumns schema = columns.map ColumnDef.name := by
  rw [schemaColumns, hdefs, Option.getD_some]

theorem schemaColumns_withColumns (schema : Schema G) (columns : List (ColumnDef G)) :
    schemaColumns (withColumns schema columns) = columns.map ColumnDef.name := rfl

theorem evalColumns_eq (hdefs : schema.columnDefs = some columns) :
    evalColumns schema = contextColumns (columns.map ColumnDef.name) := by
  rw [evalColumns, schemaColumns_eq hdefs]

theorem TableOk.mentions_mem (h : TableOk schema catalog rows entries)
    (hdefs : schema.columnDefs = some columns) :
    ∀ x ∈ schema.indexes, ∀ m ∈ G.mentions x.expr, m ∈ columns.map ColumnDef.name := by
  intro x hx m hm
  rw [← schemaColumns_eq hdefs]
  exact mentions_subset (h.exprs x hx) m hm

theorem TableOk.logical (h : TableOk schema catalog rows entries)
    (hdefs : schema.columnDefs = some columns) {p : List UInt8} {st : StoredRow G}
    (hst : rows p = some st) : ∃ values, toLogical catalog st.row = .vec values ∧
      values.length = (columns.map ColumnDef.name).length := by
  obtain ⟨values, hvalues, hlen⟩ := ((h.row p st hst).fits columns hdefs).exists_logical
    (h.catalog_fits columns hdefs)
  exact ⟨values, hvalues, by rw [hlen, List.length_map]⟩

theorem TableOk.addColumn (hG : Lawful G) (h : TableOk schema catalog rows entries)
    (hdefs : schema.columnDefs = some columns) {column : ColumnDef G}
    (hnew : column.name ∉ columns.map ColumnDef.name) (default : G.Value) :
    TableOk (withColumns schema (columns ++ [column]))
      (some ((catalog.getD (.identity columns.length)).addColumn default)) rows entries := by
  have hcols := schemaColumns_eq hdefs
  have hcols' : schemaColumns (withColumns schema (columns ++ [column])) =
      columns.map ColumnDef.name ++ [column.name] := by
    rw [schemaColumns_withColumns, List.map_append]
    rfl
  have hcat := h.catalog_fits columns hdefs
  have hmem := h.mentions_mem hdefs
  have hindexes : (withColumns schema (columns ++ [column])).indexes = schema.indexes := rfl
  apply h.relayout hindexes
  · rw [hcols']
    have hconcat := List.Nodup.concat hnew (hcols ▸ h.columns_nodup)
    rwa [List.concat_eq_append] at hconcat
  · intro i hi
    apply indexExprOk_of_subset (mentions_ne_nil (h.exprs i hi))
    intro m hm
    rw [hcols']
    exact List.mem_append_left _ (hmem i hi m hm)
  · intro columns' hcolumns' cat hcat'
    rw [← Option.some.inj hcolumns', ← Option.some.inj hcat', List.length_append]
    exact hcat.current.addColumn default
  · intro p st hst columns' _
    obtain ⟨stored, hrow, hlen⟩ := ((h.row p st hst).fits columns hdefs).width
    exact ⟨stored, hrow, hlen.trans (Nat.le_succ _)⟩
  · intro p st hst i hi
    obtain ⟨values, hvalues, hlen⟩ := h.logical hdefs hst
    rw [((h.row p st hst).fits columns hdefs).toLogical_addColumn hcat default hvalues, hvalues,
      evalColumns_eq hdefs, evalColumns, hcols']
    apply indexBytes_congr hG (mentions_ne_nil (h.exprs i hi)) (hmem i hi)
    · exact fun m hm => List.mem_append_left _ (hmem i hi m hm)
    · intro m hm
      exact lookup_zip_append _ _ (hmem i hi m hm) hlen

theorem TableOk.dropColumn (hG : Lawful G) (h : TableOk schema catalog rows entries)
    (hdefs : schema.columnDefs = some columns) {i : ℕ} {column : ColumnDef G}
    (hi : columns[i]? = some column)
    (hunused : ∀ x ∈ schema.indexes, column.name ∉ G.mentions x.expr) :
    TableOk (withColumns schema (columns.eraseIdx i))
      (some ((catalog.getD (.identity columns.length)).dropColumn i)) rows entries := by
  obtain ⟨hlt, -⟩ := List.getElem?_eq_some_iff.mp hi
  have hcols := schemaColumns_eq hdefs
  have hcols' : schemaColumns (withColumns schema (columns.eraseIdx i)) =
      (columns.map ColumnDef.name).eraseIdx i := by
    rw [schemaColumns_withColumns, List.eraseIdx_map]
  have hcat := h.catalog_fits columns hdefs
  have hname : (columns.map ColumnDef.name)[i]? = some column.name := by
    rw [List.getElem?_map, hi]
    rfl
  have hne : ∀ x ∈ schema.indexes, ∀ m ∈ G.mentions x.expr,
      (columns.map ColumnDef.name)[i]? ≠ some m := by
    intro x hx m hm heq
    rw [hname, Option.some.injEq] at heq
    exact hunused x hx (heq ▸ hm)
  have hmem := h.mentions_mem hdefs
  have hmem' : ∀ x ∈ schema.indexes, ∀ m ∈ G.mentions x.expr,
      m ∈ (columns.map ColumnDef.name).eraseIdx i := by
    intro x hx m hm
    obtain ⟨j, hj⟩ := List.mem_iff_getElem?.mp (hmem x hx m hm)
    rw [List.mem_eraseIdx_iff_getElem?]
    refine ⟨j, ?_, hj⟩
    intro hji
    exact hne x hx m hm (hji ▸ hj)
  have hlen : (columns.eraseIdx i).length + 1 = columns.length := by
    rw [List.length_eraseIdx_of_lt hlt]
    omega
  have hindexes : (withColumns schema (columns.eraseIdx i)).indexes = schema.indexes := rfl
  apply h.relayout hindexes
  · rw [hcols']
    exact (hcols ▸ h.columns_nodup).sublist (List.eraseIdx_sublist ..)
  · intro x hx
    apply indexExprOk_of_subset (mentions_ne_nil (h.exprs x hx))
    rw [hcols']
    exact hmem' x hx
  · intro columns' hcolumns' cat hcat'
    rw [← Option.some.inj hcolumns', ← Option.some.inj hcat']
    have hfits := hcat.current
    rw [← hlen] at hfits ⊢
    exact hfits.dropColumn (hlen.symm ▸ hlt)
  · intro p st hst columns' _
    obtain ⟨stored, hrow, hwidth⟩ := ((h.row p st hst).fits columns hdefs).width
    exact ⟨stored, hrow, hwidth⟩
  · intro p st hst x hx
    obtain ⟨values, hvalues, -⟩ := h.logical hdefs hst
    rw [((h.row p st hst).fits columns hdefs).toLogical_dropColumn i hvalues, hvalues,
      evalColumns_eq hdefs, evalColumns, hcols']
    apply indexBytes_congr hG (mentions_ne_nil (h.exprs x hx)) (hmem x hx) (hmem' x hx)
    intro m hm
    exact lookup_zip_eraseIdx (hne x hx m hm)

theorem TableOk.renameColumn (hG : Lawful G) (h : TableOk schema catalog rows entries)
    (hdefs : schema.columnDefs = some columns) {old new : Name}
    (hnew : new ∉ columns.map ColumnDef.name)
    (hunused : ∀ x ∈ schema.indexes, old ∉ G.mentions x.expr) :
    TableOk (withColumns schema (renameFirst old new columns)) catalog rows entries := by
  have hcols := schemaColumns_eq hdefs
  have hcols' : schemaColumns (withColumns schema (renameFirst old new columns)) =
      (renameFirst old new columns).map ColumnDef.name :=
    schemaColumns_withColumns schema (renameFirst old new columns)
  have hmem := h.mentions_mem hdefs
  have hold : ∀ x ∈ schema.indexes, ∀ m ∈ G.mentions x.expr, m ≠ old :=
    fun x hx m hm heq => hunused x hx (heq ▸ hm)
  have hmem' : ∀ x ∈ schema.indexes, ∀ m ∈ G.mentions x.expr,
      m ∈ (renameFirst old new columns).map ColumnDef.name :=
    fun x hx m hm => mem_renameFirst (hmem x hx m hm) (hold x hx m hm)
  have hindexes : (withColumns schema (renameFirst old new columns)).indexes = schema.indexes := rfl
  apply h.relayout hindexes
  · rw [hcols']
    exact renameFirst_nodup (hcols ▸ h.columns_nodup) hnew
  · intro x hx
    apply indexExprOk_of_subset (mentions_ne_nil (h.exprs x hx))
    rw [hcols']
    exact hmem' x hx
  · intro columns' hcolumns'
    rw [← Option.some.inj hcolumns', renameFirst_length]
    exact h.catalog_fits columns hdefs
  · intro p st hst columns' hcolumns'
    rw [← Option.some.inj hcolumns', renameFirst_length]
    exact (h.row p st hst).fits columns hdefs
  · intro p st hst x hx
    obtain ⟨values, hvalues, -⟩ := h.logical hdefs hst
    rw [hvalues, evalColumns_eq hdefs, evalColumns, hcols']
    apply indexBytes_congr hG (mentions_ne_nil (h.exprs x hx)) (hmem x hx) (hmem' x hx)
    intro m hm
    exact lookup_zip_renameFirst (hold x hx m hm) fun heq => hnew (heq ▸ hmem x hx m hm)

theorem primaryKeyIndex_eq_none (hdefs : schema.columnDefs = some columns) :
    primaryKeyIndex schema = none ↔ ∀ d ∈ columns, d.primary = false := by
  rw [primaryKeyIndex, hdefs, Option.bind_some, List.findIdx?_eq_none_iff]

theorem primaryKeyIndex_withColumns : primaryKeyIndex (withColumns schema columns) = none ↔
    ∀ d ∈ columns, d.primary = false := primaryKeyIndex_eq_none rfl

end Columns

section AlterStatements

variable {c c' : Conn G} {t : Name} {schema schema' : Schema G} {id : UInt64}
  {catalog catalog' : Option (ColumnCatalog G)} {ws : Batch G}

/-- New records for a table over the same rows and entries. -/
theorem ConnAt.realter (h : ConnAt c t schema id catalog) (hbuf : Buffered c c' ws)
    (hother : ∀ k, k ≠ .schema t → k ≠ .metadata t → k ≠ .colcat t → k ≠ .uniqueidx t →
      c'.view.get k = c.view.get k)
    (hschema : readSchema c'.view t = some schema') (hname : schema'.tableName = t)
    (hok : TableOk schema' (readCatalog c'.view t) (readRow c.view id) (readEntry c.view id))
    (hpk : primaryKeyIndex schema' = none → primaryKeyIndex schema = none) : InTxn c' := by
  have hrows : readRow c'.view id = readRow c.view id :=
    funext fun p => hother (.row id p) (by simp) (by simp) (by simp) (by simp)
  have hentries : readEntry c'.view id = readEntry c.view id :=
    funext fun n => funext fun v => funext fun p =>
      hother (.indexEntry id n v p) (by simp) (by simp) (by simp) (by simp)
  refine ⟨h.ok.of_table h.table hbuf ?_ hschema hname ?_ ?_, hbuf.isSome⟩
  · intro k hk
    apply hother k <;> intro hkey <;> exact hk (hkey ▸ rfl)
  · rw [hrows, hentries]
    exact hok
  · intro hnone p st hst
    rw [hrows] at hst
    exact h.ok.viewKeys t schema id h.table.schema h.table.id (hpk hnone) p st hst

/-- The store with other records for a table. -/
structure Altered (s s' : Store G) (t : Name) (schema' : Schema G)
    (catalog' : Option (ColumnCatalog G)) : Prop where
  other : ∀ k, k ≠ .schema t → k ≠ .metadata t → k ≠ .colcat t → s'.get k = s.get k
  schema : readSchema s' t = some schema'
  catalog : readCatalog s' t = catalog'

theorem alterTable_altered (hc : c.txn.isSome = true) {cat : ColumnCatalog G}
    (hid : resolveTableId c.view t = some id) (hname : schema'.tableName = t) :
    Holds (do insertSchema schema'; writeKey (.colcat t) cat) c
      (fun _ c' => Altered c.view c'.view t schema' (some cat) ∧ ∃ ws, Buffered c c' ws)
      (fun _ c' => c' = c) := by
  subst t
  rw [Holds.bind_iff]
  apply (insertSchema_holds hc hid).mono
  · intro _ c1 ⟨ws, hws, hbuf⟩
    apply holds_writeKey hbuf.isSome
    intro c2 hbuf2
    have hview : c2.view = (c.view.commit ws).write (.put (.colcat schema'.tableName) cat) := by
      rw [hbuf2.view, hbuf.view]
      rfl
    refine ⟨?_, _, hbuf.trans hbuf2⟩
    rw [hview]
    constructor
    · intro k hk hmeta hcat
      rw [Kv.get_write_of_ne hcat, hws.other k hk hmeta]
    · rw [readSchema, Kv.get_write_of_ne (by simp)]
      exact hws.schema
    · exact Kv.get_write_put ..
  · exact fun _ _ hfail => hfail.1

theorem Altered.inTxn (halter : Altered c.view c'.view t schema' catalog')
    (h : ConnAt c t schema id catalog) (hbuf : Buffered c c' ws) (hname : schema'.tableName = t)
    (hok : TableOk schema' catalog' (readRow c.view id) (readEntry c.view id))
    (hpk : primaryKeyIndex schema' = none → primaryKeyIndex schema = none) : InTxn c' := by
  apply h.realter hbuf _ halter.schema hname _ hpk
  · exact fun k hk hmeta hcat _ => halter.other k hk hmeta hcat
  · rw [halter.catalog]
    exact hok

structure Named (s : Store G) : Prop where
  id : ∀ t schema, readSchema s t = some schema → ∃ id, resolveTableId s t = some id
  name : ∀ t schema, readSchema s t = some schema → schema.tableName = t

theorem Integrity.named {s : Store G} (h : Integrity s) : Named s where
  id t schema hschema := by
    obtain ⟨id, hat⟩ := h.tableAt hschema
    exact ⟨id, hat.id⟩
  name t schema hschema := (h.table t schema hschema).1

structure ColumnAdded (s s' : Store G) (t : Name) (column : ColumnDef G) (schema : Schema G)
    (columns : List (ColumnDef G)) (default : G.Value) : Prop where
  before : readSchema s t = some schema
  defs : schema.columnDefs = some columns
  new : column.name ∉ columns.map ColumnDef.name
  filled : (fillValue column : Except (Error G) G.Value) = .ok default
  altered : Altered s s' t (withColumns schema (columns ++ [column]))
    (some ((currentCatalog s t columns.length).addColumn default))

theorem addColumn_added (hc : c.txn.isSome = true) (hnamed : Named c.view) (column : ColumnDef G) :
    Holds (addColumn t column) c
      (fun _ c' => ∃ schema columns default,
        ColumnAdded c.view c'.view t column schema columns default
        ∧ ∃ ws, Buffered c c' ws)
      (fun _ c' => c' = c) := by
  unfold addColumn
  rw [Holds.bind_iff, Holds.get_iff]
  dsimp only
  cases hschema : readSchema c.view t with
  | none => rfl
  | some schema =>
    obtain ⟨id, hid⟩ := hnamed.id t schema hschema
    dsimp only
    rw [Holds.bind_iff]
    apply holds_ofExcept
    · intro default hdefault
      cases hdefs : schema.columnDefs with
      | none => rfl
      | some columns =>
        dsimp only
        split_ifs with hexists
        · rfl
        · have hnew : column.name ∉ columns.map ColumnDef.name := by
            intro hmem
            obtain ⟨d, hd, hname⟩ := List.mem_map.mp hmem
            exact hexists (List.any_eq_true.mpr ⟨d, hd, decide_eq_true hname⟩)
          have hname : (withColumns schema (columns ++ [column])).tableName = t :=
            hnamed.name t schema hschema
          apply (alterTable_altered hc hid hname).mono
          · intro _ c' ⟨halter, hbuf⟩
            exact ⟨schema, columns, default, ⟨hschema, hdefs, hnew, hdefault, halter⟩, hbuf⟩
          · exact fun _ _ hfail => hfail
    · intro e _
      rfl

theorem addColumn_holds (hG : Lawful G) (h : InTxn c) (column : ColumnDef G) :
    Holds (addColumn t column) c (fun _ c' => InTxn c')
      (fun _ c' => c' = c) := by
  apply (addColumn_added h.txn h.ok.view.named column).mono
  · intro _ c' ⟨schema, columns, default, hadded, ws, hbuf⟩
    obtain ⟨id, hat⟩ := h.connAt hadded.before
    have hname : schema.tableName = t := h.ok.view.tableName hat.table
    apply hadded.altered.inTxn hat hbuf hname
    · exact hat.tableOk.addColumn hG hadded.defs hadded.new default
    · rw [primaryKeyIndex_withColumns, primaryKeyIndex_eq_none hadded.defs]
      exact fun hnone d hd => hnone d (List.mem_append_left _ hd)
  · exact fun _ _ hfail => hfail

structure ColumnDropped (s s' : Store G) (t column : Name) (schema : Schema G)
    (columns : List (ColumnDef G)) (i : ℕ) (d : ColumnDef G) : Prop where
  before : readSchema s t = some schema
  defs : schema.columnDefs = some columns
  found : columns[i]? = some d
  name : d.name = column
  free : isKeyColumn s t d = false
  altered : Altered s s' t (withColumns schema (columns.eraseIdx i))
    (some ((currentCatalog s t columns.length).dropColumn i))

theorem dropColumn_dropped (hc : c.txn.isSome = true) (hnamed : Named c.view) (column : Name)
    (ifExists : Bool) :
    Holds (dropColumn t column ifExists) c
      (fun _ c' => (c' = c ∧ ifExists = true ∧ ∃ schema columns,
          readSchema c.view t = some schema ∧ schema.columnDefs = some columns) ∨
        ∃ schema columns i d,
          ColumnDropped c.view c'.view t column schema columns i d ∧ ∃ ws, Buffered c c' ws)
      (fun _ c' => c' = c) := by
  unfold dropColumn
  rw [Holds.bind_iff, Holds.get_iff]
  dsimp only
  cases hschema : readSchema c.view t with
  | none => rfl
  | some schema =>
    obtain ⟨id, hid⟩ := hnamed.id t schema hschema
    dsimp only
    cases hdefs : schema.columnDefs with
    | none => rfl
    | some columns =>
      dsimp only
      cases hfind : columns.findIdx? fun d => d.name = column with
      | none =>
        dsimp only
        split_ifs with hif
        · exact Or.inl ⟨rfl, hif, schema, columns, rfl, hdefs⟩
        · rfl
      | some i =>
        dsimp only
        split_ifs with hkey
        · rfl
        · obtain ⟨hlt, hcolumn, -⟩ := List.findIdx?_eq_some_iff_getElem.mp hfind
          have hi : columns[i]? = some columns[i] := List.getElem?_eq_getElem hlt
          have hfree : isKeyColumn c.view t columns[i] = false := by
            rw [hi, Option.any_some] at hkey
            exact Bool.not_eq_true _ ▸ hkey
          have hname : (withColumns schema (columns.eraseIdx i)).tableName = t :=
            hnamed.name t schema hschema
          apply (alterTable_altered hc hid hname).mono
          · intro _ c' ⟨halter, hbuf⟩
            exact Or.inr ⟨schema, columns, i, columns[i],
              ⟨hschema, hdefs, hi, of_decide_eq_true hcolumn, hfree, halter⟩, hbuf⟩
          · exact fun _ _ hfail => hfail

theorem dropColumn_holds (hG : Lawful G) (h : InTxn c) {column : Name} {ifExists : Bool}
    (hunused : ∀ schema, readSchema c.view t = some schema →
      ∀ x ∈ schema.indexes, column ∉ G.mentions x.expr) :
    Holds (dropColumn t column ifExists) c (fun _ c' => InTxn c') (fun _ c' => c' = c) := by
  apply (dropColumn_dropped h.txn h.ok.view.named column ifExists).mono
  · intro _ c' hcases
    rcases hcases with ⟨hsame, -⟩ | ⟨schema, columns, i, d, hdropped, ws, hbuf⟩
    · exact hsame ▸ h
    · obtain ⟨id, hat⟩ := h.connAt hdropped.before
      have hname : schema.tableName = t := h.ok.view.tableName hat.table
      apply hdropped.altered.inTxn hat hbuf hname
      · exact hat.tableOk.dropColumn hG hdropped.defs hdropped.found
          (hdropped.name ▸ hunused schema hdropped.before)
      · rw [primaryKeyIndex_withColumns, primaryKeyIndex_eq_none hdropped.defs]
        intro hnone d' hd'
        obtain ⟨j, hj⟩ := List.mem_iff_getElem?.mp hd'
        by_cases hji : j = i
        · rw [hji, hdropped.found, Option.some.injEq] at hj
          subst d'
          have hfree := hdropped.free
          simp only [isKeyColumn, Bool.or_eq_false_iff] at hfree
          exact hfree.1.1
        · exact hnone d' (List.mem_eraseIdx_iff_getElem?.mpr ⟨j, hji, hj⟩)
  · exact fun _ _ hfail => hfail

structure ColumnRenamed (s s' : Store G) (t old new : Name) (schema : Schema G)
    (columns : List (ColumnDef G)) : Prop where
  before : readSchema s t = some schema
  defs : schema.columnDefs = some columns
  fresh : new ∉ columns.map ColumnDef.name
  altered : Altered s s' t (withColumns schema (renameFirst old new columns)) (readCatalog s t)

theorem renameColumn_renamed (hc : c.txn.isSome = true) (hnamed : Named c.view) (old new : Name) :
    Holds (renameColumn t old new) c
      (fun _ c' => ∃ schema columns, ColumnRenamed c.view c'.view t old new schema columns ∧
        ∃ ws, Buffered c c' ws)
      (fun _ c' => c' = c) := by
  unfold renameColumn
  rw [Holds.bind_iff, Holds.get_iff]
  cases hschema : readSchema c.view t with
  | none => rfl
  | some schema =>
    obtain ⟨id, hid⟩ := hnamed.id t schema hschema
    have hname := hnamed.name t schema hschema
    dsimp only
    cases hdefs : schema.columnDefs with
    | none => rfl
    | some columns =>
      dsimp only
      split_ifs with hexists hold
      · rfl
      · have hnew : new ∉ columns.map ColumnDef.name := by
          intro hmem
          obtain ⟨d, hd, hname⟩ := List.mem_map.mp hmem
          exact hexists (List.any_eq_true.mpr ⟨d, hd, decide_eq_true hname⟩)
        have hid' : resolveTableId c.view
            (withColumns schema (renameFirst old new columns)).tableName =
            some id := by
          rw [← hid]
          exact congrArg _ hname
        apply (insertSchema_holds hc hid').mono
        · intro _ c1 ⟨ws, hws, hbuf⟩
          refine ⟨schema, columns, ⟨hschema, hdefs, hnew, ?_⟩, ws, hbuf⟩
          rw [hbuf.view]
          constructor
          · intro k hk hmeta _
            exact hws.other k (fun heq => hk (heq.trans (congrArg _ hname)))
              (fun heq => hmeta (heq.trans (congrArg _ hname)))
          · rw [← hname]
            exact hws.schema
          · exact hws.other (.colcat t) (by simp) (by simp)
        · exact fun _ _ hfail => hfail.1
      · rfl

theorem renameColumn_holds (hG : Lawful G) (h : InTxn c) {old new : Name}
    (hunused : ∀ schema, readSchema c.view t = some schema →
      ∀ x ∈ schema.indexes, old ∉ G.mentions x.expr) :
    Holds (renameColumn t old new) c (fun _ c' => InTxn c') (fun _ c' => c' = c) := by
  apply (renameColumn_renamed h.txn h.ok.view.named old new).mono
  · intro _ c' ⟨schema, columns, hrenamed, ws, hbuf⟩
    obtain ⟨id, hat⟩ := h.connAt hrenamed.before
    have hname : schema.tableName = t := h.ok.view.tableName hat.table
    apply hrenamed.altered.inTxn hat hbuf hname
    · exact hat.tableOk.renameColumn hG hrenamed.defs hrenamed.fresh
        (hunused schema hrenamed.before)
    · rw [primaryKeyIndex_withColumns, primaryKeyIndex_eq_none hrenamed.defs]
      exact renameFirst_primary
  · exact fun _ _ hfail => hfail

end AlterStatements

end BlueDB.Sql
