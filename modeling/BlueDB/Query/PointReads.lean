import BlueDB.Query.Opened

/-!
# Point reads

A point read finds the row under the key of the literal. It answers a query whose
primary-key filters all name that key, unless the row that the query asks for is stored
under a key of another type.
-/

namespace BlueDB.Query

open Sql Lakehouse LakehouseWriter

variable {G : Engine} {C : Crates} {R : Reading G} {L : Literals R}

def DataFusion.meets (D : DataFusion) (filters : List Expr) (row : Row) : Bool :=
  filters.all fun f => D.holds f row

/-- The filters that the query engine applies again. -/
def Provider.unsupported (L : Literals R) (p : Provider) (filters : List Expr) : List Expr :=
  filters.filter fun f => !p.isExact L f

/-- The key stands for the cell in a primary-key column of the type. -/
def KeyOf (L : Literals R) (pkType : ArrowType) (c : Cell) (key : G.Key) : Prop :=
  (pkType = .int64 ∧ ∃ n : I64, c = .int n ∧ key = L.i64 n) ∨
    (pkType = .utf8 ∧ ∃ s, c = .text s ∧ key = L.str s)

theorem KeyOf.unique {pkType : ArrowType} {c c' : Cell} {key : G.Key} (h : KeyOf L pkType c key)
    (h' : KeyOf L pkType c' key) : c = c' := by
  rcases h with ⟨rfl, n, rfl, rfl⟩ | ⟨rfl, s, rfl, rfl⟩
  · rcases h' with ⟨-, m, rfl, heq⟩ | ⟨htype, -⟩
    · have hkey : Key.i64 n = Key.i64 m := by rw [← L.key_i64, ← L.key_i64, heq]
      rw [Key.i64.inj hkey]
    · cases htype
  · rcases h' with ⟨htype, -⟩ | ⟨-, s', rfl, heq⟩
    · cases htype
    · have hkey : Key.str s = Key.str s' := by rw [← L.key_str, ← L.key_str, heq]
      rw [Key.str.inj hkey]

theorem KeyOf.key_unique {pkType : ArrowType} {c : Cell} {key key' : G.Key}
    (h : KeyOf L pkType c key) (h' : KeyOf L pkType c key') : key = key' := by
  rcases h with ⟨rfl, n, rfl, rfl⟩ | ⟨rfl, s, rfl, rfl⟩
  · rcases h' with ⟨-, m, heq, rfl⟩ | ⟨htype, -⟩
    · rw [Subtype.ext (Cell.int.inj heq)]
    · cases htype
  · rcases h' with ⟨htype, -⟩ | ⟨-, s', heq, rfl⟩
    · cases htype
    · rw [Cell.text.inj heq]

theorem keyOf_of_literalKey {pkType : ArrowType} {v : ScalarValue} {key : G.Key}
    (h : literalKey L pkType v = some key) : ∃ c, v.cell = some c ∧ KeyOf L pkType c key := by
  unfold literalKey at h
  split at h
  · exact ⟨_, rfl, .inl ⟨rfl, _, rfl, (Option.some.inj h).symm⟩⟩
  · exact ⟨_, rfl, .inr ⟨rfl, _, rfl, (Option.some.inj h).symm⟩⟩
  · cases h

theorem literal_of_pkEqKey {pkName : Name} {pkType : ArrowType} {f : Expr} {key : G.Key}
    (h : pkEqKey L pkName pkType f = some key) : ∃ v c, v.cell = some c ∧ KeyOf L pkType c key ∧
      (f = .binary (.column pkName) .eq (.literal v) ∨
        f = .binary (.literal v) .eq (.column pkName)) := by
  unfold pkEqKey at h
  split at h
  · next name v =>
    split_ifs at h with hname
    obtain ⟨c, hc, hkey⟩ := keyOf_of_literalKey h
    exact ⟨v, c, hc, hkey, .inl (hname ▸ rfl)⟩
  · next v name =>
    split_ifs at h with hname
    obtain ⟨c, hc, hkey⟩ := keyOf_of_literalKey h
    exact ⟨v, c, hc, hkey, .inr (hname ▸ rfl)⟩
  · cases h

theorem holds_of_pkEqKey (D : DataFusion) {pkName : Name} {pkType : ArrowType} {f : Expr}
    {key : G.Key} (h : pkEqKey L pkName pkType f = some key) :
    ∃ c, KeyOf L pkType c key ∧ ∀ row, D.holds f row = true ↔ row.cell pkName = some c := by
  obtain ⟨v, c, hc, hkey, rfl | rfl⟩ := literal_of_pkEqKey h
  · exact ⟨c, hkey, fun row => D.column_eq pkName v c row hc⟩
  · exact ⟨c, hkey, fun row => D.literal_eq pkName v c row hc⟩

theorem recordBatch_eq_ok {w : LakehouseWriter} {rows : List (G.Key × DataRow G.Value)}
    {batch : RecordBatch} (h : recordBatch C R w rows = .ok batch) :
    batch.fields = w.metadata.schema.fields ∧
      batch.rows = rows.map (fun q => rowCells C R w.metadata.schema.fields q.2) ∧
      Filled C R w.metadata.schema.fields (rows.map Prod.snd) := by
  unfold recordBatch at h
  rw [bind_eq_ok] at h
  obtain ⟨files, hfiles, h⟩ := h
  obtain ⟨-, hfilled, rfl⟩ := rowsToRecordBatch_eq_ok.mp hfiles
  cases h
  refine ⟨rfl, ?_, hfilled⟩
  dsimp only
  rw [List.map_map, List.map_map]
  rfl

namespace Opened

variable {site : Site G} {p : Provider} {columns : List (ColumnDef G)} {pk : ℕ} {m : TableMetadata}

theorem fieldNames_nodup (h : Opened site p columns pk m) :
    (m.schema.fields.map Field.name).Nodup := by
  rw [h.fieldNames]
  exact h.names

theorem idxOf_name (h : Opened site p columns pk m) {i : ℕ} {f : Field}
    (hf : m.schema.fields[i]? = some f) : (columns.map ColumnDef.name).idxOf f.name = i := by
  have hname : (m.schema.fields.map Field.name)[i]? = some f.name := by
    rw [List.getElem?_map, hf]
    rfl
  obtain ⟨hlt, hget⟩ := List.getElem?_eq_some_iff.mp hname
  rw [← h.fieldNames, ← hget]
  exact h.fieldNames_nodup.idxOf_getElem i hlt

theorem selectColumns_zip (h : Opened site p columns pk m) {cells : List (Option Cell)}
    {g : Field → Option Cell}
    (hcells : ∀ (i : ℕ) f, m.schema.fields[i]? = some f → cells[i]? = some (g f)) :
    Provider.selectColumns (p.wanted none) ((m.schema.fields.map Field.name).zip cells) =
      p.schema.map fun f => (f.name, g f) := by
  unfold Provider.selectColumns Provider.wanted
  dsimp only
  rw [List.map_map]
  apply List.map_congr_left
  intro f hf
  rw [h.fields] at hf
  obtain ⟨i, hi⟩ := List.mem_iff_getElem?.mp (List.mem_of_mem_filter hf)
  have hname : (m.schema.fields.map Field.name)[i]? = some f.name := by
    rw [List.getElem?_map, hi]
    rfl
  have hlookup := lookup_zip h.fieldNames_nodup hname (hcells i f hi)
  simp only [Function.comp_apply, Row.cell, hlookup, Option.getD_some]

theorem selectColumns_row (h : Opened site p columns pk m) (row : DataRow G.Value) :
    Provider.selectColumns (p.wanted none)
      ((m.schema.fields.map Field.name).zip (rowCells C R m.schema.fields row)) =
      p.currentRow C R columns row := by
  apply h.selectColumns_zip
  intro i f hf
  rw [rowCells_getElem hf, h.idxOf_name hf]

theorem cell_pkName (h : Opened site p columns pk m) (hpk : p.pkName ≠ surrogatePk)
    (g : Field → Option Cell) : ∃ f, m.schema.fields[pk]? = some f ∧ f.name = p.pkName ∧
      p.pkType = arrowType f.fieldType ∧ f.required = true ∧
      Row.cell (p.schema.map fun f => (f.name, g f)) p.pkName = g f := by
  obtain ⟨f, hf, hname, htype, hrequired⟩ := h.key
  refine ⟨f, hf, hname, htype, hrequired, ?_⟩
  have hmem : f ∈ p.schema := by
    rw [h.fields, List.mem_filter]
    exact ⟨List.mem_of_getElem? hf, by simpa [hname] using hpk⟩
  obtain ⟨j, hj⟩ := List.mem_iff_getElem?.mp hmem
  have hnodup : (p.schema.map Field.name).Nodup := by
    rw [h.fields]
    exact h.fieldNames_nodup.sublist (List.filter_sublist.map _)
  have hfield : (p.schema.map Field.name)[j]? = some f.name := by
    rw [List.getElem?_map, hj]
    rfl
  have hcell : (p.schema.map g)[j]? = some (g f) := by
    rw [List.getElem?_map, hj]
    rfl
  unfold Row.cell
  rw [← List.zip_map', ← hname, lookup_zip hnodup hfield hcell, Option.getD_some]

theorem currentRow_key (h : Opened site p columns pk m) (hpk : p.pkName ≠ surrogatePk)
    (row : DataRow G.Value) : (p.currentRow C R columns row).cell p.pkName =
      arrowCell C.rescale p.pkType (cellValue R row pk) := by
  obtain ⟨f, hf, -, htype, -, hcell⟩ := h.cell_pkName hpk fun f =>
    arrowCell C.rescale (arrowType f.fieldType)
      (cellValue R row ((columns.map ColumnDef.name).idxOf f.name))
  unfold Provider.currentRow
  rw [hcell, htype, h.idxOf_name hf]

theorem pkName_ne (h : Opened site p columns pk m) (hshown : p.schema = m.schema.fields) :
    p.pkName ≠ surrogatePk := by
  obtain ⟨f, hf, hname, -⟩ := h.key
  have hmem : f ∈ p.schema := hshown ▸ List.mem_of_getElem? hf
  rw [h.fields, List.mem_filter] at hmem
  rw [← hname]
  exact of_decide_eq_true hmem.2

theorem recordBatchForPk_returns (h : Opened site p columns pk m) {key : G.Key} {site' : Site G}
    {batch : RecordBatch} (hread : recordBatchForPk C R p.table key site = .ok batch site') :
    ∃ found, fetchData site.writer.live p.table key = .ok found ∧
      batch.fields = m.schema.fields ∧
      batch.rows = found.toList.map (rowCells C R m.schema.fields) ∧
      Filled C R m.schema.fields found.toList := by
  unfold recordBatchForPk at hread
  obtain ⟨_, _, hget, h₁⟩ := bind_returns_iff.mp hread
  obtain ⟨rfl, rfl⟩ := get_returns_iff.mp hget
  obtain ⟨schema, _, hfetch, h₂⟩ := bind_returns_iff.mp h₁
  obtain ⟨hschema, rfl⟩ := ofExcept_returns_iff.mp hfetch
  obtain ⟨found, _, hrow, h₃⟩ := bind_returns_iff.mp h₂
  obtain ⟨hfound, rfl⟩ := ofExcept_returns_iff.mp hrow
  obtain ⟨w, _, hw, h₄⟩ := bind_returns_iff.mp h₃
  obtain ⟨rfl, -, rfl⟩ := h.reopen (fetchSchema_eq_ok.mp hschema) hw
  obtain ⟨hfields, hrows, hfilled⟩ := recordBatch_eq_ok (ofExcept_returns_iff.mp h₄).1
  rw [List.map_map] at hrows hfilled
  refine ⟨found, mapError_eq_ok.mp hfound, hfields, hrows, ?_⟩
  have hsnd : (Prod.snd ∘ fun r : DataRow G.Value => (key, r)) = id := rfl
  rw [hsnd, List.map_id] at hfilled
  exact hfilled

end Opened

/-- The primary-key column holds values of its type, and a row is stored under the key of
its value. -/
structure Keyed (R : Reading G) (dt : DataType) (pk : ℕ) (data : List (G.Key × DataRow G.Value)) :
    Prop where
  typed : ∀ q ∈ data, HasType dt (cellValue R q.2 pk) = true
  key : ∀ q ∈ data, ∀ k, keyOfValue (cellValue R q.2 pk) = some k → R.key q.1 = k

section

variable {s : Store G} {t : Name} {schema : Schema G} {id : UInt64}
  {catalog : Option (ColumnCatalog G)} {key : G.Key} {row : DataRow G.Value}

theorem fetchData_of_mem (hI : Integrity s) (hat : TableAt s t schema id catalog)
    (hmem : (key, row) ∈ logicalRows s catalog (scanTable s id)) :
    fetchData s t key = .ok (some row) := by
  obtain ⟨b, st, hst, heq⟩ := mem_logicalRows_scanTable.mp hmem
  obtain ⟨rfl, rfl⟩ := Prod.mk.inj heq
  rw [fetchData_eq hat ((hI.tableOk hat).row b st hst).key, hst]
  rfl

theorem stored_of_fetchData (hI : Integrity s) (hat : TableAt s t schema id catalog)
    (hfetch : fetchData s t key = .ok (some row)) :
    ∃ k b, (k, row) ∈ logicalRows s catalog (scanTable s id) ∧ G.toCmpBeBytes k = .ok b ∧
      G.toCmpBeBytes key = .ok b := by
  cases hb : (keyBytes key : Except (Error G) (List UInt8)) with
  | error e =>
    unfold fetchData at hfetch
    rw [hat.tableId, hb] at hfetch
    cases hfetch
  | ok b =>
    rw [fetchData_eq hat hb] at hfetch
    obtain ⟨st, hst, rfl⟩ := Option.map_eq_some_iff.mp (Except.ok.inj hfetch)
    exact ⟨st.key, b, mem_logicalRows_scanTable.mpr ⟨b, st, hst, rfl⟩,
      keyBytes_eq_ok.mp ((hI.tableOk hat).row b st hst).key, keyBytes_eq_ok.mp hb⟩

theorem keyOfValue_of_toI64 {v : Value} (h : (toI64 v).isSome = true) :
    ∃ k, keyOfValue v = some k := by
  cases v <;> first
    | exact ⟨_, rfl⟩
    | cases h

/-- A row whose key column has a cell of the literal's type, stored under the bytes of
the literal's key, has that key, and its cell is the literal's. -/
theorem key_of_bytes {rescale : Decimal → ℕ → Decimal} {pkType : ArrowType} {c : Cell} {v : Value}
    {k : G.Key} {b : List UInt8} (hkey : KeyOf L pkType c key)
    (hvalue : ∀ k', keyOfValue v = some k' → R.key k = k')
    (hcell : (arrowCell rescale pkType v).isSome = true) (hk : G.toCmpBeBytes k = .ok b)
    (hb : G.toCmpBeBytes key = .ok b) : k = key ∧ arrowCell rescale pkType v = some c := by
  rcases hkey with ⟨rfl, n, rfl, rfl⟩ | ⟨rfl, s, rfl, rfl⟩
  · have hnumber : (toI64 v).isSome = true := by simpa [arrowCell] using hcell
    obtain ⟨k', hk'⟩ := keyOfValue_of_toI64 hnumber
    have hread : keyToValue (R.key k) = v := by
      rw [hvalue k' hk', keyToValue_of_keyOfValue hk']
    have hi64 := L.i64_bytes (hread.symm ▸ hnumber) hk hb
    obtain rfl : v = .i64 n := by
      rw [← hread, hi64]
      rfl
    exact ⟨R.key_inj (hi64.trans (L.key_i64 n).symm), rfl⟩
  · obtain ⟨s', rfl⟩ : ∃ s', v = .str s' := by
      cases v <;> first
        | exact ⟨_, rfl⟩
        | cases hcell
    have hstr := hvalue _ rfl
    have hsame : k = L.str s := @Lakehouse.Reading.bytes_inj _ R .text (.str s') (.str s) _ _ _
      rfl rfl rfl (congrArg some hstr.symm) (congrArg some (L.key_str s).symm) hk hb
    subst hsame
    rw [L.key_str] at hstr
    rw [Key.str.inj hstr]
    exact ⟨rfl, rfl⟩

theorem key_of_cell {rescale : Decimal → ℕ → Decimal} {pkType : ArrowType} {dt : DataType}
    {c : Cell}
    {v v' : Value} {k : G.Key} (hkey : KeyOf L pkType c key) (hv : HasType dt v = true)
    (hv' : HasType dt v' = true) (hvalue : ∀ k', keyOfValue v = some k' → R.key key = k')
    (hvalue' : ∀ k', keyOfValue v' = some k' → R.key k = k')
    (hc : arrowCell rescale pkType v = some c) (hc' : arrowCell rescale pkType v' = some c) :
    k = key := by
  rcases hkey with ⟨rfl, n, rfl, rfl⟩ | ⟨rfl, s, rfl, rfl⟩
  · have hnumber : (toI64 v).isSome = true := by
      rw [← Option.isSome_map (f := Cell.int)]
      exact Option.isSome_iff_exists.mpr ⟨_, hc⟩
    obtain ⟨k', hk'⟩ := keyOfValue_of_toI64 hnumber
    have hi64 : v = .i64 n := by
      have heq := hvalue k' hk'
      rw [L.key_i64] at heq
      rw [← keyToValue_of_keyOfValue hk', ← heq]
      rfl
    subst hi64
    obtain rfl : dt = .int := by
      cases dt <;> first
        | rfl
        | exact absurd hv Bool.false_ne_true
    have hi64' : v' = .i64 n := by
      cases v' <;> first
        | exact absurd hv' Bool.false_ne_true
        | exact absurd hc' (Option.some_ne_none _).symm
        | exact congrArg Value.i64 (Cell.int.inj (Option.some.inj hc'))
    subst hi64'
    exact R.key_inj ((hvalue' _ rfl).trans (L.key_i64 n).symm)
  · have hstr : v' = .str s := by
      cases v' <;> first
        | exact absurd hc' (Option.some_ne_none _).symm
        | exact congrArg Value.str (Cell.text.inj (Option.some.inj hc'))
    subst hstr
    exact R.key_inj ((hvalue' _ rfl).trans (L.key_str s).symm)

end

/-- The rows that meet the filters are stored under the key, and the filters name no
other key; they may if no row under the key meets the other filters. -/
structure PointFits (D : DataFusion) (L : Literals R) (p : Provider) (filters : List Expr)
    (key : G.Key) (data : List (G.Key × DataRow G.Value)) (shown : DataRow G.Value → Row) :
      Prop where
  sameType : ∀ q ∈ data, D.meets filters (shown q.2) = true → q.1 = key
  agree : (∀ f ∈ filters, ∀ k, pkEqKey L p.pkName p.pkType f = some k → k = key) ∨
    ∀ q ∈ data, q.1 = key → D.meets (p.unsupported L filters) (shown q.2) = false

theorem meets_iff (D : DataFusion) (p : Provider) (filters : List Expr) (row : Row) :
    D.meets filters row = true ↔ D.meets (p.unsupported L filters) row = true ∧
      ∀ f ∈ filters, p.isExact L f = true → D.holds f row = true := by
  unfold DataFusion.meets Provider.unsupported
  simp only [List.all_eq_true, List.mem_filter, Bool.not_eq_eq_eq_not, Bool.not_true, and_imp]
  constructor
  · intro h
    exact ⟨fun f hf _ => h f hf, fun f hf _ => h f hf⟩
  · rintro ⟨hother, hexact⟩ f hf
    by_cases he : p.isExact L f = true
    · exact hexact f hf he
    · exact hother f hf (by simpa using he)

section

variable {site site' : Site G} {p : Provider} {columns : List (ColumnDef G)} {pk : ℕ}
  {m : TableMetadata} {filters : List Expr} {key : G.Key} {answer : List Row}

theorem scan_point (h : Opened site p columns pk m)
    (hfirst : filters.findSome? (pkEqKey L p.pkName p.pkType) = some key)
    (hscan : p.scan C L none filters none site = .ok answer site') :
    p.schema = m.schema.fields ∧ ∃ found, fetchData site.writer.live p.table key = .ok found ∧
      answer = found.toList.map (p.currentRow C R columns) ∧
      Filled C R m.schema.fields found.toList := by
  unfold Provider.scan at hscan
  rw [hfirst] at hscan
  dsimp only at hscan
  obtain ⟨batch, s₁, hread, h₁⟩ := bind_returns_iff.mp hscan
  obtain ⟨found, hfetch, hfields, hrows, hfilled⟩ :=
    h.recordBatchForPk_returns (engine_returns_iff.mp hread)
  by_cases hschema : batch.fields = p.schema
  · rw [if_neg (not_not.mpr hschema)] at h₁
    refine ⟨hschema.symm.trans hfields, found, hfetch, ?_, hfilled⟩
    cases h₁
    unfold RecordBatch.named
    rw [hrows, hfields, List.map_map, List.map_map]
    apply List.map_congr_left
    intro row _
    exact h.selectColumns_row row
  · rw [if_pos hschema] at h₁
    cases h₁

theorem filter_eq_singleton {α : Type} {l : List α} {P : α → Bool} {a : α} (hl : l.Nodup)
    (ha : a ∈ l) (hP : P a = true) (honly : ∀ x ∈ l, P x = true → x = a) : l.filter P = [a] := by
  apply List.perm_singleton.mp
  rw [List.perm_ext_iff_of_nodup (hl.filter P) (List.nodup_singleton a)]
  intro x
  rw [List.mem_filter, List.mem_singleton]
  constructor
  · rintro ⟨hx, hPx⟩
    exact honly x hx hPx
  · rintro rfl
    exact ⟨ha, hP⟩

structure PointRead (L : Literals R) (p : Provider) (key : G.Key) (c : Cell)
    (data : List (G.Key × DataRow G.Value)) (shown : DataRow G.Value → Row)
    (found : Option (DataRow G.Value)) : Prop where
  keyOf : KeyOf L p.pkType c key
  nodup : data.Nodup
  mem : ∀ row, found = some row → (key, row) ∈ data
  cell : ∀ row, found = some row → (shown row).cell p.pkName = some c
  finds : ∀ row, (key, row) ∈ data → found = some row
  sameKey : ∀ row, found = some row → ∀ q ∈ data, (shown q.2).cell p.pkName = some c → q.1 = key

namespace PointRead

variable {D : DataFusion} {c : Cell} {data : List (G.Key × DataRow G.Value)}
  {shown : DataRow G.Value → Row} {found : Option (DataRow G.Value)}

theorem meets_of_agree (h : PointRead L p key c data shown found)
    (hagree : ∀ f ∈ filters, ∀ k, pkEqKey L p.pkName p.pkType f = some k → k = key)
    {row : DataRow G.Value} (hrow : found = some row) :
    D.meets filters (shown row) = true ↔
      D.meets (p.unsupported L filters) (shown row) = true := by
  rw [meets_iff (L := L)]
  refine ⟨fun hboth => hboth.1, fun hother => ⟨hother, ?_⟩⟩
  intro f hf he
  obtain ⟨k, hk⟩ := Option.isSome_iff_exists.mp he
  obtain ⟨c', hkey', hholds⟩ := holds_of_pkEqKey D hk
  rw [hagree f hf k hk] at hkey'
  rw [hholds, h.cell row hrow, h.keyOf.unique hkey']

theorem agree_of_meets (h : PointRead L p key c data shown found) {row : DataRow G.Value}
    (hrow : found = some row) (hmeets : D.meets filters (shown row) = true) :
    ∀ f ∈ filters, ∀ k, pkEqKey L p.pkName p.pkType f = some k → k = key := by
  intro f hf k hk
  obtain ⟨c', hkey', hholds⟩ := holds_of_pkEqKey D hk
  have hcell := (hholds (shown row)).mp (List.all_eq_true.mp hmeets f hf)
  rw [h.cell row hrow] at hcell
  obtain rfl := Option.some.inj hcell
  exact hkey'.key_unique h.keyOf

theorem cell_of_meets (h : PointRead L p key c data shown found)
    (hfirst : filters.findSome? (pkEqKey L p.pkName p.pkType) = some key) {row : Row}
    (hmeets : D.meets filters row = true) : row.cell p.pkName = some c := by
  obtain ⟨f, hf, hkey⟩ := List.exists_of_findSome?_eq_some hfirst
  obtain ⟨c', hkey', hholds⟩ := holds_of_pkEqKey D hkey
  rw [(hholds row).mp (List.all_eq_true.mp hmeets f hf), h.keyOf.unique hkey']

theorem fits_of_perm (h : PointRead L p key c data shown found)
    (hfirst : filters.findSome? (pkEqKey L p.pkName p.pkType) = some key)
    (hperm : ((found.toList.map shown).filter (D.meets (p.unsupported L filters))).Perm
      ((data.map fun q => shown q.2).filter (D.meets filters))) :
    PointFits D L p filters key data shown := by
  constructor
  · intro q hq hmeets
    have hanswered : shown q.2 ∈
        (found.toList.map shown).filter (D.meets (p.unsupported L filters)) :=
      hperm.mem_iff.mpr (List.mem_filter.mpr ⟨List.mem_map_of_mem hq, hmeets⟩)
    obtain ⟨row, hrow, -⟩ := List.mem_map.mp (List.mem_of_mem_filter hanswered)
    exact h.sameKey row (Option.mem_toList.mp hrow) q hq (h.cell_of_meets hfirst hmeets)
  · by_cases hagree : ∀ f ∈ filters, ∀ k, pkEqKey L p.pkName p.pkType f = some k → k = key
    · exact .inl hagree
    · refine .inr fun q hq hkey => ?_
      by_contra hother
      obtain ⟨k, row⟩ := q
      obtain rfl : k = key := hkey
      have hrow := h.finds row hq
      have hcurrent : shown row ∈ (data.map fun q => shown q.2).filter (D.meets filters) := by
        apply hperm.mem_iff.mp
        rw [hrow]
        exact List.mem_filter.mpr ⟨List.mem_map_of_mem (List.mem_singleton_self row),
          by simpa using hother⟩
      exact hagree (h.agree_of_meets hrow (List.mem_filter.mp hcurrent).2)

theorem perm_of_fits (h : PointRead L p key c data shown found)
    (hfits : PointFits D L p filters key data shown) :
    ((found.toList.map shown).filter (D.meets (p.unsupported L filters))).Perm
      ((data.map fun q => shown q.2).filter (D.meets filters)) := by
  have honly : ∀ q ∈ data, D.meets filters (shown q.2) = true → found = some q.2 := by
    rintro ⟨k, row⟩ hq hmeets
    obtain rfl : k = key := hfits.sameType _ hq hmeets
    exact h.finds row hq
  have hcurrent : (data.map fun q => shown q.2).filter (D.meets filters) =
      (data.filter (D.meets filters ∘ fun q => shown q.2)).map fun q => shown q.2 :=
    List.filter_map
  rw [hcurrent]
  cases hfound : found with
  | none =>
    have hnone : data.filter (D.meets filters ∘ fun q => shown q.2) = [] := by
      rw [List.filter_eq_nil_iff]
      intro q hq hmeets
      have hsome := honly q hq hmeets
      rw [hfound] at hsome
      cases hsome
    rw [hnone]
    exact .refl _
  | some row =>
    have hmem := h.mem row hfound
    have hsame : D.meets filters (shown row) = D.meets (p.unsupported L filters) (shown row) := by
      rcases hfits.agree with hagree | hother
      · exact Bool.eq_iff_iff.mpr (h.meets_of_agree hagree hfound)
      · rw [hother _ hmem rfl, ← Bool.not_eq_true]
        intro hmeets
        have hboth := ((meets_iff (L := L) D p filters (shown row)).mp hmeets).1
        rw [hother _ hmem rfl] at hboth
        cases hboth
    by_cases hmeets : D.meets filters (shown row) = true
    · have hfilter : data.filter (D.meets filters ∘ fun q => shown q.2) = [(key, row)] := by
        apply filter_eq_singleton h.nodup hmem hmeets
        rintro ⟨k, row'⟩ hq hmeets'
        obtain rfl : k = key := hfits.sameType _ hq hmeets'
        have hrow := h.finds row' hq
        rw [hfound] at hrow
        rw [Option.some.inj hrow]
      rw [hfilter]
      change ([shown row].filter _).Perm [shown row]
      rw [List.filter_cons_of_pos (hsame ▸ hmeets), List.filter_nil]
    · have hfilter : data.filter (D.meets filters ∘ fun q => shown q.2) = [] := by
        rw [List.filter_eq_nil_iff]
        intro q hq hmeets'
        have hrow := honly q hq hmeets'
        rw [hfound] at hrow
        rw [Option.some.inj hrow] at hmeets
        exact hmeets hmeets'
      rw [hfilter]
      change ([shown row].filter _).Perm []
      rw [List.filter_cons_of_neg (hsame ▸ hmeets), List.filter_nil]

end PointRead

theorem pointRead_of_scan (h : Opened site p columns pk m) (hI : Integrity site.writer.live)
    {schema : Schema G} {id : UInt64} {catalog : Option (ColumnCatalog G)}
    (hat : TableAt site.writer.live p.table schema id catalog) {dt : DataType}
    (hkeyed : Keyed R dt pk
      (logicalRows site.writer.live catalog (scanTable site.writer.live id)))
    (hfirst : filters.findSome? (pkEqKey L p.pkName p.pkType) = some key)
    (hscan : p.scan C L none filters none site = .ok answer site') :
    ∃ c found, answer = found.toList.map (p.currentRow C R columns) ∧
      PointRead L p key c (logicalRows site.writer.live catalog (scanTable site.writer.live id))
        (p.currentRow C R columns) found := by
  obtain ⟨hshown, found, hfetch, rfl, hfilled⟩ := scan_point h hfirst hscan
  obtain ⟨f₀, -, hf₀⟩ := List.exists_of_findSome?_eq_some hfirst
  obtain ⟨_, c, _, hkey, _⟩ := literal_of_pkEqKey hf₀
  have hfound : ∀ row, found = some row → (key, row) ∈
      logicalRows site.writer.live catalog (scanTable site.writer.live id) ∧
      arrowCell C.rescale p.pkType (cellValue R row pk) = some c := by
    rintro row rfl
    obtain ⟨k, b, hmem, hk, hb⟩ := stored_of_fetchData hI hat hfetch
    obtain ⟨f, hf, -, htype, hrequired⟩ := h.key
    have hcell := hfilled (f, pk) (List.mem_zipIdx_iff_getElem?.mpr hf) hrequired row
      (List.mem_singleton_self _)
    rw [← htype] at hcell
    obtain ⟨rfl, hc⟩ := key_of_bytes hkey (hkeyed.key _ hmem) hcell hk hb
    exact ⟨hmem, hc⟩
  refine ⟨c, found, rfl, hkey, logicalRows_nodup (hI.tableOk hat), fun row hrow =>
      (hfound row hrow).1,
    fun row hrow => (h.currentRow_key (h.pkName_ne hshown) row).trans (hfound row hrow).2, ?_, ?_⟩
  · intro row hmem
    exact Except.ok.inj (hfetch.symm.trans (fetchData_of_mem hI hat hmem))
  · intro row hrow q hq hcell
    rw [h.currentRow_key (h.pkName_ne hshown)] at hcell
    obtain ⟨hmem, hc⟩ := hfound row hrow
    exact key_of_cell hkey (hkeyed.typed _ hmem) (hkeyed.typed q hq) (hkeyed.key _ hmem)
      (hkeyed.key q hq) hc hcell

end

end BlueDB.Query
