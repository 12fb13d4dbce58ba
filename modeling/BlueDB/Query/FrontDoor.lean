import BlueDB.Query.PointReads

/-!
# The front door

The rows that a scan answers, once the filters that are not exact have been applied
again, are the current rows that meet all filters, on the point-read path and on the
merge path, exactly when the row store and the mirror stand as these paths need it.
-/

namespace BlueDB.Query

open Sql Lakehouse LakehouseWriter

variable {G : Engine} {C : Crates} {R : Reading G} {L : Literals R}

theorem perm_iff_keys {κ : Type} [DecidableEq κ] (key : Row → κ) (as bs : List Row) :
    as.Perm bs ↔ ∀ k, (as.filter fun r => key r = k).Perm (bs.filter fun r => key r = k) := by
  constructor
  · intro h k
    exact h.filter _
  · intro h
    rw [List.perm_iff_count]
    intro r
    have hcount : ∀ cs : List Row, cs.count r = (cs.filter fun r' => key r' = key r).count r :=
      fun cs => (List.count_filter (by simp)).symm
    rw [hcount as, hcount bs]
    exact (h (key r)).count_eq r

section

variable {site site' : Site G} {p : Provider} {columns : List (ColumnDef G)} {pk : ℕ}
  {m : TableMetadata} {filters : List Expr} {answer : List Row}

def unsealed (site : Site G) (t : Name) (m : TableMetadata) :
    List (G.Key × Option (DataRow G.Value)) :=
  changesOf (scanCdc site.writer.log ((m.snapshots.getLast?.map Snapshot.watermark).getD 0)) t

def deleteCell (C : Crates) (R : Reading G) (site : Site G) (t : Name) (pk : ℕ) (m : TableMetadata)
    (k : G.Key) : Option Cell :=
  match m.schema.fields[pk]? with
  | some f => if f.id = fieldIdOf (site.columnSlots t) pk then keyCell C R f k else none
  | none => none

def fileShown (p : Provider) (row : FileRow) : Row :=
  p.schema.map fun f => (f.name, cellOf f.id row)

/-- The number up to which the snapshot has the changes. -/
def sealedAt (m : TableMetadata) : ℕ := (m.snapshots.getLast?.map Snapshot.watermark).getD 0

/-- Above the snapshot the log has a change of a key with this cell. A null is the cell of any
key. -/
def Touched (C : Crates) (R : Reading G) (site : Site G) (t : Name) (pk : ℕ) (m : TableMetadata)
    (c : Option Cell) : Prop :=
  ∃ e ∈ site.writer.log.entries, sealedAt m < e.1 ∧ e.2.table = t ∧
    (deleteCell C R site t pk m e.2.key = c ∨ deleteCell C R site t pk m e.2.key = none ∨ c = none)

/-- What the log leaves above the snapshot, of the keys that have a row then. -/
def images (site : Site G) (t : Name) (m : TableMetadata) : List (DataRow G.Value) :=
  let above := site.writer.log.entries.filter fun e => sealedAt m < e.1
  ((above.filter fun e => e.2.table = t).map fun e => e.2.key).dedup.filterMap fun k =>
    (Changelog.last (changes above) (t, k)).join

def rowsAt (D : DataFusion) (p : Provider) (filters : List Expr) (c : Option Cell)
    (rows : List Row) : List Row :=
  (rows.filter fun r => r.cell p.pkName = c).filter (D.meets filters)

/-- As far as the filters take them, the rows that the mirror has for a key that the log has not
touched, and those that the log leaves, are the rows of the row store. -/
structure InStep (D : DataFusion) (C : Crates) (R : Reading G) (p : Provider) (site : Site G)
    (columns : List (ColumnDef G)) (pk : ℕ) (m : TableMetadata) (filters : List Expr)
    (data : List (G.Key × DataRow G.Value)) : Prop where
  touched : ∀ c, Touched C R site p.table pk m c →
    (rowsAt D p filters c ((images site p.table m).map (p.currentRow C R columns))).Perm
      (rowsAt D p filters c (data.map fun q => p.currentRow C R columns q.2))
  untouched : ∀ c, ¬Touched C R site p.table pk m c →
    (rowsAt D p filters c (m.contents.map (fileShown p)) ++
      rowsAt D p filters c ((images site p.table m).map (p.currentRow C R columns))).Perm
      (rowsAt D p filters c (data.map fun q => p.currentRow C R columns q.2))

theorem unsealed_images {t : Name} :
    (upserts (unsealed site t m)).map Prod.snd = images site t m := by
  unfold unsealed upserts changesOf images
  rw [List.filterMap_filterMap, List.map_filterMap]
  apply List.filterMap_congr
  intro k _
  rw [collapseLww_apply]
  change _ = (Changelog.last (changes (scanCdc site.writer.log (sealedAt m))) (t, k)).join
  change Option.map Prod.snd (Option.bind (Option.map _ (Changelog.last
    (changes (scanCdc site.writer.log (sealedAt m))) (t, k))) _) = _
  cases Changelog.last (changes (scanCdc site.writer.log (sealedAt m))) (t, k) with
  | none => rfl
  | some image => cases image <;> rfl

theorem notIn_iff {t : Name} {c : Option Cell} :
    Provider.notIn c ((unsealed site t m).map fun q => deleteCell C R site t pk m q.1) = true ↔
      ¬Touched C R site t pk m c := by
  have hmem : ∀ d, d ∈ (unsealed site t m).map (fun q => deleteCell C R site t pk m q.1) ↔
      ∃ e ∈ site.writer.log.entries, sealedAt m < e.1 ∧ e.2.table = t ∧
        deleteCell C R site t pk m e.2.key = d := by
    intro d
    rw [List.mem_map]
    constructor
    · rintro ⟨⟨k, image⟩, hq, rfl⟩
      have himage := mem_changesOf.mp hq
      have hsome : ¬∀ e ∈ scanCdc site.writer.log (sealedAt m), rowKey e ≠ (t, k) := by
        rw [← last_changes_eq_none, ← collapseLww_apply]
        exact fun h => absurd (h.symm.trans himage) nofun
      push Not at hsome
      obtain ⟨e, he, hkey⟩ := hsome
      obtain ⟨rfl, rfl⟩ := Prod.mk.inj hkey
      obtain ⟨he, habove⟩ := List.mem_filter.mp he
      exact ⟨e, he, of_decide_eq_true habove, rfl, rfl⟩
    · rintro ⟨e, he, habove, rfl, rfl⟩
      have hsome : collapseLww (scanCdc site.writer.log (sealedAt m)) (rowKey e) ≠ none := by
        rw [collapseLww_apply, Ne, last_changes_eq_none]
        exact fun h => h e (List.mem_filter.mpr ⟨he, by simpa using habove⟩) rfl
      obtain ⟨image, himage⟩ := Option.ne_none_iff_exists'.mp hsome
      exact ⟨(e.2.key, image), mem_changesOf.mpr himage, rfl⟩
  unfold Provider.notIn Touched
  rw [Bool.or_eq_true, List.isEmpty_iff, List.eq_nil_iff_forall_not_mem]
  simp only [Bool.and_eq_true, decide_eq_true_eq, hmem, Option.isSome_iff_ne_none]
  constructor
  · rintro (h | ⟨⟨hc, hnull⟩, hcell⟩) ⟨e, he, habove, ht, h'⟩
    · exact h _ ⟨e, he, habove, ht, rfl⟩
    · rcases h' with h' | h' | h'
      · exact hcell ⟨e, he, habove, ht, h'⟩
      · exact hnull ⟨e, he, habove, ht, h'⟩
      · exact hc h'
  · intro h
    by_contra hnot
    push Not at hnot
    obtain ⟨⟨d, e, he, habove, ht, rfl⟩, hnot⟩ := hnot
    apply h
    by_cases hc : c = none
    · exact ⟨e, he, habove, ht, .inr (.inr hc)⟩
    · by_cases hnull : ∃ e ∈ site.writer.log.entries, sealedAt m < e.1 ∧ e.2.table = t ∧
          deleteCell C R site t pk m e.2.key = none
      · obtain ⟨e, he, habove, ht, hcell⟩ := hnull
        exact ⟨e, he, habove, ht, .inr (.inl hcell)⟩
      · push Not at hnull
        obtain ⟨e, he, habove, ht, hcell⟩ := hnot ⟨hc, hnull⟩
        exact ⟨e, he, habove, ht, .inl hcell⟩

theorem keysToDeleteBatch_eq_ok {w : LakehouseWriter} {keys : List G.Key} {batch : RecordBatch}
    (h : keysToDeleteBatch C R w keys = .ok batch) :
    batch.fields = w.metadata.schema.fields ∧
      batch.rows = keys.map fun k => w.metadata.schema.fields.map fun f =>
        if f.id = w.pkFieldId then keyCell C R f k else none := by
  unfold keysToDeleteBatch at h
  obtain ⟨-, -, h⟩ := bind_eq_ok.mp h
  dsimp only at h
  split at h
  · cases h
  · cases h
    exact ⟨rfl, rfl⟩

namespace Opened

theorem currentIcebergTable_returns (h : Opened site p columns pk m) {out : Option TableMetadata}
    (hread : currentIcebergTable C R p.table site = .ok out site') :
    out = some m ∧ site = site' := by
  obtain ⟨schema, hschema, -⟩ := h.schema
  unfold currentIcebergTable at hread
  obtain ⟨_, _, hget, h₁⟩ := bind_returns_iff.mp hread
  obtain ⟨rfl, rfl⟩ := get_returns_iff.mp hget
  rw [hschema] at h₁
  dsimp only at h₁
  rw [h.table, if_neg (by simp)] at h₁
  obtain ⟨w, _, hw, h₂⟩ := bind_returns_iff.mp h₁
  obtain ⟨rfl, -, rfl⟩ := h.reopen hschema hw
  cases h₂
  exact ⟨rfl, rfl⟩

theorem unsealedDelta_returns (h : Opened site p columns pk m) {delta : RecordBatch × RecordBatch}
    (hread : unsealedDelta C R p.table site = .ok delta site') :
    delta.1.fields = m.schema.fields ∧
      delta.1.rows = (upserts (unsealed site p.table m)).map
        (fun q => rowCells C R m.schema.fields q.2) ∧
      delta.2.fields = m.schema.fields ∧
      delta.2.rows = (unsealed site p.table m).map fun q => m.schema.fields.map fun f =>
        if f.id = fieldIdOf (site.columnSlots p.table) pk then keyCell C R f q.1 else none := by
  unfold unsealedDelta at hread
  obtain ⟨_, _, hget, h₁⟩ := bind_returns_iff.mp hread
  obtain ⟨rfl, rfl⟩ := get_returns_iff.mp hget
  obtain ⟨schema, _, hfetch, h₂⟩ := bind_returns_iff.mp h₁
  obtain ⟨hschema, rfl⟩ := ofExcept_returns_iff.mp hfetch
  obtain ⟨w, _, hw, h₃⟩ := bind_returns_iff.mp h₂
  obtain ⟨rfl, hid, rfl⟩ := h.reopen (fetchSchema_eq_ok.mp hschema) hw
  obtain ⟨_, _, hget', h₄⟩ := bind_returns_iff.mp h₃
  obtain ⟨rfl, rfl⟩ := get_returns_iff.mp hget'
  obtain ⟨touched, _, htouched, h₅⟩ := bind_returns_iff.mp h₄
  obtain ⟨hkeys, rfl⟩ := ofExcept_returns_iff.mp htouched
  obtain ⟨ups, _, hups, h₆⟩ := bind_returns_iff.mp h₅
  obtain ⟨hrows, rfl⟩ := ofExcept_returns_iff.mp hups
  cases h₆
  obtain ⟨hfields, hbatch, -⟩ := recordBatch_eq_ok hrows
  obtain ⟨hfields', hbatch'⟩ := keysToDeleteBatch_eq_ok hkeys
  rw [hid, List.map_map] at hbatch'
  exact ⟨hfields, hbatch, hfields', hbatch'⟩

theorem currentRecordBatch_returns (h : Opened site p columns pk m) {out : Option RecordBatch}
    (hread : currentRecordBatch C R p.table site = .ok out site') :
    ∃ data batch, scanData site.writer.live p.table = .ok data ∧ out = some batch ∧
      batch.fields = m.schema.fields ∧
      batch.rows = data.map fun q => rowCells C R m.schema.fields q.2 := by
  obtain ⟨schema, hschema, -⟩ := h.schema
  unfold currentRecordBatch at hread
  obtain ⟨_, _, hget, h₁⟩ := bind_returns_iff.mp hread
  obtain ⟨rfl, rfl⟩ := get_returns_iff.mp hget
  rw [hschema] at h₁
  dsimp only at h₁
  obtain ⟨data, _, hrows, h₂⟩ := bind_returns_iff.mp h₁
  obtain ⟨hdata, rfl⟩ := ofExcept_returns_iff.mp hrows
  obtain ⟨w, _, hw, h₃⟩ := bind_returns_iff.mp h₂
  obtain ⟨rfl, -, rfl⟩ := h.reopen hschema hw
  obtain ⟨batch, _, hbatch, h₄⟩ := bind_returns_iff.mp h₃
  cases h₄
  obtain ⟨hfields, hcells, -⟩ := recordBatch_eq_ok (ofExcept_returns_iff.mp hbatch).1
  exact ⟨data, batch, mapError_eq_ok.mp hdata, rfl, hfields, hcells⟩

theorem selectColumns_file (h : Opened site p columns pk m) (row : FileRow) :
    Provider.selectColumns (p.wanted none) ((m.schema.fields.map Field.name).zip
      (m.schema.fields.map fun f => cellOf f.id row)) = fileShown p row := by
  apply h.selectColumns_zip
  intro i f hf
  rw [List.getElem?_map, hf]
  rfl

theorem cell_zip (h : Opened site p columns pk m) (g : Field → Option Cell) :
    ∃ f, m.schema.fields[pk]? = some f ∧ f.name = p.pkName ∧
      Row.cell ((m.schema.fields.map Field.name).zip (m.schema.fields.map g)) p.pkName = g f := by
  obtain ⟨f, hf, hname, -⟩ := h.key
  refine ⟨f, hf, hname, ?_⟩
  have hfield : (m.schema.fields.map Field.name)[pk]? = some f.name := by
    rw [List.getElem?_map, hf]
    rfl
  have hcell : (m.schema.fields.map g)[pk]? = some (g f) := by
    rw [List.getElem?_map, hf]
    rfl
  unfold Row.cell
  rw [← hname, lookup_zip h.fieldNames_nodup hfield hcell, Option.getD_some]

theorem scanMerge_mirrored (h : Opened site p columns pk m) (hpk : p.pkName ≠ surrogatePk)
    (hmirrored : site.mirrored p.table = true)
    (hscan : p.scanMerge C R none none site = .ok answer site') :
    answer = ((m.contents.map (fileShown p)).filter fun r => Provider.notIn (r.cell p.pkName)
        ((unsealed site p.table m).map fun q => deleteCell C R site p.table pk m q.1)) ++
      (upserts (unsealed site p.table m)).map fun q => p.currentRow C R columns q.2 := by
  unfold Provider.scanMerge at hscan
  obtain ⟨_, _, hget, h₁⟩ := bind_returns_iff.mp hscan
  obtain ⟨rfl, rfl⟩ := get_returns_iff.mp hget
  rw [isTableMirrored, hmirrored, if_pos rfl] at h₁
  obtain ⟨iceberg, _, hiceberg, h₂⟩ := bind_returns_iff.mp h₁
  obtain ⟨rfl, rfl⟩ := h.currentIcebergTable_returns (engine_returns_iff.mp hiceberg)
  dsimp only at h₂
  obtain ⟨⟨ups, touched⟩, _, hdelta, h₃⟩ := bind_returns_iff.mp h₂
  obtain ⟨hfields, hrows, htfields, htrows⟩ :=
    h.unsealedDelta_returns (engine_returns_iff.mp hdelta)
  dsimp only at hfields hrows htfields htrows h₃
  rw [if_neg (by rw [hfields]; simp)] at h₃
  cases h₃
  have hkeys : touched.named.map (fun row => row.cell p.pkName) =
      (unsealed site p.table m).map fun q => deleteCell C R site p.table pk m q.1 := by
    unfold RecordBatch.named
    rw [htfields, htrows, List.map_map, List.map_map]
    apply List.map_congr_left
    intro q _
    obtain ⟨f, hf, -, hcell⟩ := h.cell_zip fun f =>
      if f.id = fieldIdOf (site.columnSlots p.table) pk then keyCell C R f q.1 else none
    unfold deleteCell
    rw [hf]
    exact hcell
  have hbulk : (⟨m.schema.fields, m.rows⟩ : RecordBatch).named =
      m.contents.map fun row => (m.schema.fields.map Field.name).zip
        (m.schema.fields.map fun f => cellOf f.id row) := by
    unfold RecordBatch.named TableMetadata.rows
    rw [List.map_map]
    rfl
  have hfile : ∀ row : FileRow, Row.cell ((m.schema.fields.map Field.name).zip
      (m.schema.fields.map fun f => cellOf f.id row)) p.pkName =
      (fileShown p row).cell p.pkName := by
    intro row
    obtain ⟨f, hf, -, hcell⟩ := h.cell_zip fun f => cellOf f.id row
    obtain ⟨f', hf', -, -, -, hcell'⟩ := h.cell_pkName hpk fun f => cellOf f.id row
    obtain rfl := Option.some.inj (hf.symm.trans hf')
    exact hcell.trans hcell'.symm
  rw [hkeys, hbulk, List.map_append, List.filter_map, List.filter_map, List.map_map]
  congr 1
  · have hfilter : m.contents.filter ((fun row : Row => Provider.notIn (row.cell p.pkName)
        ((unsealed site p.table m).map fun q => deleteCell C R site p.table pk m q.1)) ∘
        fun row => (m.schema.fields.map Field.name).zip
          (m.schema.fields.map fun f => cellOf f.id row)) =
        m.contents.filter ((fun row : Row => Provider.notIn (row.cell p.pkName)
          ((unsealed site p.table m).map fun q => deleteCell C R site p.table pk m q.1)) ∘
          fileShown p) := by
      apply List.filter_congr
      intro row _
      simp only [Function.comp_apply, hfile]
    rw [hfilter]
    apply List.map_congr_left
    intro row _
    exact h.selectColumns_file row
  · unfold RecordBatch.named
    rw [hrows, List.map_map, List.map_map]
    apply List.map_congr_left
    intro q _
    exact h.selectColumns_row q.2

theorem scanMerge_plain (h : Opened site p columns pk m)
    (hmirrored : site.mirrored p.table = false)
    (hscan : p.scanMerge C R none none site = .ok answer site') :
    ∃ data, scanData site.writer.live p.table = .ok data ∧
      answer = data.map fun q => p.currentRow C R columns q.2 := by
  unfold Provider.scanMerge at hscan
  obtain ⟨_, _, hget, h₁⟩ := bind_returns_iff.mp hscan
  obtain ⟨rfl, rfl⟩ := get_returns_iff.mp hget
  rw [isTableMirrored, hmirrored, if_neg Bool.false_ne_true] at h₁
  obtain ⟨iceberg, _, hiceberg, h₂⟩ := bind_returns_iff.mp h₁
  cases hiceberg
  dsimp only at h₂
  obtain ⟨out, _, hout, h₃⟩ := bind_returns_iff.mp h₂
  obtain ⟨data, batch, hdata, rfl, hfields, hrows⟩ :=
    h.currentRecordBatch_returns (engine_returns_iff.mp hout)
  cases h₃
  refine ⟨data, hdata, ?_⟩
  unfold RecordBatch.named
  rw [hrows, hfields, List.map_map, List.map_map]
  apply List.map_congr_left
  intro q _
  exact h.selectColumns_row q.2

/-- The merge answers the query exactly when the mirror and the log are in step with the
row store for every key. -/
theorem scanMerge_iff (D : DataFusion) (h : Opened site p columns pk m)
    (hpk : p.pkName ≠ surrogatePk) (hmirrored : site.mirrored p.table = true)
    {data : List (G.Key × DataRow G.Value)}
    (hscan : p.scanMerge C R none none site = .ok answer site') :
    (answer.filter (D.meets filters)).Perm
      ((data.map fun q => p.currentRow C R columns q.2).filter (D.meets filters)) ↔
      InStep D C R p site columns pk m filters data := by
  classical
  have hcomm : ∀ (c : Option Cell) (rows : List Row), (rows.filter (D.meets filters)).filter
      (fun r => r.cell p.pkName = c) = rowsAt D p filters c rows :=
    fun c rows => List.filter_comm ..
  have himages : (upserts (unsealed site p.table m)).map (fun q => p.currentRow C R columns q.2) =
      (images site p.table m).map (p.currentRow C R columns) := by
    rw [← unsealed_images, List.map_map]
    rfl
  have hmirror : ∀ c, rowsAt D p filters c ((m.contents.map (fileShown p)).filter fun r =>
      Provider.notIn (r.cell p.pkName)
        ((unsealed site p.table m).map fun q => deleteCell C R site p.table pk m q.1)) =
      if Touched C R site p.table pk m c then []
      else rowsAt D p filters c (m.contents.map (fileShown p)) := by
    intro c
    unfold rowsAt
    split_ifs with htouched
    · apply List.filter_eq_nil_iff.mpr
      intro r hr
      obtain ⟨hr, hcell⟩ := List.mem_filter.mp hr
      exact absurd (of_decide_eq_true hcell ▸ htouched) (notIn_iff.mp (List.mem_filter.mp hr).2)
    · congr 1
      rw [List.filter_filter]
      apply List.filter_congr
      intro r _
      by_cases hr : r.cell p.pkName = c
      · simp [hr, notIn_iff.mpr htouched]
      · simp [hr]
  rw [h.scanMerge_mirrored hpk hmirrored hscan, perm_iff_keys fun r => r.cell p.pkName]
  have happend : ∀ (c : Option Cell) (rows rows' : List Row), rowsAt D p filters c (rows ++ rows') =
      rowsAt D p filters c rows ++ rowsAt D p filters c rows' := by
    intro c rows rows'
    unfold rowsAt
    rw [List.filter_append, List.filter_append]
  simp only [hcomm, happend, hmirror, himages]
  constructor
  · intro hall
    constructor
    · intro c htouched
      simpa [htouched] using hall c
    · intro c htouched
      simpa [htouched] using hall c
  · intro hstep c
    by_cases htouched : Touched C R site p.table pk m c
    · simpa [htouched] using hstep.touched c htouched
    · simpa [htouched] using hstep.untouched c htouched

end Opened

end

def ScanFits (D : DataFusion) (C : Crates) {R : Reading G} (L : Literals R) (p : Provider)
    (site : Site G) (columns : List (ColumnDef G)) (pk : ℕ) (filters : List Expr)
    (data : List (G.Key × DataRow G.Value)) : Prop :=
  match filters.findSome? (pkEqKey L p.pkName p.pkType) with
  | some key => PointFits D L p filters key data (p.currentRow C R columns)
  | none => site.mirrored p.table = true → ∀ m, site.tables p.table = some m →
    InStep D C R p site columns pk m filters data

/-- The rows that a scan answers, once the filters that are not exact have been applied again,
are the current rows that meet all filters exactly if the row store and the mirror fit. -/
theorem scan_answers_iff (D : DataFusion) (C : Crates) {R : Reading G} (L : Literals R)
    {s site site' : Site G} {t : Name} {p : Provider} {schema : Schema G}
    {columns : List (ColumnDef G)} {pk : ℕ} {dt : DataType} {filters : List Expr}
    {data : List (G.Key × DataRow G.Value)} {answer : List Row}
    (hI : Integrity s.writer.live) (hnew : Provider.tryNew C R t s = .ok p site)
    (hpk : p.pkName ≠ surrogatePk) (hschema : readSchema site.writer.live t = some schema)
    (hcolumns : schema.columnDefs = some columns) (hkey : pkPositions columns = [pk])
    (hdata : scanData site.writer.live t = .ok data) (hkeyed : Keyed R dt pk data)
    (hscan : p.scan C L none filters none site = .ok answer site') :
    (answer.filter (D.meets (p.unsupported L filters))).Perm
      ((data.map fun q => p.currentRow C R columns q.2).filter (D.meets filters)) ↔
      ScanFits D C L p site columns pk filters data := by
  obtain ⟨rfl, hwriter, -, columns', pk', m, h⟩ := tryNew_opened hI hnew
  obtain ⟨schema', hschema', hdefs, hkey'⟩ := h.schema
  obtain rfl : schema = schema' := Option.some.inj (hschema.symm.trans hschema')
  obtain rfl : columns = columns' := Option.some.inj (hcolumns.symm.trans hdefs)
  obtain rfl : pk = pk' := by simpa using hkey.symm.trans hkey'
  have hlive : Integrity site.writer.live := hwriter.symm ▸ hI
  obtain ⟨id, hat⟩ := hlive.tableAt hschema
  have hrows := hdata
  rw [scanData_eq hat] at hrows
  obtain rfl := Except.ok.inj hrows
  unfold ScanFits
  cases hfirst : filters.findSome? (pkEqKey L p.pkName p.pkType) with
  | some key =>
    obtain ⟨c, found, rfl, hread⟩ := pointRead_of_scan h hlive hat hkeyed hfirst hscan
    exact ⟨hread.fits_of_perm hfirst, hread.perm_of_fits⟩
  | none =>
    have hall : p.unsupported L filters = filters := by
      unfold Provider.unsupported Provider.isExact
      rw [List.filter_eq_self]
      intro f hf
      rw [List.findSome?_eq_none_iff.mp hfirst f hf]
      rfl
    unfold Provider.scan at hscan
    rw [hfirst] at hscan
    dsimp only at hscan ⊢
    rw [hall]
    cases hmirrored : site.mirrored p.table with
    | true =>
      rw [h.scanMerge_iff D hpk hmirrored hscan]
      constructor
      · intro hstep _ m' hm'
        obtain rfl := Option.some.inj (h.table.symm.trans hm')
        exact hstep
      · intro hstep
        exact hstep rfl m h.table
    | false =>
      obtain ⟨data', hdata', rfl⟩ := h.scanMerge_plain hmirrored hscan
      rw [hdata] at hdata'
      obtain rfl := Except.ok.inj hdata'
      simp only [Bool.false_eq_true, false_implies, iff_true]
      exact .refl _

namespace Example

/-- A sign byte and the bytes of an integer, or the bytes of a text, behind a tag. -/
def keyBytes : Key → Except String (List UInt8)
  | .i64 n =>
    if IsI64 n then .ok (0x00 :: (if 0 ≤ n then 0x01 else 0x00) :: beBytes 8 (n % 2 ^ 64).toNat)
    else .error "out of range"
  | .u32 n =>
    if n < 2 ^ 32 then .ok (0x00 :: 0x01 :: beBytes 4 n) else .error "out of range"
  | .str s => .ok (0x00 :: s)
  | _ => .error "not a key"

def typed : Sql.Engine where
  Key := Key
  Value := Value
  Expr := Unit
  decKey := inferInstance
  decValue := inferInstance
  decExpr := inferInstance
  null := .null
  noneKey := .other []
  i64 := .i64
  asI64
    | .i64 n => some n
    | _ => none
  keyOf v :=
    match keyOfValue v with
    | some k => .ok k
    | none => .error "not a key"
  toCmpBeBytes := keyBytes
  displayKey _ := ""
  evaluate _ _ := .error "no expressions"
  mentions _ := []

theorem keyBytes_i64_inj {m n : ℤ} {bytes : List UInt8} (hm : keyBytes (.i64 m) = .ok bytes)
    (hn : keyBytes (.i64 n) = .ok bytes) : m = n := by
  simp only [keyBytes] at hm hn
  by_cases hm' : IsI64 m
  · by_cases hn' : IsI64 n
    · rw [if_pos hm'] at hm
      rw [if_pos hn'] at hn
      have heq := (Except.ok.inj hm).trans (Except.ok.inj hn).symm
      simp only [List.cons.injEq, true_and] at heq
      have hmod := beBytes_inj (by omega) (by omega) heq.2
      obtain ⟨hm1, hm2⟩ := hm'
      obtain ⟨hn1, hn2⟩ := hn'
      omega
    · rw [if_neg hn'] at hn
      cases hn
  · rw [if_neg hm'] at hm
    cases hm

theorem keyBytes_u32_inj {m n : ℕ} {bytes : List UInt8} (hm : keyBytes (.u32 m) = .ok bytes)
    (hn : keyBytes (.u32 n) = .ok bytes) : m = n := by
  simp only [keyBytes] at hm hn
  split_ifs at hm with hm'
  split_ifs at hn with hn'
  have heq := (Except.ok.inj hm).trans (Except.ok.inj hn).symm
  simp only [List.cons.injEq, true_and] at heq
  exact beBytes_inj (by omega) (by omega) heq

theorem keyBytes_ok {k : Key} {bytes : List UInt8} (h : keyBytes k = .ok bytes) :
    (∃ n, k = .i64 n) ∨ (∃ n, k = .u32 n) ∨ ∃ s, k = .str s := by
  cases k <;> first
    | exact .inl ⟨_, rfl⟩
    | exact .inr (.inl ⟨_, rfl⟩)
    | exact .inr (.inr ⟨_, rfl⟩)
    | cases h

theorem keyBytes_str_inj {s s' bytes : List UInt8} (h : keyBytes (.str s) = .ok bytes)
    (h' : keyBytes (.str s') = .ok bytes) : s = s' := by
  have heq := (Except.ok.inj h).trans (Except.ok.inj h').symm
  exact (List.cons.inj heq).2

theorem lawful : Lawful typed where
  evaluate_congr _ := rfl
  asI64_i64 _ := rfl
  i64_bytes_inj _ _ _ hm hn := keyBytes_i64_inj hm hn

def reading : Reading typed where
  value := id
  key := id
  nestedIds dt _ := if dt = .map then 2 else 1
  value_null := rfl
  key_inj _ _ h := h
  keyOf := by
    intro v k key' hk hkey
    change (match keyOfValue v with
      | some k => .ok k
      | none => .error "not a key") = Except.ok k at hk
    have hsome : keyOfValue v = some key' := hkey
    rw [hsome] at hk
    exact (Except.ok.inj hk).symm
  bytes_inj := by
    intro dt v w k k' bytes hdt hv hw hk hk' hb hb'
    change keyOfValue v = some k at hk
    change keyOfValue w = some k' at hk'
    change keyBytes k = .ok bytes at hb
    change keyBytes k' = .ok bytes at hb'
    obtain rfl := keyToValue_of_keyOfValue hk
    obtain rfl := keyToValue_of_keyOfValue hk'
    rcases keyBytes_ok hb with ⟨n, rfl⟩ | ⟨n, rfl⟩ | ⟨s, rfl⟩
    · rcases keyBytes_ok hb' with ⟨n', rfl⟩ | ⟨n', rfl⟩ | ⟨s', rfl⟩
      · rw [keyBytes_i64_inj hb hb']
      · cases dt <;> first
        | exact absurd hv Bool.false_ne_true
        | exact absurd hw Bool.false_ne_true
      · cases dt <;> first
        | exact absurd hv Bool.false_ne_true
        | exact absurd hw Bool.false_ne_true
    · rcases keyBytes_ok hb' with ⟨n', rfl⟩ | ⟨n', rfl⟩ | ⟨s', rfl⟩
      · cases dt <;> first
        | exact absurd hv Bool.false_ne_true
        | exact absurd hw Bool.false_ne_true
      · rw [keyBytes_u32_inj hb hb']
      · cases dt <;> first
        | exact absurd hv Bool.false_ne_true
        | exact absurd hw Bool.false_ne_true
    · rcases keyBytes_ok hb' with ⟨n', rfl⟩ | ⟨n', rfl⟩ | ⟨s', rfl⟩
      · cases dt <;> first
        | exact absurd hv Bool.false_ne_true
        | exact absurd hw Bool.false_ne_true
      · cases dt <;> first
        | exact absurd hv Bool.false_ne_true
        | exact absurd hw Bool.false_ne_true
      · rw [keyBytes_str_inj hb hb']

def literals : Literals reading where
  i64 n := .i64 n
  str := .str
  key_i64 _ := rfl
  key_str _ := rfl
  i64_bytes := by
    intro k n bytes hk hb hb'
    change keyBytes k = .ok bytes at hb
    change keyBytes (.i64 n) = .ok bytes at hb'
    rcases keyBytes_ok hb with ⟨m, rfl⟩ | ⟨m, rfl⟩ | ⟨s, rfl⟩
    · exact congrArg Key.i64 (keyBytes_i64_inj hb hb')
    · simp only [keyBytes] at hb hb'
      split_ifs at hb
      split_ifs at hb'
      · have hlen := congrArg List.length ((Except.ok.inj hb).trans (Except.ok.inj hb').symm)
        simp at hlen
      · have hlen := congrArg List.length ((Except.ok.inj hb).trans (Except.ok.inj hb').symm)
        simp at hlen
    · cases hk

def holds : Expr → Row → Bool
  | .binary (.column name) .eq (.literal v), row | .binary (.literal v) .eq (.column name), row =>
    v.cell.isSome && decide (row.cell name = v.cell)
  | _, _ => false

def dataFusion : DataFusion where
  holds := holds
  column_eq name v c row h := by simp [holds, h]
  literal_eq name v c row h := by simp [holds, h]

/-- A table with a key column `i` of the type and a column `a`. -/
def table (t : Name) (dt : DataType) : Stmt typed :=
  .createTable t (some [⟨Sql.Ints.i, dt, false, none, true⟩, ⟨Sql.Ints.a, .int, true, none, false⟩])

/-- `t` has INT keys and `u` has UINT32 keys. -/
def statements : List (Op typed) :=
  [.exec (table Sql.Ints.t .int), .exec (.insert Sql.Ints.t [.vec [.i64 1, .i64 10]]),
    .exec (table Sql.Ints.u .uint32), .exec (.insert Sql.Ints.u [.vec [.u32 1, .i64 10]])]

def site : Site typed := .opened (run (Conn.init true 0) statements).live 0 true

theorem site_integrity : Integrity site.writer.live := by
  have hrun := @SessionOk.run _ _ lawful (sessionOk_init (G := typed) true 0) statements
    (by decide)
  have hlive := hrun.live.live
  rw [Session.conn_run] at hlive
  exact hlive

/-- `i = n` -/
def keyIs (n : I64) : Expr := .binary (.column Sql.Ints.i) .eq (.literal (.int64 (some n)))

def one : I64 := ⟨1, by decide⟩

def two : I64 := ⟨2, by decide⟩

def columns (dt : DataType) : List (ColumnDef typed) :=
  [⟨Sql.Ints.i, dt, false, none, true⟩, ⟨Sql.Ints.a, .int, true, none, false⟩]

/-- The mirror of `t` has been empty since before its row was put. -/
def mirrored : Site typed where
  writer := { site.writer with
    log := site.writer.log.insert 1 ⟨Sql.Ints.t, .i64 1, some (.vec [.i64 1, .i64 10])⟩ }
  mirrored _ := true
  tables _ := none

/-- The provider of a table, the site it leaves, its rows and what a scan answers. -/
structure Scanned (s : Site typed) (t : Name) (filters : List Expr) where
  p : Provider
  opened : Site typed
  made : Provider.tryNew Lakehouse.Ints.crates reading t s = .ok p opened
  data : List (Key × DataRow Value)
  rows : scanData opened.writer.live t = .ok data
  answer : List Row
  after : Site typed
  scan : p.scan Lakehouse.Ints.crates literals none filters none opened = .ok answer after

def scanned (s : Site typed) (t : Name) (filters : List Expr) : Option (Scanned s t filters) :=
  match hmade : Provider.tryNew Lakehouse.Ints.crates reading t s with
  | .error _ _ => none
  | .ok p opened =>
    match hrows : scanData opened.writer.live t with
    | .error _ => none
    | .ok data =>
      match hscan : p.scan Lakehouse.Ints.crates literals none filters none opened with
      | .error _ _ => none
      | .ok answer after => some ⟨p, opened, hmade, data, hrows, answer, after, hscan⟩

namespace Scanned

variable {s : Site typed} {t : Name} {filters : List Expr}

def answered (x : Scanned s t filters) : List Row :=
  x.answer.filter (dataFusion.meets (x.p.unsupported literals filters))

def expected (x : Scanned s t filters) (dt : DataType) : List Row :=
  (x.data.map fun q => x.p.currentRow Lakehouse.Ints.crates reading (columns dt) q.2).filter
    (dataFusion.meets filters)

end Scanned

theorem exists_scanned {s : Site typed} {t : Name} {filters : List Expr}
    {P : Scanned s t filters → Bool} (h : (scanned s t filters).any P = true) :
    ∃ x : Scanned s t filters, P x = true := by
  obtain ⟨x, -, hx⟩ := (Option.any_eq_true _ _).mp h
  exact ⟨x, hx⟩

/-- `a = 10` -/
def ten : Expr := .binary (.column Sql.Ints.a) .eq (.literal (.int64 (some ⟨10, by decide⟩)))

theorem keyed_one {data : List (Key × DataRow Value)}
    (hdata : data = [(.i64 1, .vec [.i64 1, .i64 10])]) : Keyed reading .int 0 data := by
  rw [hdata]
  constructor
  · intro q hq
    rw [List.mem_singleton.mp hq]
    decide
  · intro q hq k hk
    rw [List.mem_singleton.mp hq] at hk ⊢
    exact Option.some.inj hk

def Answered {s : Site typed} {filters : List Expr} (x : Scanned s Sql.Ints.t filters) : Bool :=
  decide (x.p.pkName ≠ surrogatePk ∧
    readSchema x.opened.writer.live Sql.Ints.t = some ⟨Sql.Ints.t, some (columns .int), []⟩ ∧
    x.data = [(.i64 1, .vec [.i64 1, .i64 10])] ∧ (x.expected .int).length = 1 ∧
    x.answered = x.expected .int)

/-- A row that is asked for by its key, and one that is not sealed yet. -/
theorem scan_answers_one :
    (∃ x : Scanned site Sql.Ints.t [keyIs one], (x.expected .int).length = 1 ∧
      ScanFits dataFusion Lakehouse.Ints.crates literals x.p x.opened (columns .int) 0
        [keyIs one] x.data) ∧
    ∃ x : Scanned mirrored Sql.Ints.t [ten], (x.expected .int).length = 1 ∧
      ScanFits dataFusion Lakehouse.Ints.crates literals x.p x.opened (columns .int) 0
        [ten] x.data := by
  constructor
  · obtain ⟨x, hx⟩ := @Example.exists_scanned site Sql.Ints.t [keyIs one] Answered
      (by decide +kernel)
    obtain ⟨hpk, hschema, hdata, hone, hsame⟩ := of_decide_eq_true hx
    refine ⟨x, hone, (scan_answers_iff dataFusion Lakehouse.Ints.crates literals site_integrity
      x.made hpk hschema rfl rfl x.rows (keyed_one hdata) x.scan).mp ?_⟩
    change x.answered.Perm (x.expected .int)
    rw [hsame]
  · obtain ⟨x, hx⟩ := @Example.exists_scanned mirrored Sql.Ints.t [ten] Answered
      (by decide +kernel)
    obtain ⟨hpk, hschema, hdata, hone, hsame⟩ := of_decide_eq_true hx
    have hintegrity : Integrity mirrored.writer.live := site_integrity
    refine ⟨x, hone, (scan_answers_iff dataFusion Lakehouse.Ints.crates literals hintegrity
      x.made hpk hschema rfl rfl x.rows (keyed_one hdata) x.scan).mp ?_⟩
    change x.answered.Perm (x.expected .int)
    rw [hsame]

/-- Two keys at once bring the row of the first one; a literal misses the row with a UINT32 key. -/
theorem scan_not_answers :
    (∃ x : Scanned site Sql.Ints.t [keyIs one, keyIs two], ¬x.answered.Perm (x.expected .int)) ∧
      ∃ x : Scanned site Sql.Ints.u [keyIs one], ¬x.answered.Perm (x.expected .uint32) := by
  constructor
  · obtain ⟨x, hx⟩ := @Example.exists_scanned site Sql.Ints.t [keyIs one, keyIs two]
      (fun x => decide (x.answered.length = 1 ∧ (x.expected .int).length = 0)) (by decide +kernel)
    refine ⟨x, fun hperm => ?_⟩
    have hlen := hperm.length_eq
    have hboth := of_decide_eq_true hx
    omega
  · obtain ⟨x, hx⟩ := @Example.exists_scanned site Sql.Ints.u [keyIs one]
      (fun x => decide (x.answered.length = 0 ∧ (x.expected .uint32).length = 1))
      (by decide +kernel)
    refine ⟨x, fun hperm => ?_⟩
    have hlen := hperm.length_eq
    have hboth := of_decide_eq_true hx
    omega

end Example

end BlueDB.Query
