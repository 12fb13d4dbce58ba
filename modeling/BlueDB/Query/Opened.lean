import BlueDB.Query.Provider
import BlueDB.Sql.AccessPaths

/-!
# Opened tables

A provider opens the table once, and opening it again changes nothing. The batches that
a scan reads have the columns of the table in their order, and a cell stands under the
name of its column.
-/

namespace BlueDB.Query

open Sql Lakehouse LakehouseWriter

variable {G : Engine} {C : Crates} {R : Reading G}

theorem get_returns_iff {ε σ : Type} {s s' a : σ} :
    (get : EStateM ε σ σ) s = .ok a s' ↔ s = a ∧ s = s' := by
  change EStateM.Result.ok s s = _ ↔ _
  simp

theorem engine_returns_iff {α : Type} {x : SealM G α} {site site' : Site G} {a : α} :
    engine x site = .ok a site' ↔ x site = .ok a site' := by
  unfold engine
  cases x site with
  | ok a' s => simp
  | error e s => simp

theorem find_name {es : List Field} (hnames : (es.map Field.name).Nodup) {e : Field} (he : e ∈ es) :
    (es.find? fun f => f.name = e.name) = some e := by
  induction es with
  | nil => exact absurd he List.not_mem_nil
  | cons f es ih =>
    rw [List.map_cons, List.nodup_cons] at hnames
    rcases List.mem_cons.mp he with rfl | he
    · exact List.find?_cons_of_pos (by simp)
    · have hne : ¬f.name = e.name := fun heq => hnames.1 (heq ▸ List.mem_map_of_mem he)
      rw [List.find?_cons_of_neg (by simpa using hne)]
      exact ih hnames.2 he

/-- Fields under the names of the desired ones are what the desired ones evolve to. -/
theorem map_evolveField {es ds : List Field} (hnames : (es.map Field.name).Nodup)
    (h : List.Forall₂ (fun e d => e.name = d.name ∧ e.required = d.required) es ds) :
    ds.map (evolveField es) = es := by
  have hpart : ∀ {es' ds' : List Field}, (∀ e ∈ es', e ∈ es) →
      List.Forall₂ (fun e d => e.name = d.name ∧ e.required = d.required) es' ds' →
      ds'.map (evolveField es) = es' := by
    intro es' ds' hsub hall
    induction hall with
    | nil => rfl
    | @cons e d es' ds' hed _ ih =>
      have hfind := find_name hnames (hsub e List.mem_cons_self)
      have hhead : evolveField es d = e := by
        unfold evolveField
        rw [← hed.1, hfind, ← hed.2]
      rw [List.map_cons, hhead, ih fun e he => hsub e (List.mem_cons_of_mem _ he)]
  exact hpart (fun _ he => he) h

theorem evolveField_name (es : List Field) (d : Field) :
    (evolveField es d).name = d.name ∧ (evolveField es d).required = d.required := by
  unfold evolveField
  split
  · exact ⟨rfl, rfl⟩
  · exact ⟨rfl, rfl⟩

theorem renumber_forall₂ (ds : List Field) :
    List.Forall₂ (fun e d => e.name = d.name ∧ e.required = d.required) (renumber ds) ds := by
  unfold renumber
  dsimp only
  generalize drawIds _ _ = inner
  generalize 0 = n
  induction ds generalizing n with
  | nil => exact .nil
  | cons d ds ih => exact .cons ⟨rfl, rfl⟩ (ih (n + 1))

theorem openedFields_forall₂ (persisted : Option TableMetadata) (desired : IcebergSchema) :
    List.Forall₂ (fun e d => e.name = d.name ∧ e.required = d.required)
      (openedFields persisted desired) desired.fields := by
  cases persisted with
  | none => exact renumber_forall₂ desired.fields
  | some m =>
    change List.Forall₂ _ (desired.fields.map (evolveField m.schema.fields)) desired.fields
    induction desired.fields with
    | nil => exact .nil
    | cons d ds ih => exact .cons (evolveField_name m.schema.fields d) ih

/-- The fields of a table are those of its columns. -/
def Fits (fields : List Field) (columns : List (ColumnDef G)) (pk : ℕ) : Prop :=
  List.Forall₂ (fun f q => f.name = q.1.name ∧ f.required = (decide (q.2 = pk) || !q.1.nullable))
    fields columns.zipIdx

theorem fits_iff {fields : List Field} {columns : List (ColumnDef G)} {slots : Option (List ℕ)}
    {pk : ℕ} {samples : List (DataRow G.Value)} : Fits fields columns pk ↔
      List.Forall₂ (fun e d => e.name = d.name ∧ e.required = d.required) fields
        (desiredSchema R columns slots pk samples).fields := by
  unfold Fits desiredSchema tableFields
  dsimp only
  rw [List.forall₂_map_right_iff]

theorem fits_openedFields (persisted : Option TableMetadata) (columns : List (ColumnDef G))
    (slots : Option (List ℕ)) (pk : ℕ) (samples : List (DataRow G.Value)) :
    Fits (openedFields persisted (desiredSchema R columns slots pk samples)) columns pk :=
  fits_iff.mpr (openedFields_forall₂ persisted _)

theorem Fits.names {fields : List Field} {columns : List (ColumnDef G)} {pk : ℕ}
    (h : Fits fields columns pk) : fields.map Field.name = columns.map ColumnDef.name := by
  rw [← List.zipIdx_map_fst 0 columns, List.map_map]
  unfold Fits at h
  generalize columns.zipIdx = indexed at h ⊢
  induction h with
  | nil => rfl
  | cons hfq _ ih => rw [List.map_cons, List.map_cons, ih, hfq.1, Function.comp_apply]

theorem lookup_zip {names : List Name} {cells : List (Option Cell)} (hnames : names.Nodup) {i : ℕ}
    {n : Name} {c : Option Cell} (hn : names[i]? = some n) (hc : cells[i]? = some c) :
    (names.zip cells).lookup n = some c := by
  induction names generalizing cells i with
  | nil => simp at hn
  | cons m names ih =>
    cases cells with
    | nil => simp at hc
    | cons d cells =>
      rw [List.nodup_cons] at hnames
      cases i with
      | zero =>
        obtain rfl : m = n := Option.some.inj hn
        obtain rfl : d = c := Option.some.inj hc
        simp
      | succ i =>
        rw [List.getElem?_cons_succ] at hn hc
        have hne : n ≠ m := by
          rintro rfl
          exact hnames.1 (List.mem_of_getElem? hn)
        have hbeq : (n == m) = false := beq_false_of_ne hne
        rw [List.zip_cons_cons, List.lookup_cons, hbeq]
        exact ih hnames.2 hn hc

/-- The cells of a row of the row store. -/
def rowCells (C : Crates) (R : Reading G) (fields : List Field) (row : DataRow G.Value) :
    List (Option Cell) := (fileRow C R fields row).map Prod.snd

theorem rowCells_getElem {fields : List Field} {row : DataRow G.Value} {i : ℕ} {f : Field}
    (hf : fields[i]? = some f) : (rowCells C R fields row)[i]? =
      some (arrowCell C.rescale (arrowType f.fieldType) (cellValue R row i)) := by
  simp [rowCells, fileRow, List.getElem?_map, List.getElem?_zipIdx, hf]

def Provider.currentRow (C : Crates) (R : Reading G) (p : Provider) (columns : List (ColumnDef G))
    (row : DataRow G.Value) : Row :=
  p.schema.map fun f => (f.name, arrowCell C.rescale (arrowType f.fieldType)
    (cellValue R row ((columns.map ColumnDef.name).idxOf f.name)))

/-- The table that a provider was made for, as it has been opened. -/
structure Opened (site : Site G) (p : Provider) (columns : List (ColumnDef G)) (pk : ℕ)
    (m : TableMetadata) : Prop where
  schema : ∃ schema, readSchema site.writer.live p.table = some schema ∧
    schema.columnDefs = some columns ∧ pkPositions columns = [pk]
  table : site.tables p.table = some m
  fits : Fits m.schema.fields columns pk
  fields : p.schema = m.schema.fields.filter fun f => f.name ≠ surrogatePk
  names : (columns.map ColumnDef.name).Nodup
  key : ∃ f, m.schema.fields[pk]? = some f ∧ f.name = p.pkName ∧ p.pkType = arrowType f.fieldType ∧
    f.required = true

namespace Opened

variable {site : Site G} {p : Provider} {columns : List (ColumnDef G)} {pk : ℕ} {m : TableMetadata}

theorem fieldNames (h : Opened site p columns pk m) :
    m.schema.fields.map Field.name = columns.map ColumnDef.name := h.fits.names

theorem reopen (h : Opened site p columns pk m) {schema : Schema G} {site' : Site G}
    {samples : List (DataRow G.Value)} {w : LakehouseWriter}
    (hschema : readSchema site.writer.live p.table = some schema)
    (hw : Site.writerFor C R p.table schema samples site = .ok w site') :
    w.metadata = m ∧ w.pkFieldId = fieldIdOf (site.columnSlots p.table) pk ∧ site' = site := by
  obtain ⟨columns', pk', hmapped, -, rfl, rfl⟩ := writerFor_returns.mp hw
  obtain ⟨schema', hschema', hdefs, hkey⟩ := h.schema
  obtain rfl : schema = schema' := Option.some.inj (hschema.symm.trans hschema')
  obtain rfl : columns' = columns := Option.some.inj (hmapped.defs.symm.trans hdefs)
  obtain rfl : pk' = pk := by simpa using hmapped.key.symm.trans hkey
  have hsame : m.schema.fields = (evolved m.schema
      (site.desired R p.table columns' pk' samples)).fields :=
    (map_evolveField (h.fieldNames ▸ h.names) (fits_iff.mp h.fits)).symm
  have hmetadata : site.openedAs R p.table columns' pk' samples = m := by
    unfold Site.openedAs openedTable
    rw [h.table]
    exact if_pos hsame
  refine ⟨hmetadata, rfl, ?_⟩
  unfold Site.setTable
  dsimp only
  rw [hmetadata, ← h.table, Function.update_eq_self]

end Opened

theorem getElem_of_forall₂ {α β : Type} {r : α → β → Prop} {as : List α} {bs : List β}
    (h : List.Forall₂ r as bs) {i : ℕ} {b : β} (hb : bs[i]? = some b) :
    ∃ a, as[i]? = some a ∧ r a b := by
  induction h generalizing i with
  | nil => simp at hb
  | @cons a b' as bs hab _ ih =>
    cases i with
    | zero =>
      obtain rfl : b' = b := Option.some.inj hb
      exact ⟨a, rfl, hab⟩
    | succ i => exact ih hb

theorem filter_primary {columns : List (ColumnDef G)} {pk : ℕ} (h : pkPositions columns = [pk]) :
    ∃ c, columns[pk]? = some c ∧ columns.filter ColumnDef.primary = [c] := by
  unfold pkPositions at h
  obtain ⟨q, hfilter, hq⟩ := List.map_eq_singleton_iff.mp h
  have hmem : q ∈ columns.zipIdx :=
    List.mem_of_mem_filter (hfilter ▸ List.mem_singleton_self q)
  refine ⟨q.1, hq ▸ List.mem_zipIdx_iff_getElem?.mp hmem, ?_⟩
  have hmap : columns.filter ColumnDef.primary =
      (columns.zipIdx.filter fun p => p.1.primary).map Prod.fst := by
    conv_lhs => rw [← List.zipIdx_map_fst 0 columns]
    rw [List.filter_map]
    rfl
  rw [hmap, hfilter, List.map_singleton]

theorem tryNew_opened {s s' : Site G} {t : Name} {p : Provider} (hI : Integrity s.writer.live)
    (h : Provider.tryNew C R t s = .ok p s') :
    p.table = t ∧ s'.writer = s.writer ∧ s'.mirrored = s.mirrored ∧
      ∃ columns pk m, Opened s' p columns pk m := by
  unfold Provider.tryNew at h
  obtain ⟨schema, s₁, hget, h₁⟩ := bind_returns_iff.mp h
  obtain ⟨_, _, hsite, hfetch⟩ := bind_returns_iff.mp (engine_returns_iff.mp hget)
  obtain ⟨rfl, rfl⟩ := get_returns_iff.mp hsite
  obtain ⟨hfetched, rfl⟩ := ofExcept_returns_iff.mp hfetch
  have hschema := fetchSchema_eq_ok.mp hfetched
  obtain ⟨w, s₂, hw, h₂⟩ := bind_returns_iff.mp h₁
  obtain ⟨columns, pk, hmapped, -, rfl, rfl⟩ := writerFor_returns.mp (engine_returns_iff.mp hw)
  obtain ⟨pkName, _, hpk, h₃⟩ := bind_returns_iff.mp h₂
  obtain ⟨hname, rfl⟩ := ofExcept_returns_iff.mp (engine_returns_iff.mp hpk)
  obtain ⟨c, hc, hprimary⟩ := filter_primary hmapped.key
  obtain rfl : c.name = pkName := by
    unfold pkColumnName at hname
    rw [hmapped.defs] at hname
    dsimp only at hname
    rw [hprimary] at hname
    exact Except.ok.inj hname
  have hnames : (columns.map ColumnDef.name).Nodup := by
    obtain ⟨id, hat⟩ := hI.tableAt hschema
    have hnodup := (hI.tableOk hat).columns_nodup
    unfold schemaColumns at hnodup
    rw [hmapped.defs] at hnodup
    exact hnodup
  have hfits : Fits (s₁.openedAs R t columns pk []).schema.fields columns pk := by
    rw [Site.openedAs_fields]
    exact fits_openedFields ..
  have hcq : columns.zipIdx[pk]? = some (c, pk) := by simp [List.getElem?_zipIdx, hc]
  obtain ⟨f, hf, hcf, hrequired⟩ := getElem_of_forall₂ hfits hcq
  have hfind : ((s₁.openedAs R t columns pk []).schema.fields.find? fun f => f.name = c.name) =
      some f := by
    have hname : f.name = c.name := hcf
    rw [← hname]
    exact find_name (hfits.names ▸ hnames) (List.mem_of_getElem? hf)
  dsimp only at h₃
  rw [hfind] at h₃
  cases h₃
  refine ⟨rfl, rfl, rfl, columns, pk, _, ⟨schema, hschema, hmapped.defs, hmapped.key⟩,
    Function.update_self _ _ _, hfits, rfl, hnames, f, hf, hcf, rfl, by simpa using hrequired⟩

end BlueDB.Query
