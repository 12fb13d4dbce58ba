import BlueDB.Lakehouse.Seal
import BlueDB.Lakehouse.Site
import BlueDB.Lib.LinkedBatch

/-!
# When a table is sealed

The writer refuses a table that it cannot map to an Iceberg schema, a schema that
does not go with the persisted one, a column without an array type, and a null in
a required column. Sealing a table returns when none of these is the case, and
then changes nothing but the Iceberg table.
-/

namespace BlueDB.Lakehouse

open Sql

variable {G : Engine} {C : Crates} {R : Reading G}

theorem mapError_eq_ok {ε ε' α : Type} {x : Except ε α} {f : ε → ε'} {a : α} :
    x.mapError f = .ok a ↔ x = .ok a := by
  cases x <;> simp [Except.mapError]

/-- The builder takes the schema. -/
def Crates.Builds (C : Crates) (s : IcebergSchema) : Prop := C.build s = .ok s

theorem Crates.build_eq_ok {s s' : IcebergSchema} : C.build s = .ok s' ↔ C.Builds s ∧ s' = s := by
  constructor
  · intro h
    obtain rfl := C.build_eq s s' h
    exact ⟨h, rfl⟩
  · rintro ⟨h, rfl⟩
    exact h

/-- The Iceberg schema of a table whose columns have one primary key among them. -/
def desiredSchema (R : Reading G) (columns : List (ColumnDef G)) (slots : Option (List ℕ))
    (pk : ℕ) (samples : List (DataRow G.Value)) : IcebergSchema :=
  ⟨tableFields R columns slots pk samples, [fieldIdOf slots pk]⟩

structure Mapped (C : Crates) (R : Reading G) (schema : Schema G) (slots : Option (List ℕ))
    (columns : List (ColumnDef G)) (pk : ℕ) (samples : List (DataRow G.Value)) : Prop where
  defs : schema.columnDefs = some columns
  slotCount : ∀ s, slots = some s → s.length = columns.length
  key : pkPositions columns = [pk]
  builds : C.Builds (desiredSchema R columns slots pk samples)

theorem tableToIceberg_eq_ok {schema : Schema G} {slots : Option (List ℕ)}
    {samples : List (DataRow G.Value)} {out : IcebergSchema × ℕ} :
    tableToIceberg C R schema samples slots = .ok out ↔ ∃ columns pk,
      Mapped C R schema slots columns pk samples ∧
        out = (desiredSchema R columns slots pk samples, fieldIdOf slots pk) := by
  unfold tableToIceberg
  cases hcolumns : schema.columnDefs with
  | none =>
    simp only [reduceCtorEq, false_iff]
    rintro ⟨columns, pk, hmapped, -⟩
    exact absurd (hcolumns.symm.trans hmapped.defs) (by simp)
  | some columns =>
    dsimp only
    have hlen : (slots.any fun s => decide (s.length ≠ columns.length)) = false ↔
        ∀ s, slots = some s → s.length = columns.length := by
      cases slots <;> simp
    by_cases hslots : (slots.any fun s => decide (s.length ≠ columns.length)) = true
    · rw [if_pos hslots]
      simp only [reduceCtorEq, false_iff]
      rintro ⟨columns', pk, hmapped, -⟩
      obtain rfl := Option.some.inj (hcolumns.symm.trans hmapped.defs)
      rw [hlen.mpr hmapped.slotCount] at hslots
      exact Bool.false_ne_true hslots
    · rw [if_neg hslots]
      have hlen' := hlen.mp (by simpa using hslots)
      split
      case h_1 pk hkey =>
        rw [bind_eq_ok]
        simp only [mapError_eq_ok, Crates.build_eq_ok]
        constructor
        · rintro ⟨built, ⟨hbuilds, rfl⟩, hout⟩
          exact ⟨columns, pk, ⟨hcolumns, hlen', hkey, hbuilds⟩, (Except.ok.inj hout).symm⟩
        · rintro ⟨columns', pk', hmapped, rfl⟩
          obtain rfl := Option.some.inj (hcolumns.symm.trans hmapped.defs)
          obtain rfl : pk = pk' := by simpa using hkey.symm.trans hmapped.key
          exact ⟨_, ⟨hmapped.builds, rfl⟩, rfl⟩
      case h_2 hkey =>
        simp only [reduceCtorEq, false_iff]
        rintro ⟨columns', pk, hmapped, -⟩
        obtain rfl := Option.some.inj (hcolumns.symm.trans hmapped.defs)
        exact absurd (hkey.symm.trans hmapped.key) (by simp)
      case h_3 hone _ =>
        simp only [reduceCtorEq, false_iff]
        rintro ⟨columns', pk, hmapped, -⟩
        obtain rfl := Option.some.inj (hcolumns.symm.trans hmapped.defs)
        exact hone pk hmapped.key

/-- The table with the schema that it is opened with. -/
def openedTable (persisted : Option TableMetadata) (desired : IcebergSchema)
    (sortFieldIds : List ℕ) : TableMetadata :=
  match persisted with
  | some m => if m.schema.fields = (evolved m.schema desired).fields then m
    else { m with schema := evolved m.schema desired }
  | none => newTable desired sortFieldIds

/-- The fields of a table that is opened: those of a new table are numbered again. -/
def openedFields (persisted : Option TableMetadata) (desired : IcebergSchema) : List Field :=
  match persisted with
  | some m => (evolved m.schema desired).fields
  | none => renumber desired.fields

theorem openedTable_fields (persisted : Option TableMetadata) (desired : IcebergSchema)
    (sortFieldIds : List ℕ) : (openedTable persisted desired sortFieldIds).schema.fields =
      openedFields persisted desired := by
  cases persisted with
  | none => rfl
  | some m =>
    unfold openedTable openedFields
    dsimp only
    split_ifs with hsame
    · exact hsame
    · rfl

/-- The library takes the schema: for a new table, or for the persisted one, to which it is
added if it is another one. -/
def Crates.Accepts (C : Crates) (persisted : Option TableMetadata) (desired : IcebergSchema)
    (sortFieldIds : List ℕ) : Prop :=
  match persisted with
  | some m => C.Builds (evolved m.schema desired) ∧
    (m.schema.fields ≠ (evolved m.schema desired).fields →
      ∃ m', C.addCurrentSchema m (evolved m.schema desired) = .ok m')
  | none => ∃ m, C.fromTableCreation desired sortFieldIds = .ok m

def snapshotsOf (persisted : Option TableMetadata) : List Snapshot :=
  (persisted.map TableMetadata.snapshots).getD []

theorem openedTable_snapshots (persisted : Option TableMetadata) (desired : IcebergSchema)
    (sortFieldIds : List ℕ) :
    (openedTable persisted desired sortFieldIds).snapshots = snapshotsOf persisted := by
  cases persisted with
  | none => rfl
  | some m =>
    unfold openedTable
    dsimp only
    split_ifs <;> rfl

namespace Site

variable (R) (site : Site G) (t : Name) (columns : List (ColumnDef G)) (pk : ℕ)
  (samples : List (DataRow G.Value))

/-- The schema that a writer is asked for. -/
def desired : IcebergSchema := desiredSchema R columns (site.columnSlots t) pk samples

/-- The table as the writer opens it. -/
def openedAs : TableMetadata :=
  openedTable (site.tables t) (site.desired R t columns pk samples)
    (site.sortFieldIds t columns (fieldIdOf (site.columnSlots t) pk))

def fieldsAs : List Field := openedFields (site.tables t) (site.desired R t columns pk samples)

variable (C) in
/-- The library takes the schema for the table. -/
def Accepted : Prop :=
  C.Accepts (site.tables t) (site.desired R t columns pk samples)
    (site.sortFieldIds t columns (fieldIdOf (site.columnSlots t) pk))

theorem openedAs_fields : (site.openedAs R t columns pk samples).schema.fields =
    site.fieldsAs R t columns pk samples := openedTable_fields _ _ _

theorem openedAs_snapshots : (site.openedAs R t columns pk samples).snapshots =
    snapshotsOf (site.tables t) := openedTable_snapshots _ _ _

end Site

namespace LakehouseWriter

theorem openTable_eq_ok {persisted : Option TableMetadata} {desired : IcebergSchema} {pkFieldId : ℕ}
    {sortFieldIds : List ℕ} {w : LakehouseWriter} :
    openTable C persisted desired pkFieldId sortFieldIds = .ok w ↔
      C.Accepts persisted desired sortFieldIds ∧
        w = ⟨openedTable persisted desired sortFieldIds, pkFieldId, [], []⟩ := by
  cases persisted with
  | none =>
    simp only [openTable, openedTable, Crates.Accepts, bind_eq_ok, mapError_eq_ok]
    constructor
    · rintro ⟨m, hcreated, hw⟩
      obtain rfl := C.fromTableCreation_eq _ _ _ hcreated
      exact ⟨⟨_, hcreated⟩, (Except.ok.inj hw).symm⟩
    · rintro ⟨⟨m, hcreated⟩, rfl⟩
      obtain rfl := C.fromTableCreation_eq _ _ _ hcreated
      exact ⟨_, hcreated, rfl⟩
  | some m =>
    unfold openTable reconcileSchema openedTable Crates.Accepts
    simp only [bind_eq_ok, mapError_eq_ok, Crates.build_eq_ok]
    by_cases hsame : m.schema.fields = (evolved m.schema desired).fields
    · rw [if_pos hsame]
      constructor
      · rintro ⟨out, ⟨rebuilt, ⟨hbuilds, rfl⟩, hout⟩, hw⟩
        rw [if_pos hsame] at hout
        obtain rfl := Except.ok.inj hout
        exact ⟨⟨hbuilds, fun hne => absurd hsame hne⟩, (Except.ok.inj hw).symm⟩
      · rintro ⟨⟨hbuilds, -⟩, rfl⟩
        exact ⟨none, ⟨_, ⟨hbuilds, rfl⟩, by rw [if_pos hsame]; rfl⟩, rfl⟩
    · rw [if_neg hsame]
      constructor
      · rintro ⟨out, ⟨rebuilt, ⟨hbuilds, rfl⟩, hout⟩, hw⟩
        rw [if_neg hsame] at hout
        obtain rfl := Except.ok.inj hout
        simp only [bind_eq_ok, mapError_eq_ok] at hw
        obtain ⟨m', hadded, hw⟩ := hw
        obtain rfl := C.addCurrentSchema_eq _ _ _ hadded
        exact ⟨⟨hbuilds, fun _ => ⟨_, hadded⟩⟩, (Except.ok.inj hw).symm⟩
      · rintro ⟨⟨hbuilds, hadds⟩, rfl⟩
        obtain ⟨m', hadded⟩ := hadds hsame
        obtain rfl := C.addCurrentSchema_eq _ _ _ hadded
        refine ⟨some _, ⟨_, ⟨hbuilds, rfl⟩, by rw [if_neg hsame]; rfl⟩, ?_⟩
        simp only [bind_eq_ok, mapError_eq_ok]
        exact ⟨_, hadded, rfl⟩

theorem checkColumns_eq_ok {fields : List Field} :
    checkColumns fields = .ok () ↔ ∀ f ∈ fields, (arrowType f.fieldType).supported = true := by
  unfold checkColumns
  cases hfind : fields.find? fun f => !(arrowType f.fieldType).supported with
  | some f =>
    simp only [reduceCtorEq, false_iff, not_forall]
    obtain ⟨hmem, hf⟩ := List.mem_of_find?_eq_some hfind, List.find?_some hfind
    exact ⟨f, hmem, by simpa using hf⟩
  | none =>
    have hall := List.find?_eq_none.mp hfind
    simpa using hall

def Filled (C : Crates) (R : Reading G) (fields : List Field) (rows : List (DataRow G.Value)) :
    Prop :=
  ∀ p ∈ fields.zipIdx, p.1.required = true → ∀ row ∈ rows,
    (arrowCell C.rescale (arrowType p.1.fieldType) (cellValue R row p.2)).isSome = true

theorem rowsToRecordBatch_eq_ok {fields : List Field} {rows : List (DataRow G.Value)}
    {batch : List FileRow} :
    rowsToRecordBatch C R fields rows = .ok batch ↔
      (∀ f ∈ fields, (arrowType f.fieldType).supported = true) ∧ Filled C R fields rows ∧
        batch = rows.map (fileRow C R fields) := by
  unfold rowsToRecordBatch
  rw [bind_eq_ok]
  constructor
  · rintro ⟨⟨⟩, hcolumns, h⟩
    refine ⟨checkColumns_eq_ok.mp hcolumns, ?_⟩
    split at h
    case h_1 => exact absurd h (by simp)
    case h_2 hfind =>
      refine ⟨fun p hp hrequired row hrow => ?_, (Except.ok.inj h).symm⟩
      have hnone := List.find?_eq_none.mp hfind p hp
      simp only [hrequired, Bool.true_and, List.any_eq_true, not_exists, not_and] at hnone
      exact Option.isSome_iff_ne_none.mpr (by simpa using hnone row hrow)
  · rintro ⟨hcolumns, hfilled, rfl⟩
    refine ⟨(), checkColumns_eq_ok.mpr hcolumns, ?_⟩
    split
    case h_1 p hfind =>
      have hp := List.find?_some hfind
      simp only [Bool.and_eq_true, List.any_eq_true] at hp
      obtain ⟨hrequired, row, hrow, hnone⟩ := hp
      have hsome := hfilled p (List.mem_of_find?_eq_some hfind) hrequired row hrow
      rw [Option.isNone_iff_eq_none] at hnone
      simp [hnone] at hsome
    case h_2 => rfl

/-- The key column, for a delete file with the keys. -/
structure Deletable (C : Crates) (R : Reading G) (fields : List Field) (pkFieldId : ℕ)
    (keys : List G.Key) (f : Field) : Prop where
  supported : ∀ g ∈ fields, (arrowType g.fieldType).supported = true
  find : (fields.find? fun g => g.id = pkFieldId) = some f
  filled : f.required = true → ∀ k ∈ keys, (keyCell C R f k).isSome = true
  builds : C.Builds ⟨[f], [pkFieldId]⟩

/-- The delete file of the keys. -/
def deleteFile (C : Crates) (R : Reading G) (f : Field) (pkFieldId : ℕ) (keys : List G.Key) :
    EqualityDelete :=
  ⟨pkFieldId, keys.map (keyCell C R f)⟩

theorem stageDeletes_eq_ok {w w' : LakehouseWriter} {keys : List G.Key} (hkeys : keys ≠ []) :
    stageDeletes C R w keys = .ok w' ↔
      ∃ f, Deletable C R w.metadata.schema.fields w.pkFieldId keys f ∧
        w' = { w with
          pendingDeletes := w.pendingDeletes ++ [deleteFile C R f w.pkFieldId keys] } := by
  unfold stageDeletes
  rw [if_neg hkeys, bind_eq_ok]
  constructor
  · rintro ⟨⟨⟩, hcolumns, h⟩
    have hsupported := checkColumns_eq_ok.mp hcolumns
    split at h
    case h_1 => exact absurd h (by simp)
    case h_2 f hfind =>
      split_ifs at h with hnull
      · exact absurd h (by simp [bind, Except.bind])
      · rw [bind_eq_ok] at h
        obtain ⟨built, hbuild, h⟩ := h
        rw [mapError_eq_ok, Crates.build_eq_ok] at hbuild
        refine ⟨f, ⟨hsupported, hfind, ?_, hbuild.1⟩, (Except.ok.inj h).symm⟩
        intro hrequired k hk
        by_contra hnone
        apply hnull
        simp only [hrequired, Bool.true_and, List.any_eq_true]
        exact ⟨k, hk, by simpa using hnone⟩
  · rintro ⟨f, hdeletable, rfl⟩
    refine ⟨(), checkColumns_eq_ok.mpr hdeletable.supported, ?_⟩
    rw [hdeletable.find]
    dsimp only
    have hnull : ¬(f.required && keys.any fun k => (keyCell C R f k).isNone) = true := by
      simp only [Bool.and_eq_true, List.any_eq_true, not_and, not_exists]
      intro hrequired k hk
      simpa using Option.isSome_iff_ne_none.mp (hdeletable.filled hrequired k hk)
    rw [if_neg hnull, bind_eq_ok]
    exact ⟨_, mapError_eq_ok.mpr hdeletable.builds, rfl⟩

theorem Deletable.unique {fields : List Field} {pkFieldId : ℕ} {keys keys' : List G.Key}
    {f f' : Field} (h : Deletable C R fields pkFieldId keys f)
    (h' : Deletable C R fields pkFieldId keys' f') : f = f' :=
  Option.some.inj (h.find.symm.trans h'.find)

theorem upsert_eq_ok {w w' : LakehouseWriter} {rows : List (G.Key × DataRow G.Value)}
    (hrows : rows ≠ []) :
    upsert C R w rows = .ok w' ↔
      ∃ f, Filled C R w.metadata.schema.fields (rows.map Prod.snd) ∧
        Deletable C R w.metadata.schema.fields w.pkFieldId (rows.map Prod.fst) f ∧
        w' = { w with
          pendingData := w.pendingData ++
            [(rows.map Prod.snd).map (fileRow C R w.metadata.schema.fields)]
          pendingDeletes := w.pendingDeletes ++
            [deleteFile C R f w.pkFieldId (rows.map Prod.fst)] } := by
  have hkeys : rows.map Prod.fst ≠ [] := by simpa using hrows
  unfold upsert
  rw [if_neg hrows, bind_eq_ok]
  constructor
  · rintro ⟨batch, hbatch, h⟩
    obtain ⟨-, hfilled, rfl⟩ := rowsToRecordBatch_eq_ok.mp hbatch
    obtain ⟨f, hdeletable, rfl⟩ := (stageDeletes_eq_ok hkeys).mp h
    exact ⟨f, hfilled, hdeletable, rfl⟩
  · rintro ⟨f, hfilled, hdeletable, rfl⟩
    refine ⟨_, rowsToRecordBatch_eq_ok.mpr ⟨hdeletable.supported, hfilled, rfl⟩, ?_⟩
    exact (stageDeletes_eq_ok hkeys).mpr ⟨f, hdeletable, rfl⟩

end LakehouseWriter

theorem mem_changesOf {entries : List (CdcEntry G)} {t : Name} {k : G.Key}
    {image : Option (DataRow G.Value)} :
    (k, image) ∈ changesOf entries t ↔ collapseLww entries (t, k) = some image := by
  unfold changesOf
  rw [List.mem_filterMap]
  constructor
  · rintro ⟨k', -, hmap⟩
    obtain ⟨image', himage, heq⟩ := Option.map_eq_some_iff.mp hmap
    obtain ⟨rfl, rfl⟩ := Prod.mk.inj heq
    exact himage
  · intro himage
    refine ⟨k, ?_, by rw [himage]; rfl⟩
    have hsome : ¬∀ p ∈ entries, rowKey p ≠ (t, k) := by
      rw [← last_changes_eq_none, ← collapseLww_apply, himage]
      simp
    push Not at hsome
    obtain ⟨p, hp, hkey⟩ := hsome
    obtain ⟨rfl, rfl⟩ := Prod.mk.inj hkey
    rw [List.mem_dedup]
    exact List.mem_map_of_mem (List.mem_filter.mpr ⟨hp, by simp⟩)

section Changes

variable {changes : List (G.Key × Option (DataRow G.Value))}

theorem mem_upserts {k : G.Key} {row : DataRow G.Value} :
    (k, row) ∈ upserts changes ↔ (k, some row) ∈ changes := by
  unfold upserts
  rw [List.mem_filterMap]
  constructor
  · rintro ⟨⟨k', image⟩, hmem, hmap⟩
    cases image with
    | none => exact absurd hmap (by simp)
    | some row' =>
      obtain ⟨rfl, rfl⟩ := Prod.mk.inj (Option.some.inj hmap)
      exact hmem
  · intro hmem
    exact ⟨_, hmem, rfl⟩

theorem mem_deletes {k : G.Key} : k ∈ deletes changes ↔ (k, none) ∈ changes := by
  unfold deletes
  simp [List.mem_filter]

theorem mem_keys {k : G.Key} : k ∈ changes.map Prod.fst ↔
    k ∈ (upserts changes).map Prod.fst ∨ k ∈ deletes changes := by
  rw [List.mem_map, List.mem_map, mem_deletes]
  constructor
  · rintro ⟨⟨k', image⟩, hmem, rfl⟩
    cases image with
    | none => exact Or.inr hmem
    | some row => exact Or.inl ⟨(k', row), mem_upserts.mpr hmem, rfl⟩
  · rintro (⟨p, hmem, rfl⟩ | hmem)
    · exact ⟨(p.1, some p.2), mem_upserts.mp hmem, rfl⟩
    · exact ⟨(k, none), hmem, rfl⟩

end Changes

open LakehouseWriter

/-- What it takes to seal a table. The columns map to an Iceberg schema with one key
column, which the library takes for the table, every column has an array type, and the
rows and keys leave no required column without a cell. -/
structure Sealable (C : Crates) (R : Reading G) (site : Site G) (t : Name)
    (changes : List (G.Key × Option (DataRow G.Value))) (columns : List (ColumnDef G)) (pk : ℕ)
    (f : Field) : Prop where
  schema : ∃ schema, readSchema site.writer.live t = some schema ∧
    Mapped C R schema (site.columnSlots t) columns pk ((upserts changes).map Prod.snd)
  accepted : site.Accepted C R t columns pk ((upserts changes).map Prod.snd)
  filled : Filled C R (site.fieldsAs R t columns pk ((upserts changes).map Prod.snd))
    ((upserts changes).map Prod.snd)
  deletable : Deletable C R (site.fieldsAs R t columns pk ((upserts changes).map Prod.snd))
    (fieldIdOf (site.columnSlots t) pk) (changes.map Prod.fst) f

def dataFiles (C : Crates) (R : Reading G) (fields : List Field)
    (changes : List (G.Key × Option (DataRow G.Value))) : List (List FileRow) :=
  if upserts changes = [] then [] else [((upserts changes).map Prod.snd).map (fileRow C R fields)]

def deleteFiles (C : Crates) (R : Reading G) (f : Field) (pkFieldId : ℕ)
    (changes : List (G.Key × Option (DataRow G.Value))) : List EqualityDelete :=
  (if upserts changes = [] then []
    else [deleteFile C R f pkFieldId ((upserts changes).map Prod.fst)]) ++
  if deletes changes = [] then [] else [deleteFile C R f pkFieldId (deletes changes)]

def snapshotOf (C : Crates) (R : Reading G) (fields : List Field) (pkFieldId : ℕ) (f : Field)
    (changes : List (G.Key × Option (DataRow G.Value))) (watermark : ℕ) : Snapshot :=
  ⟨watermark, dataFiles C R fields changes, deleteFiles C R f pkFieldId changes⟩

def sealedTable (C : Crates) (R : Reading G) (site : Site G) (t : Name)
    (changes : List (G.Key × Option (DataRow G.Value))) (watermark : ℕ)
    (columns : List (ColumnDef G)) (pk : ℕ) (f : Field) : TableMetadata :=
  { site.openedAs R t columns pk ((upserts changes).map Prod.snd) with
    snapshots := snapshotsOf (site.tables t) ++
      [snapshotOf C R (site.fieldsAs R t columns pk ((upserts changes).map Prod.snd))
        (fieldIdOf (site.columnSlots t) pk) f changes watermark] }

theorem fetchSchema_eq_ok {site : Site G} {t : Name} {schema : Schema G} :
    site.fetchSchema t = .ok schema ↔ readSchema site.writer.live t = some schema := by
  unfold Site.fetchSchema
  cases readSchema site.writer.live t <;> simp

theorem writerFor_returns {site site' : Site G} {t : Name} {schema : Schema G}
    {samples : List (DataRow G.Value)} {w : LakehouseWriter} :
    Site.writerFor C R t schema samples site = .ok w site' ↔ ∃ columns pk,
      Mapped C R schema (site.columnSlots t) columns pk samples ∧
      site.Accepted C R t columns pk samples ∧
      w = ⟨site.openedAs R t columns pk samples, fieldIdOf (site.columnSlots t) pk, [], []⟩ ∧
      site' = site.setTable t w.metadata := by
  have hcolumns : ∀ {columns pk}, Mapped C R schema (site.columnSlots t) columns pk samples →
      schema.columnDefs.getD [] = columns := by
    intro columns pk hmapped
    rw [hmapped.defs, Option.getD_some]
  unfold Site.writerFor
  rw [bind_returns_iff]
  constructor
  · rintro ⟨_, _, hget, h⟩
    obtain ⟨rfl, rfl⟩ : site = _ ∧ site = _ := by
      injection hget with h1 h2
      exact ⟨h1, h2⟩
    rw [bind_returns_iff] at h
    obtain ⟨iceberg, _, hiceberg, h⟩ := h
    rw [ofExcept_returns_iff] at hiceberg
    obtain ⟨hiceberg, rfl⟩ := hiceberg
    obtain ⟨columns, pk, hmapped, rfl⟩ := tableToIceberg_eq_ok.mp hiceberg
    dsimp only at h
    rw [hcolumns hmapped, bind_returns_iff] at h
    obtain ⟨w', _, hopen, h⟩ := h
    rw [ofExcept_returns_iff] at hopen
    obtain ⟨hopen, rfl⟩ := hopen
    obtain ⟨haccepted, rfl⟩ := openTable_eq_ok.mp hopen
    injection h with hw hsite
    subst w
    exact ⟨columns, pk, hmapped, haccepted, rfl, hsite.symm⟩
  · rintro ⟨columns, pk, hmapped, haccepted, rfl, rfl⟩
    refine ⟨site, site, rfl, ?_⟩
    rw [bind_returns_iff]
    refine ⟨_, site, ofExcept_returns_iff.mpr
      ⟨tableToIceberg_eq_ok.mpr ⟨columns, pk, hmapped, rfl⟩, rfl⟩, ?_⟩
    dsimp only
    rw [hcolumns hmapped, bind_returns_iff]
    exact ⟨_, site, ofExcept_returns_iff.mpr ⟨openTable_eq_ok.mpr ⟨haccepted, rfl⟩, rfl⟩, rfl⟩

section Staging

variable {changes : List (G.Key × Option (DataRow G.Value))}

theorem exists_upsert_or_delete (h : changes ≠ []) :
    upserts changes ≠ [] ∨ deletes changes ≠ [] := by
  obtain ⟨p, hp⟩ := List.exists_mem_of_ne_nil _ h
  rcases mem_keys.mp (List.mem_map_of_mem hp) with hkey | hkey
  · left
    rintro hnil
    simp [hnil] at hkey
  · exact Or.inr (List.ne_nil_of_mem hkey)

theorem Deletable.keys {fields : List Field} {pkFieldId : ℕ} {f : Field} :
    Deletable C R fields pkFieldId (changes.map Prod.fst) f ↔
      Deletable C R fields pkFieldId ((upserts changes).map Prod.fst) f ∧
        Deletable C R fields pkFieldId (deletes changes) f := by
  constructor
  · intro h
    constructor
    · exact ⟨h.supported, h.find, fun hr k hk => h.filled hr k (mem_keys.mpr (Or.inl hk)), h.builds⟩
    · exact ⟨h.supported, h.find, fun hr k hk => h.filled hr k (mem_keys.mpr (Or.inr hk)), h.builds⟩
  · rintro ⟨hu, hd⟩
    refine ⟨hu.supported, hu.find, fun hr k hk => ?_, hu.builds⟩
    rcases mem_keys.mp hk with hk | hk
    · exact hu.filled hr k hk
    · exact hd.filled hr k hk

theorem Deletable.nil {fields : List Field} {pkFieldId : ℕ} {f : Field} {keys : List G.Key}
    (h : Deletable C R fields pkFieldId keys f) : Deletable C R fields pkFieldId [] f :=
  ⟨h.supported, h.find, fun _ _ hk => absurd hk List.not_mem_nil, h.builds⟩

theorem stage_eq_ok {metadata : TableMetadata} {pkFieldId : ℕ} {w : LakehouseWriter}
    (hchanges : changes ≠ []) :
    (upsert C R ⟨metadata, pkFieldId, [], []⟩ (upserts changes) >>= fun w' =>
        LakehouseWriter.delete C R w' (deletes changes)) = .ok w ↔
      ∃ f, Filled C R metadata.schema.fields ((upserts changes).map Prod.snd) ∧
        Deletable C R metadata.schema.fields pkFieldId (changes.map Prod.fst) f ∧
        w = ⟨metadata, pkFieldId, dataFiles C R metadata.schema.fields changes,
          deleteFiles C R f pkFieldId changes⟩ := by
  simp only [Deletable.keys, bind_eq_ok, LakehouseWriter.delete]
  by_cases hu : upserts changes = []
  · have hd : deletes changes ≠ [] := (exists_upsert_or_delete hchanges).resolve_left (· hu)
    rw [hu]
    constructor
    · rintro ⟨w', hw', h⟩
      obtain rfl := Except.ok.inj hw'
      obtain ⟨f, hdeletable, rfl⟩ := (stageDeletes_eq_ok hd).mp h
      refine ⟨f, fun _ _ _ _ hrow => absurd hrow (by simp), ⟨Deletable.nil hdeletable, hdeletable⟩,
          ?_⟩
      simp [dataFiles, deleteFiles, hu, hd]
    · rintro ⟨f, -, ⟨-, hdeletable⟩, hw⟩
      refine ⟨_, rfl, (stageDeletes_eq_ok hd).mpr ⟨f, hdeletable, ?_⟩⟩
      rw [hw]
      simp [dataFiles, deleteFiles, hu, hd]
  · by_cases hd : deletes changes = []
    · rw [hd]
      constructor
      · rintro ⟨w', hw', h⟩
        obtain rfl := Except.ok.inj h
        obtain ⟨f, hfilled, hdeletable, rfl⟩ := (upsert_eq_ok hu).mp hw'
        refine ⟨f, hfilled, ⟨hdeletable, Deletable.nil hdeletable⟩, ?_⟩
        simp [dataFiles, deleteFiles, hu, hd]
      · rintro ⟨f, hfilled, ⟨hdeletable, -⟩, hw⟩
        refine ⟨w, (upsert_eq_ok hu).mpr ⟨f, hfilled, hdeletable, ?_⟩, rfl⟩
        rw [hw]
        simp [dataFiles, deleteFiles, hu, hd]
    · constructor
      · rintro ⟨w', hw', h⟩
        obtain ⟨f, hfilled, hdeletable, rfl⟩ := (upsert_eq_ok hu).mp hw'
        obtain ⟨f', hdeletable', rfl⟩ := (stageDeletes_eq_ok hd).mp h
        obtain rfl := hdeletable.unique hdeletable'
        refine ⟨f, hfilled, ⟨hdeletable, hdeletable'⟩, ?_⟩
        simp [dataFiles, deleteFiles, hu, hd]
      · rintro ⟨f, hfilled, ⟨hdeletable, hdeletable'⟩, hw⟩
        refine ⟨_, (upsert_eq_ok hu).mpr ⟨f, hfilled, hdeletable, rfl⟩, ?_⟩
        refine (stageDeletes_eq_ok hd).mpr ⟨f, hdeletable', ?_⟩
        rw [hw]
        simp [dataFiles, deleteFiles, hu, hd]

theorem deleteFiles_ne_nil {pkFieldId : ℕ} {f : Field} (hchanges : changes ≠ []) :
    deleteFiles C R f pkFieldId changes ≠ [] := by
  unfold deleteFiles
  rcases exists_upsert_or_delete hchanges with h | h <;> simp [h]

end Staging

@[simp] theorem setTable_setTable (site : Site G) (t : Name) (table table' : TableMetadata) :
    (site.setTable t table).setTable t table' = site.setTable t table' := by
  simp [Site.setTable]

theorem sealTable_returns {site site' : Site G} {t : Name}
    {changes : List (G.Key × Option (DataRow G.Value))} {watermark : ℕ} (hchanges : changes ≠ []) :
    Site.sealTable C R t changes watermark site = .ok () site' ↔ ∃ columns pk f,
      Sealable C R site t changes columns pk f ∧
        site' = site.setTable t (sealedTable C R site t changes watermark columns pk f) := by
  unfold Site.sealTable
  rw [if_neg hchanges, bind_returns_iff]
  constructor
  · rintro ⟨_, _, hget, h⟩
    obtain ⟨rfl, rfl⟩ : site = _ ∧ site = _ := by
      injection hget with h1 h2
      exact ⟨h1, h2⟩
    rw [bind_returns_iff] at h
    obtain ⟨schema, _, hschema, h⟩ := h
    rw [ofExcept_returns_iff, fetchSchema_eq_ok] at hschema
    obtain ⟨hschema, rfl⟩ := hschema
    rw [bind_returns_iff] at h
    obtain ⟨w, _, hw, h⟩ := h
    obtain ⟨columns, pk, hmapped, haccepted, rfl, rfl⟩ := writerFor_returns.mp hw
    rw [bind_returns_iff] at h
    obtain ⟨w, _, hup, h⟩ := h
    rw [ofExcept_returns_iff] at hup
    obtain ⟨hup, rfl⟩ := hup
    rw [bind_returns_iff] at h
    obtain ⟨w', _, hdel, h⟩ := h
    rw [ofExcept_returns_iff] at hdel
    obtain ⟨hdel, rfl⟩ := hdel
    have hstage := (stage_eq_ok hchanges).mp (bind_eq_ok.mpr ⟨w, hup, hdel⟩)
    obtain ⟨f, hfilled, hdeletable, hw'⟩ := hstage
    rw [Site.openedAs_fields] at hfilled hdeletable
    refine ⟨columns, pk, f, ⟨⟨schema, hschema, hmapped⟩, haccepted, hfilled, hdeletable⟩, ?_⟩
    injection h with _ hsite
    rw [← hsite, hw']
    simp only [commitSnapshot, deleteFiles_ne_nil hchanges, and_false, if_false, setTable_setTable,
      Site.openedAs_fields, Site.openedAs_snapshots]
    rfl
  · rintro ⟨columns, pk, f, hsealable, rfl⟩
    obtain ⟨schema, hschema, hmapped⟩ := hsealable.schema
    have hfilled := hsealable.filled
    have hdeletable := hsealable.deletable
    rw [← Site.openedAs_fields] at hfilled hdeletable
    have hstage := (stage_eq_ok hchanges).mpr ⟨f, hfilled, hdeletable, rfl⟩
    obtain ⟨w, hup, hdel⟩ := bind_eq_ok.mp hstage
    refine ⟨site, site, rfl, ?_⟩
    rw [bind_returns_iff]
    refine ⟨schema, site, ofExcept_returns_iff.mpr ⟨fetchSchema_eq_ok.mpr hschema, rfl⟩, ?_⟩
    rw [bind_returns_iff]
    refine ⟨_, _, writerFor_returns.mpr ⟨columns, pk, hmapped, hsealable.accepted, rfl, rfl⟩, ?_⟩
    rw [bind_returns_iff]
    refine ⟨w, _, ofExcept_returns_iff.mpr ⟨hup, rfl⟩, ?_⟩
    rw [bind_returns_iff]
    refine ⟨_, _, ofExcept_returns_iff.mpr ⟨hdel, rfl⟩, ?_⟩
    change EStateM.Result.ok () ((site.setTable t _).setTable t _) = _
    rw [setTable_setTable]
    simp only [commitSnapshot, deleteFiles_ne_nil hchanges, and_false, if_false,
      Site.openedAs_fields, Site.openedAs_snapshots]
    rfl

end BlueDB.Lakehouse
