import BlueDB.Lakehouse.Values
import BlueDB.Lib.MergeOnRead

/-!
# Iceberg tables

A mirrored table has an Iceberg table whose columns carry field ids. A new table
gets its ids from the library, and a later schema is reconciled with the persisted
one by the names of its columns. The writer turns rows into batches column by
column in the order of the schema, and publishes what it has staged as one
snapshot.
-/

namespace BlueDB.Lakehouse

open Sql

variable {G : Engine}

/-- A field, with the ids inside it when it is a list or a map. -/
structure Field where
  id : ℕ
  name : Name
  fieldType : IcebergType
  required : Bool
  inner : List ℕ
  deriving DecidableEq

structure IcebergSchema where
  fields : List Field
  identifierFieldIds : List ℕ
  deriving DecidableEq

def IcebergType.identifies : IcebergType → Bool
  | .primitive .float | .primitive .double | .list | .map => false
  | _ => true

structure WellFormed (s : IcebergSchema) : Prop where
  ids : (s.fields.flatMap fun f => f.id :: f.inner).Nodup
  names : (s.fields.map Field.name).Nodup
  identifiers : ∀ id ∈ s.identifierFieldIds, ∃ f ∈ s.fields, f.id = id ∧ f.required = true ∧
    f.fieldType.identifies = true

/-- A row of a data file: its cells by field id. -/
abbrev FileRow := List (ℕ × Option Cell)

structure EqualityDelete where
  fieldId : ℕ
  cells : List (Option Cell)
  deriving DecidableEq

structure Snapshot where
  watermark : ℕ
  data : List (List FileRow)
  deletes : List EqualityDelete
  deriving DecidableEq

/-- The current schema of a table, the fields of its sort order, and its snapshots; the
sequence number of a snapshot is its place. -/
structure TableMetadata where
  schema : IcebergSchema
  sortFieldIds : List ℕ
  snapshots : List Snapshot
  deriving DecidableEq

/-- Ids for so many each, one after the other. -/
def drawIds (next : ℕ) : List ℕ → List (List ℕ)
  | [] => []
  | n :: rest => List.range' next n :: drawIds (next + n) rest

/-- A new table numbers its fields from one, and then what is inside them. -/
def renumber (fields : List Field) : List Field :=
  let inner := drawIds (fields.length + 1) (fields.map fun f => f.inner.length)
  fields.zipIdx.map fun p => { p.1 with id := p.2 + 1, inner := inner[p.2]?.getD [] }

def newTable (s : IcebergSchema) (sortFieldIds : List ℕ) : TableMetadata :=
  let renumbered := fun id => s.fields.findIdx (fun f => f.id = id) + 1
  ⟨⟨renumber s.fields, s.identifierFieldIds.map renumbered⟩, sortFieldIds.map renumbered, []⟩

/-- What the writer uses of the decimal and the Iceberg library: a decimal brought to a
scale, the schema builder, and the builder of a table's metadata. What they do not take
fails. -/
structure Crates where
  rescale : Decimal → ℕ → Decimal
  build : IcebergSchema → Except String IcebergSchema
  fromTableCreation : IcebergSchema → List ℕ → Except String TableMetadata
  addCurrentSchema : TableMetadata → IcebergSchema → Except String TableMetadata
  build_eq : ∀ s s', build s = .ok s' → s' = s
  fromTableCreation_eq : ∀ s ids m, fromTableCreation s ids = .ok m → m = newTable s ids
  addCurrentSchema_eq : ∀ m s m', addCurrentSchema m s = .ok m' → m' = { m with schema := s }

instance (s : IcebergSchema) : Decidable (WellFormed s) :=
  decidable_of_iff ((s.fields.flatMap fun f => f.id :: f.inner).Nodup ∧
      (s.fields.map Field.name).Nodup ∧
      ∀ id ∈ s.identifierFieldIds, ∃ f ∈ s.fields, f.id = id ∧ f.required = true ∧
        f.fieldType.identifies = true)
    ⟨fun h => ⟨h.1, h.2.1, h.2.2⟩, fun h => ⟨h.ids, h.names, h.identifiers⟩⟩

/-- The values and keys of the engine, and how many ids the types take that are inferred for
a list or map column from sampled cells. A key of an integer, a text or a byte string
is told by its value, and by its bytes among the keys of one type. -/
structure Reading (G : Engine) where
  value : G.Value → Value
  key : G.Key → Key
  nestedIds : DataType → List G.Value → ℕ
  value_null : value G.null = .null
  key_inj : Function.Injective key
  keyOf : ∀ {v k key'}, G.keyOf v = .ok k → keyOfValue (value v) = some key' → key k = key'
  bytes_inj : ∀ {dt v w k k' bytes}, IsKeyType dt = true → HasType dt v = true →
    HasType dt w = true → keyOfValue v = some (key k) → keyOfValue w = some (key k') →
    G.toCmpBeBytes k = .ok bytes → G.toCmpBeBytes k' = .ok bytes → k = k'

inductive LakehouseError
  | tableNotFound (table : Name)
  | schemaless (table : Name)
  | slotCount (table : Name) (slots columns : ℕ)
  | noPrimaryKey (table : Name)
  | compositePrimaryKey (table : Name)
  | building (reason : String)
  | reconciling (reason : String)
  | creating (reason : String)
  | evolving (reason : String)
  | columnNotSupported (t : ArrowType)
  | recordBatch (column : Name)
  | deleteBatch (column : Name)
  | pkNotInSchema
  | pkSchema (reason : String)
  | sql
  deriving DecidableEq

/-- A field id is one above the slot of its column; without a catalog the position
is the slot. -/
def fieldIdOf (slots : Option (List ℕ)) (i : ℕ) : ℕ :=
  match slots with
  | some slots => slots[i]?.getD 0 + 1
  | none => i + 1

def pkPositions (columns : List (ColumnDef G)) : List ℕ :=
  (columns.zipIdx.filter fun p => p.1.primary).map Prod.snd

/-- How many ids a column draws, none for a scalar type. -/
def drawnIds (R : Reading G) (samples : List (DataRow G.Value)) (p : ColumnDef G × ℕ) : ℕ :=
  if (icebergPrimitive p.1.dataType).isSome then 0
  else R.nestedIds p.1.dataType (samples.filterMap fun
    | .vec values => values[p.2]?
    | .map _ => none)

/-- The primary key is required whatever its definition says. The ids inside the columns
start above those of the columns. -/
def tableFields (R : Reading G) (columns : List (ColumnDef G)) (slots : Option (List ℕ))
    (pk : ℕ) (samples : List (DataRow G.Value)) : List Field :=
  let top := (columns.zipIdx.map fun p => fieldIdOf slots p.2).foldr max 0
  let inner := drawIds (top + 1) (columns.zipIdx.map (drawnIds R samples))
  columns.zipIdx.map fun p => ⟨fieldIdOf slots p.2, p.1.name, icebergType p.1.dataType,
    decide (p.2 = pk) || !p.1.nullable, inner[p.2]?.getD []⟩

/-- The Iceberg schema of a table, with the field id of its primary key. -/
def tableToIceberg (C : Crates) (R : Reading G) (schema : Schema G)
    (samples : List (DataRow G.Value)) (slots : Option (List ℕ)) :
    Except LakehouseError (IcebergSchema × ℕ) :=
  match schema.columnDefs with
  | none => .error (.schemaless schema.tableName)
  | some columns =>
    if slots.any fun s => s.length ≠ columns.length then
      .error (.slotCount schema.tableName (slots.getD []).length columns.length)
    else
      match pkPositions columns with
      | [pk] => do
        let built ← (C.build ⟨tableFields R columns slots pk samples,
          [fieldIdOf slots pk]⟩).mapError .building
        return (built, fieldIdOf slots pk)
      | [] => .error (.noPrimaryKey schema.tableName)
      | _ => .error (.compositePrimaryKey schema.tableName)

/-- A field that is persisted under its name keeps the id and the type from there. -/
def evolveField (current : List Field) (d : Field) : Field :=
  match current.find? fun f => f.name = d.name with
  | some existing => { existing with name := d.name, required := d.required }
  | none => d

def evolved (current desired : IcebergSchema) : IcebergSchema where
  fields := desired.fields.map (evolveField current.fields)
  identifierFieldIds :=
    let pkNames := desired.identifierFieldIds.filterMap fun id =>
      (desired.fields.find? fun f => f.id = id).map Field.name
    ((desired.fields.map (evolveField current.fields)).filter (·.name ∈ pkNames)).map Field.id

def reconcileSchema (C : Crates) (current desired : IcebergSchema) :
    Except LakehouseError (Option IcebergSchema) := do
  let rebuilt ← (C.build (evolved current desired)).mapError .reconciling
  return if current.fields = rebuilt.fields then none else some rebuilt

/-- The cell under a field id; a column that the file does not have reads as null. -/
def cellOf (id : ℕ) (row : FileRow) : Option Cell := (row.lookup id).getD none

def Snapshot.commit (s : Snapshot) : MergeOnRead.Commit FileRow where
  added := s.data.flatten
  deletes row := s.deletes.any fun d => cellOf d.fieldId row ∈ d.cells

/-- The rows of a table that no delete hides. -/
def TableMetadata.contents (table : TableMetadata) : List FileRow :=
  MergeOnRead.contents (table.snapshots.map Snapshot.commit)

/-- What a reader sees through the current schema. -/
def TableMetadata.rows (table : TableMetadata) : List (List (Option Cell)) :=
  table.contents.map fun row => table.schema.fields.map fun f => cellOf f.id row

structure LakehouseWriter where
  metadata : TableMetadata
  pkFieldId : ℕ
  pendingData : List (List FileRow)
  pendingDeletes : List EqualityDelete
  deriving DecidableEq

namespace LakehouseWriter

/-- An existing table is reconciled with the schema, another one is created. -/
def openTable (C : Crates) (persisted : Option TableMetadata) (schema : IcebergSchema)
    (pkFieldId : ℕ) (sortFieldIds : List ℕ) : Except LakehouseError LakehouseWriter :=
  match persisted with
  | some metadata => do
    match ← reconcileSchema C metadata.schema schema with
    | none => return ⟨metadata, pkFieldId, [], []⟩
    | some schema => do
      let metadata ← (C.addCurrentSchema metadata schema).mapError .evolving
      return ⟨metadata, pkFieldId, [], []⟩
  | none => do
    let metadata ← (C.fromTableCreation schema sortFieldIds).mapError .creating
    return ⟨metadata, pkFieldId, [], []⟩

def cellValue (R : Reading G) (row : DataRow G.Value) (i : ℕ) : Value :=
  match row with
  | .vec values => (values[i]?.map R.value).getD .null
  | .map _ => .null

/-- The cells of a row, in the order of the schema. -/
def fileRow (C : Crates) (R : Reading G) (fields : List Field) (row : DataRow G.Value) : FileRow :=
  fields.zipIdx.map fun p =>
    (p.1.id, arrowCell C.rescale (arrowType p.1.fieldType) (cellValue R row p.2))

/-- Every column needs an array type of its own. -/
def checkColumns (fields : List Field) : Except LakehouseError Unit :=
  match fields.find? fun f => !(arrowType f.fieldType).supported with
  | some f => .error (.columnNotSupported (arrowType f.fieldType))
  | none => .ok ()

/-- A required column has no null. -/
def rowsToRecordBatch (C : Crates) (R : Reading G) (fields : List Field)
    (rows : List (DataRow G.Value)) : Except LakehouseError (List FileRow) := do
  checkColumns fields
  match fields.zipIdx.find? fun p => p.1.required && rows.any fun row =>
      (arrowCell C.rescale (arrowType p.1.fieldType) (cellValue R row p.2)).isNone with
  | some p => .error (.recordBatch p.1.name)
  | none => .ok (rows.map (fileRow C R fields))

def keyCell (C : Crates) (R : Reading G) (f : Field) (k : G.Key) : Option Cell :=
  arrowCell C.rescale (arrowType f.fieldType) (keyToValue (R.key k))

/-- The delete file of the keys: the key column as it is, the others with nulls. -/
def stageDeletes (C : Crates) (R : Reading G) (w : LakehouseWriter) (keys : List G.Key) :
    Except LakehouseError LakehouseWriter := do
  if keys = [] then return w
  checkColumns w.metadata.schema.fields
  match w.metadata.schema.fields.find? fun f => f.id = w.pkFieldId with
  | none => .error .pkNotInSchema
  | some f =>
    if f.required && keys.any fun k => (keyCell C R f k).isNone then .error (.deleteBatch f.name)
    let _ ← (C.build ⟨[f], [w.pkFieldId]⟩).mapError .pkSchema
    return { w with
      pendingDeletes := w.pendingDeletes ++ [⟨w.pkFieldId, keys.map (keyCell C R f)⟩] }

/-- The rows go to a data file, and their keys to a delete file. -/
def upsert (C : Crates) (R : Reading G) (w : LakehouseWriter)
    (rows : List (G.Key × DataRow G.Value)) : Except LakehouseError LakehouseWriter := do
  if rows = [] then return w
  let batch ← rowsToRecordBatch C R w.metadata.schema.fields (rows.map Prod.snd)
  stageDeletes C R { w with pendingData := w.pendingData ++ [batch] } (rows.map Prod.fst)

def delete (C : Crates) (R : Reading G) (w : LakehouseWriter) (keys : List G.Key) :
    Except LakehouseError LakehouseWriter := stageDeletes C R w keys

/-- What is staged becomes a snapshot; nothing staged, none. -/
def commitSnapshot (w : LakehouseWriter) (watermark : ℕ) : LakehouseWriter :=
  if w.pendingData = [] ∧ w.pendingDeletes = [] then w
  else
    { w with
      metadata := { w.metadata with
        snapshots := w.metadata.snapshots ++ [⟨watermark, w.pendingData, w.pendingDeletes⟩] }
      pendingData := []
      pendingDeletes := [] }

end LakehouseWriter

namespace Ints

open Sql.Ints (engine)

/-- Digits are appended while the mantissa fits into 96 bits. -/
def appendDigits : ℕ → Decimal → Decimal
  | 0, d => d
  | n + 1, d =>
    if d.mantissa.natAbs * 10 < 2 ^ 96 then appendDigits n ⟨d.mantissa * 10, d.scale + 1⟩ else d

/-- Digits are cut off, rounding half away from zero. -/
def rescale (d : Decimal) (scale : ℕ) : Decimal :=
  if d.scale ≤ scale then appendDigits (scale - d.scale) d
  else
    let unit := 10 ^ (d.scale - scale)
    ⟨d.mantissa.sign * ((2 * d.mantissa.natAbs + unit) / (2 * unit)), scale⟩

/-- A sort order needs its fields. -/
def crates : Crates where
  rescale := rescale
  build s := if WellFormed s then .ok s else .error "invalid schema"
  fromTableCreation s ids := .ok (newTable s ids)
  addCurrentSchema m s :=
    if ∀ id ∈ m.sortFieldIds, ∃ f ∈ s.fields, f.id = id then .ok { m with schema := s }
    else .error "sort field not in schema"
  build_eq := by
    intro s s' h
    split_ifs at h
    exact (Except.ok.inj h).symm
  fromTableCreation_eq _ _ _ h := (Except.ok.inj h).symm
  addCurrentSchema_eq := by
    intro m s m' h
    split_ifs at h
    exact (Except.ok.inj h).symm

def readValue : Ints.Value → Value
  | .null => .null
  | .int n => .i64 n

def readKey : Ints.Key → Key
  | .none => .other []
  | .i64 n => .i64 n

theorem readKey_eq_i64 {k : Ints.Key} {n : ℤ} (h : readKey k = .i64 n) : k = .i64 n := by
  cases k with
  | none => exact absurd h (by simp [readKey])
  | i64 m => exact congrArg Ints.Key.i64 (Key.i64.inj h)

def reading : Reading engine where
  value := readValue
  key := readKey
  nestedIds dt _ := if dt = .map then 2 else 1
  value_null := rfl
  key_inj := by
    intro k k' h
    cases k' with
    | none =>
      cases k with
      | none => rfl
      | i64 n => exact absurd h (by simp [readKey])
    | i64 n => exact readKey_eq_i64 h
  keyOf := by
    intro v k key' hk hkey
    obtain rfl := Except.ok.inj hk
    cases v with
    | null => exact absurd hkey (by simp [readValue, keyOfValue])
    | int n => exact Option.some.inj hkey
  bytes_inj := by
    intro dt v w k k' bytes hdt hv hw hk hk' hb hb'
    cases k with
    | none => exact absurd hk (by cases v <;> simp [readKey, keyOfValue])
    | i64 m =>
      cases k' with
      | none => exact absurd hk' (by cases w <;> simp [readKey, keyOfValue])
      | i64 n =>
        obtain rfl : v = .i64 m := by
          cases v <;> simp [readKey, keyOfValue] at hk
          rw [hk]
        obtain rfl : w = .i64 n := by
          cases w <;> simp [readKey, keyOfValue] at hk'
          rw [hk']
        obtain rfl : dt = .int := by cases dt <;> first | rfl | exact absurd hv Bool.false_ne_true
        rw [Sql.Ints.lawful.i64_bytes_inj (of_decide_eq_true hv) (of_decide_eq_true hw) hb hb']

end Ints

end BlueDB.Lakehouse
