import BlueDB.Lakehouse.Publish

/-!
# The provider of a table

A query reads a table through a provider. A filter that compares the primary key with
a literal is answered by a point read of the row store; every other scan joins the
sealed snapshot with the changes that are not sealed yet, or reads the rows of a table
that has no mirror.
-/

namespace BlueDB.Query

open Sql Lakehouse LakehouseWriter

variable {G : Engine}

inductive Operator
  | eq
  | other (name : String)
  deriving DecidableEq

abbrev I64 := { n : ℤ // IsI64 n }

/-- Literals; of the types that no primary key is compared with only the text is kept. -/
inductive ScalarValue
  | int64 (n : Option I64)
  | utf8 (s : Option (List UInt8))
  | other (text : String)

inductive Expr
  | column (name : Name)
  | literal (v : ScalarValue)
  | binary (left : Expr) (op : Operator) (right : Expr)
  | other (text : String)

/-- A row as a query sees it: its cells under the names of their columns. -/
abbrev Row := List (Name × Option Cell)

def Row.cell (row : Row) (name : Name) : Option Cell := (row.lookup name).getD none

/-- The cell that a literal is equal to. -/
def ScalarValue.cell : ScalarValue → Option Cell
  | .int64 n => n.map fun n => .int n
  | .utf8 s => s.map .text
  | .other _ => none

/-- What a scan uses of the query engine: whether a filter holds on a row. A column
equals a literal if it holds its value, in either order. -/
structure DataFusion where
  holds : Expr → Row → Bool
  column_eq : ∀ name v c row, v.cell = some c →
    (holds (.binary (.column name) .eq (.literal v)) row = true ↔ row.cell name = some c)
  literal_eq : ∀ name v c row, v.cell = some c →
    (holds (.binary (.literal v) .eq (.column name)) row = true ↔ row.cell name = some c)

/-- The row keys of literals. Among the integer keys that fill an `Int64` column, the
bytes of a 64-bit key are its own. -/
structure Literals (R : Reading G) where
  i64 : I64 → G.Key
  str : List UInt8 → G.Key
  key_i64 : ∀ n, R.key (i64 n) = .i64 n
  key_str : ∀ s, R.key (str s) = .str s
  i64_bytes : ∀ {k n bytes}, (toI64 (keyToValue (R.key k))).isSome = true →
    G.toCmpBeBytes k = .ok bytes → G.toCmpBeBytes (i64 n) = .ok bytes → R.key k = .i64 n

/-- The row key of a literal, if the primary-key column has its type. -/
def literalKey {R : Reading G} (L : Literals R) : ArrowType → ScalarValue → Option G.Key
  | .int64, .int64 (some n) => some (L.i64 n)
  | .utf8, .utf8 (some s) => some (L.str s)
  | _, _ => none

/-- The key that a filter compares the primary key with. -/
def pkEqKey {R : Reading G} (L : Literals R) (pkName : Name) (pkType : ArrowType) :
    Expr → Option G.Key
  | .binary (.column c) .eq (.literal v) | .binary (.literal v) .eq (.column c) =>
    if c = pkName then literalKey L pkType v else none
  | _ => none

inductive ScanError
  | lakehouse (e : LakehouseError)
  | pkNotInSchema (pk : Name)
  | schemaMismatch
  deriving DecidableEq

abbrev ScanM (G : Engine) := EStateM ScanError (Site G)

/-- A step of the lakehouse engine. -/
def engine {α : Type} (x : SealM G α) : ScanM G α := fun site =>
  match x site with
  | .ok a site' => .ok a site'
  | .error e site' => .error (.lakehouse e) site'

/-- Rows under the schema that they were made with. -/
structure RecordBatch where
  fields : List Field
  rows : List (List (Option Cell))

def RecordBatch.named (b : RecordBatch) : List Row :=
  b.rows.map fun row => (b.fields.map Field.name).zip row

section

variable (C : Crates) (R : Reading G)

def recordBatch (w : LakehouseWriter) (rows : List (G.Key × DataRow G.Value)) :
    Except LakehouseError RecordBatch := do
  let batch ← rowsToRecordBatch C R w.metadata.schema.fields (rows.map Prod.snd)
  return ⟨w.metadata.schema.fields, batch.map fun row => row.map Prod.snd⟩

/-- The keys in the primary-key column; every other column is null. -/
def keysToDeleteBatch (w : LakehouseWriter) (keys : List G.Key) :
    Except LakehouseError RecordBatch := do
  let fields := w.metadata.schema.fields
  checkColumns fields
  let cell (f : Field) (k : G.Key) := if f.id = w.pkFieldId then keyCell C R f k else none
  match fields.find? fun f => decide (f.id = w.pkFieldId) && f.required &&
      keys.any fun k => (cell f k).isNone with
  | some f => .error (.deleteBatch f.name)
  | none => return ⟨fields, keys.map fun k => fields.map (cell · k)⟩

def currentWatermark (w : LakehouseWriter) : Option ℕ :=
  w.metadata.snapshots.getLast?.map Snapshot.watermark

def isTableMirrored (site : Site G) (t : Name) : Bool := site.mirrored t

def currentIcebergTable (t : Name) : SealM G (Option TableMetadata) := do
  let site ← get
  match readSchema site.writer.live t with
  | none => return none
  | some schema =>
    if (site.tables t).isNone then return none
    else
      let w ← Site.writerFor C R t schema []
      return some w.metadata

/-- All rows of the row store. -/
def currentRecordBatch (t : Name) : SealM G (Option RecordBatch) := do
  let site ← get
  match readSchema site.writer.live t with
  | none => return none
  | some schema =>
    let rows ← ofExcept ((scanData site.writer.live t).mapError fun _ => .sql)
    let w ← Site.writerFor C R t schema (rows.map Prod.snd)
    let batch ← ofExcept (recordBatch C R w rows)
    return some batch

def recordBatchForPk (t : Name) (key : G.Key) : SealM G RecordBatch := do
  let site ← get
  let schema ← ofExcept (site.fetchSchema t)
  let row ← ofExcept ((fetchData site.writer.live t key).mapError fun _ => .sql)
  let w ← Site.writerFor C R t schema []
  ofExcept (recordBatch C R w (row.toList.map fun r => (key, r)))

def unsealedDelta (t : Name) : SealM G (RecordBatch × RecordBatch) := do
  let schema ← ofExcept ((← get).fetchSchema t)
  let w ← Site.writerFor C R t schema []
  let sealedSeq := (currentWatermark w).getD 0
  let changes := changesOf (scanCdc (← get).writer.log sealedSeq) t
  let touched ← ofExcept (keysToDeleteBatch C R w (changes.map Prod.fst))
  let upserts ← ofExcept (recordBatch C R w (upserts changes))
  return (upserts, touched)

end

/-- `__bluedb_pk`, which holds the keys of several columns. -/
def surrogatePk : Name :=
  ⟨[0x5F, 0x5F, 0x62, 0x6C, 0x75, 0x65, 0x64, 0x62, 0x5F, 0x70, 0x6B], Sql.pkPseudoIndex.2⟩

structure Provider where
  table : Name
  schema : List Field
  pkName : Name
  pkType : ArrowType

def pkColumnName (schema : Schema G) : Except LakehouseError Name :=
  match schema.columnDefs with
  | none => .error (.schemaless schema.tableName)
  | some columns =>
    match columns.filter ColumnDef.primary with
    | [c] => .ok c.name
    | [] => .error (.noPrimaryKey schema.tableName)
    | _ => .error (.compositePrimaryKey schema.tableName)

namespace Provider

def tryNew (C : Crates) (R : Reading G) (t : Name) : ScanM G Provider := do
  let schema ← engine (do ofExcept ((← get).fetchSchema t))
  let w ← engine (Site.writerFor C R t schema [])
  let pkName ← engine (ofExcept (pkColumnName schema))
  match w.metadata.schema.fields.find? fun f => f.name = pkName with
  | none => throw (.pkNotInSchema pkName)
  | some f =>
    return ⟨t, w.metadata.schema.fields.filter fun f => f.name ≠ surrogatePk, pkName,
      arrowType f.fieldType⟩

variable (C : Crates) (R : Reading G) (p : Provider)

/-- The names of the columns that a query asks for. -/
def wanted (projection : Option (List ℕ)) : List Name :=
  match projection with
  | some idxs => idxs.filterMap fun i => p.schema[i]?.map Field.name
  | none => p.schema.map Field.name

def selectColumns (names : List Name) (row : Row) : Row := names.map fun n => (n, row.cell n)

/-- `NOT IN` holds of every cell when there is nothing to compare with, and otherwise
only without nulls. -/
def notIn (c : Option Cell) (cells : List (Option Cell)) : Bool :=
  cells.isEmpty || (c.isSome && decide (none ∉ cells) && decide (c ∉ cells))

/-- The rows of the snapshot whose keys are untouched, with the rows that are not sealed yet;
the columns of the union have the names of its first part. -/
def scanMerge (projection : Option (List ℕ)) (limit : Option ℕ) : ScanM G (List Row) := do
  let iceberg ←
    if isTableMirrored (← get) p.table then engine (currentIcebergTable C R p.table)
    else pure none
  let merged ←
    match iceberg with
    | some t => do
      let (upserts, touched) ← engine (unsealedDelta C R p.table)
      let keys := touched.named.map fun row => row.cell p.pkName
      let bulk : RecordBatch := ⟨t.schema.fields, t.rows⟩
      if upserts.fields.length ≠ bulk.fields.length then throw .schemaMismatch
      pure (bulk.named.filter (fun row => notIn (row.cell p.pkName) keys) ++
        RecordBatch.named { upserts with fields := bulk.fields })
    | none => do
      match ← engine (currentRecordBatch C R p.table) with
      | some batch => pure batch.named
      | none => throw (.lakehouse (.tableNotFound p.table))
  let rows := merged.map (selectColumns (p.wanted projection))
  return match limit with
    | some n => rows.take n
    | none => rows

variable {R} (L : Literals R)

/-- A filter is pushed down exactly if it compares the primary key with a literal. -/
def isExact (f : Expr) : Bool := (pkEqKey L p.pkName p.pkType f).isSome

/-- The first key that a filter compares the primary key with is read from the row store. -/
def scan (projection : Option (List ℕ)) (filters : List Expr) (limit : Option ℕ) :
    ScanM G (List Row) :=
  match filters.findSome? (pkEqKey L p.pkName p.pkType) with
  | some key => do
    let batch ← engine (recordBatchForPk C R p.table key)
    if batch.fields ≠ p.schema then throw .schemaMismatch
    return batch.named.map (selectColumns (p.wanted projection))
  | none => p.scanMerge C R projection limit

end Provider

end BlueDB.Query
