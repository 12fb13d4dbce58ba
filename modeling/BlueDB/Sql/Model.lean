import BlueDB.Lib.ByteOrder
import BlueDB.Lib.Kv

/-!
# Tables, rows and their storage keys

A table is a schema record, a stable id under which its rows and index entries
are stored, and a few side records under its name. Rows are stored by position;
the column catalog of an altered table maps the columns of the schema to the
positions of a stored row. Keys, values and expressions belong to the SQL
engine, of which the store uses only what `Engine` lists.
-/

namespace BlueDB.Sql

abbrev Name := Sized UInt8 (256 ^ 4)

instance lawfulBEqName : LawfulBEq Name := inferInstance

/-- A row: values in column order, or named values for a schemaless table. -/
inductive DataRow (V : Type)
  | vec (values : List V)
  | map (entries : List (Name × V))
  deriving DecidableEq

/-- The column names and the row an expression is evaluated against. -/
structure Context (V : Type) where
  columns : Option (List Name)
  row : DataRow V

/-- What the store uses of the SQL engine. -/
structure Engine where
  Key : Type
  Value : Type
  Expr : Type
  decKey : DecidableEq Key
  decValue : DecidableEq Value
  decExpr : DecidableEq Expr
  null : Value
  noneKey : Key
  i64 : ℤ → Key
  asI64 : Key → Option ℤ
  keyOf : Value → Except String Key
  toCmpBeBytes : Key → Except String (List UInt8)
  displayKey : Key → String
  evaluate : Option (Context Value) → Expr → Except String Value
  /-- The columns an expression names. -/
  mentions : Expr → List Name

instance (G : Engine) : DecidableEq G.Key := G.decKey
instance (G : Engine) : DecidableEq G.Value := G.decValue
instance (G : Engine) : DecidableEq G.Expr := G.decExpr

/-- The column types of the engine. -/
inductive DataType
  | boolean
  | int8
  | int16
  | int32
  | int
  | int128
  | uint8
  | uint16
  | uint32
  | uint64
  | uint128
  | float32
  | float
  | text
  | bytea
  | inet
  | date
  | timestamp
  | time
  | interval
  | uuid
  | map
  | list
  | decimal
  | point
  deriving DecidableEq

structure ColumnDef (G : Engine) where
  name : Name
  dataType : DataType
  nullable : Bool
  default : Option G.Expr
  primary : Bool
  deriving DecidableEq

inductive SchemaIndexOrd
  | asc
  | desc
  | both
  deriving DecidableEq

structure SchemaIndex (G : Engine) where
  name : Name
  expr : G.Expr
  order : SchemaIndexOrd
  deriving DecidableEq

/-- A table definition; no column definitions means schemaless. -/
structure Schema (G : Engine) where
  tableName : Name
  columnDefs : Option (List (ColumnDef G))
  indexes : List (SchemaIndex G)
  deriving DecidableEq

/-- The column names, none for a schemaless table. -/
def schemaColumns {G : Engine} (schema : Schema G) : List Name :=
  (schema.columnDefs.getD []).map ColumnDef.name

structure StoredRow (G : Engine) where
  key : G.Key
  row : DataRow G.Value
  deriving DecidableEq

inductive IndexOperator
  | gt
  | lt
  | gtEq
  | ltEq
  | eq
  deriving DecidableEq

/-- The physical slot of each column, in schema order. -/
structure ColumnCatalog (G : Engine) where
  slots : List ℕ
  width : ℕ
  defaults : List (ℕ × G.Value)
  deriving DecidableEq

namespace ColumnCatalog

variable {G : Engine}

def identity (n : ℕ) : ColumnCatalog G := ⟨List.range n, n, []⟩

def addColumn (cat : ColumnCatalog G) (default : G.Value) : ColumnCatalog G where
  slots := cat.slots ++ [cat.width]
  width := cat.width + 1
  defaults := if default = G.null then cat.defaults else (cat.width, default) :: cat.defaults

/-- The slot stays in the stored rows and is ignored. -/
def dropColumn (cat : ColumnCatalog G) (i : ℕ) : ColumnCatalog G :=
  { cat with slots := cat.slots.eraseIdx i }

/-- The value of a slot that a stored row does not have. -/
def fill (cat : ColumnCatalog G) (slot : ℕ) : G.Value := (cat.defaults.lookup slot).getD G.null

def toLogical (cat : ColumnCatalog G) : DataRow G.Value → DataRow G.Value
  | .vec values => .vec (cat.slots.map fun slot => values[slot]?.getD (cat.fill slot))
  | .map entries => .map entries

def toPhysical (cat : ColumnCatalog G) : DataRow G.Value → DataRow G.Value
  | .vec values =>
    .vec ((cat.slots.zip values).foldl (fun phys p => phys.set p.1 p.2)
      (List.replicate cat.width G.null))
  | .map entries => .map entries

end ColumnCatalog

def toLogical {G : Engine} (catalog : Option (ColumnCatalog G)) (row : DataRow G.Value) :
    DataRow G.Value :=
  match catalog with
  | some cat => cat.toLogical row
  | none => row

def toPhysical {G : Engine} (catalog : Option (ColumnCatalog G)) (row : DataRow G.Value) :
    DataRow G.Value :=
  match catalog with
  | some cat => cat.toPhysical row
  | none => row

/-- The records of one tenant. Rows and index entries carry the comparable bytes
of their primary key and indexed value. -/
inductive StorageKey
  | schema (table : Name)
  | row (id : UInt64) (pk : List UInt8)
  | indexEntry (id : UInt64) (index : Name) (value pk : List UInt8)
  | metadata (table : Name)
  | colcat (table : Name)
  | tableid (table : Name)
  | tableidSeq
  | pkcat (table : Name)
  | uniqueidx (table : Name)
  deriving DecidableEq

def tagSchema : UInt8 := 0x01
def tagData : UInt8 := 0x02
def tagIndex : UInt8 := 0x03
def tagMeta : UInt8 := 0x04
def tagColcat : UInt8 := 0x05
def tagTableid : UInt8 := 0x06
def tagTableidSeq : UInt8 := 0x07
def tagPkcat : UInt8 := 0x08
def tagUniqueidx : UInt8 := 0x0A

/-- What the rows of a table start with. -/
def dataPrefix (id : UInt64) : List UInt8 := tagData :: beBytes 8 id.toNat

/-- What the entries of an index start with. -/
def indexPrefix (id : UInt64) (index : Name) : List UInt8 :=
  tagIndex :: (beBytes 8 id.toNat ++ lengthPrefixed 4 index.1)

/-- What the entries of an index for one value start with. -/
def indexValuePrefix (id : UInt64) (index : Name) (value : List UInt8) : List UInt8 :=
  indexPrefix id index ++ orderPreserving value

/-- The bytes of a key, behind the prefix of the tenant. -/
def StorageKey.encode : StorageKey → List UInt8
  | .schema table => tagSchema :: table.1
  | .row id pk => dataPrefix id ++ pk
  | .indexEntry id index value pk => indexValuePrefix id index value ++ pk
  | .metadata table => tagMeta :: table.1
  | .colcat table => tagColcat :: table.1
  | .tableid table => tagTableid :: table.1
  | .tableidSeq => [tagTableidSeq]
  | .pkcat table => tagPkcat :: table.1
  | .uniqueidx table => tagUniqueidx :: table.1

/-- What each record holds: an index entry its row's key, a metadata record the
creation time, the key catalog the columns of a composite primary key. -/
abbrev StorageKey.Value (G : Engine) : StorageKey → Type
  | .schema _ => Schema G
  | .row _ _ => StoredRow G
  | .indexEntry _ _ _ _ => G.Key
  | .metadata _ => ℤ
  | .colcat _ => ColumnCatalog G
  | .tableid _ => UInt64
  | .tableidSeq => UInt64
  | .pkcat _ => List Name
  | .uniqueidx _ => List Name

abbrev Store (G : Engine) := Kv (StorageKey.Value G)

/-- The live keys of a byte range, in key order. -/
def scanRange {G : Engine} (s : Store G) (start : List UInt8) (stop : Option (List UInt8)) :
    List StorageKey :=
  (s.scan fun k => !decide (k.encode < start) && stop.all fun e =>
      decide (k.encode < e)).insertionSort
    fun a b => ¬b.encode < a.encode

inductive Violation
  | duplicateEntry (value : String) (index : Name)
  | rowExists (key : List UInt8)
  | duplicateAtCommit (index table : Name)
  deriving DecidableEq

/-- The errors of the store, and of the engine around it. -/
inductive Error (G : Engine)
  | keyEncode (reason : String)
  | noStableId (table : Name)
  | indexEval (reason : String)
  | uniqueViolation (violation : Violation)
  | dropsKeyColumn (column : Name)
  | schemalessRejected (table : Name)
  | primaryKeyRequired (table : Name)
  | counterOverflow
  | evaluation (reason : String)
  | tableNotFound (table : Name)
  | indexNameAlreadyExists (index : Name)
  | indexNameDoesNotExist (index : Name)
  | schemalessTableFound (table : Name)
  | alreadyExistingColumn (column : Name)
  | defaultValueRequired (column : ColumnDef G)
  | droppingColumnNotFound (column : Name)
  | renamingColumnNotFound
  | tableAlreadyExists (table : Name)
  | duplicateColumnName (table : Name)
  | unsupportedIndexExpr (index : Name)
  | rowRejected (table : Name)
  | duplicatePrimaryKey (table : Name)
  deriving DecidableEq

/-- An error of evaluating an index expression or of making a key of its value. -/
def Error.IsIndexEval {G : Engine} : Error G → Prop
  | .indexEval _ => True
  | _ => False

end BlueDB.Sql
