import BlueDB.Collections.Update
import BlueDB.Lib.StateError

/-!
# The tables of the collections

A collection is a table of documents with a column for each index of a path and of a
list of paths, and a side table for each index of a field with many values. Neither the
paths nor the fields are kept: the writes read them off the names of the columns and
of the tables.
-/

namespace BlueDB.Collections

variable {F : Type} [Sums F]

def stripPrefix (pre s : List Char) : Option (List Char) :=
  if pre <+: s then some (s.drop pre.length) else none

def isPlainIdent : List Char → Bool
  | [] => false
  | c :: cs => (c.isAlpha || c == '_') && cs.all fun c => c.isAlphanum || c == '_'

/-- Every segment is a plain identifier. -/
def validPath (path : String) : Bool := (path.toList.splitOn '.').all isPlainIdent

def validIdent (name : String) : Bool := isPlainIdent name.toList

/-- Splits at `__`, from the left. -/
def splitDouble : List Char → List (List Char)
  | [] => [[]]
  | '_' :: '_' :: cs => [] :: splitDouble cs
  | c :: cs =>
    match splitDouble cs with
    | [] => [[c]]
    | part :: parts => (c :: part) :: parts

def compoundCol (paths : List String) : String :=
  "__cidxm_" ++ String.intercalate "__" (paths.map flattened)

/-- The path that an index column of one path is taken to have. -/
def columnPath (column : String) : Option String :=
  if (stripPrefix "__cidxm_".toList column.toList).isSome then none
  else (stripPrefix "__cidx_".toList column.toList).map String.ofList

/-- The paths that an index column of several paths is taken to have. -/
def columnPaths (column : String) : Option (List String) :=
  (stripPrefix "__cidxm_".toList column.toList).bind fun suffix =>
    let paths := (splitDouble suffix).map String.ofList
    if paths.length < 2 then none else some paths

def sidePrefix (coll : String) : String := coll ++ "__mk_"

def multikeySideTable (coll field : String) : String := sidePrefix coll ++ flattened field

structure Column where
  name : String
  type : IndexType
  unique : Bool

structure DocRow (F : Type) where
  id : String
  doc : Json F
  /-- The index columns. -/
  cells : String → Scalar F

structure SideRow where
  id : String
  val : String
  deriving DecidableEq

inductive Table (F : Type)
  | documents (columns : List Column) (rows : List (DocRow F))
  | side (rows : List SideRow)

/-- What an index was created for. -/
inductive Made
  | path (path : String)
  | paths (paths : List String)
  | field (field : String)
  deriving DecidableEq

/-- The tables of a tenant. `made` is a history of the indexes that have got their column, or
whose creation has returned. -/
structure Tenant (F : Type) where
  tables : OrderedMap String (Table F)
  /-- The field and the seconds of each collection with a time to live. -/
  ttl : OrderedMap String (String × ℤ)
  made : List (String × Made)

def Tenant.empty : Tenant F := ⟨.empty, .empty, []⟩

/-- What the SQL engines and the calendar library decide. -/
structure Crates (F : Type) where
  /-- A row, new or changed, meets the types and the UNIQUE constraints of the columns. -/
  accepts : List Column → List (DocRow F) → DocRow F → Bool
  /-- The table that the analytical engine takes an unquoted name for. -/
  tableName : String → String
  parseTime : String → Option ℤ
  truncate : F → ℤ

inductive CollError
  | invalidIdentifier (name : String)
  | emptyKeys
  | invalidCompoundPath (path : String)
  | nestedCompound
  | invalidPath (path : String)
  | nestedMultikey
  | unknownTypeHint (hint : String)
  | negativeExpiry
  | notAnObject
  | missingId
  | mql (e : MqlError)
  | tableNotFound (table : String)
  | columnExists (column : String)
  | columnNotFound (table : String)
  | duplicateId (id : String)
  | constraint

abbrev CollM (F : Type) := EStateM CollError (Tenant F)

def table (name : String) : CollM F (Option (Table F)) := do
  let t ← get
  return t.tables.get name

def putTable (name : String) (content : Table F) : CollM F PUnit :=
  modify fun t => { t with tables := t.tables.insert name content }

/-- `CREATE TABLE IF NOT EXISTS` -/
def createTable (name : String) (content : Table F) : CollM F PUnit := do
  match ← table name with
  | some _ => pure ⟨⟩
  | none => putTable name content

def ensureCollection (coll : String) : CollM F PUnit := createTable coll (.documents [] [])

/-- The side table with its index on `val`. -/
def ensureMultikeySideTable (side : String) : CollM F PUnit := do
  createTable side (.side [])
  match ← table side with
  | some (.side _) => pure ⟨⟩
  | _ => throw (.columnNotFound side)

def addColumn (coll : String) (column : Column) : CollM F PUnit := do
  match ← table coll with
  | some (.documents columns rows) =>
    if columns.any (·.name == column.name) then throw (.columnExists column.name)
    else
      let blank := rows.map fun row =>
        { row with cells := Function.update row.cells column.name .null }
      putTable coll (.documents (columns ++ [column]) blank)
  | _ => throw (.tableNotFound coll)

def insertRow (K : Crates F) (coll : String) (row : DocRow F) : CollM F PUnit := do
  match ← table coll with
  | some (.documents columns rows) =>
    if rows.any (·.id == row.id) then throw (.duplicateId row.id)
    else if K.accepts columns rows row then putTable coll (.documents columns (rows ++ [row]))
    else throw .constraint
  | some (.side _) => throw (.columnNotFound coll)
  | none => throw (.tableNotFound coll)

def changeRow (id : String) (f : DocRow F → DocRow F) (rows : List (DocRow F)) :
    List (DocRow F) := rows.map fun row => if row.id = id then f row else row

/-- Changes the row of an `_id`, if there is one. -/
def updateRow (K : Crates F) (coll id : String) (f : DocRow F → DocRow F) : CollM F PUnit := do
  match ← table coll with
  | some (.documents columns rows) =>
    if rows.all fun row => row.id != id || K.accepts columns rows (f row) then
      putTable coll (.documents columns (changeRow id f rows))
    else throw .constraint
  | some (.side _) => throw (.columnNotFound coll)
  | none => throw (.tableNotFound coll)

/-- `DELETE FROM ... WHERE _id = ...` -/
def deleteById (name id : String) : CollM F PUnit := do
  match ← table name with
  | some (.documents columns rows) => putTable name (.documents columns (rows.filter (·.id != id)))
  | some (.side rows) => putTable name (.side (rows.filter (·.id != id)))
  | none => throw (.tableNotFound name)

def insertSideRow (side : String) (row : SideRow) : CollM F PUnit := do
  match ← table side with
  | some (.side rows) => putTable side (.side (rows ++ [row]))
  | some (.documents _ _) => throw (.columnNotFound side)
  | none => throw (.tableNotFound side)

def documentRows (coll : String) : CollM F (List (DocRow F)) := do
  match ← table coll with
  | some (.documents _ rows) => return rows
  | _ => return []

/-- `SELECT _id, doc FROM ... WHERE TRUE`, which the analytical engine answers. -/
def scanRows (K : Crates F) (coll : String) : CollM F (List (DocRow F)) := do
  match ← table (K.tableName coll) with
  | some (.documents _ rows) => return rows
  | _ => throw (.tableNotFound (K.tableName coll))

def idsOf (coll : String) : CollM F (List String) := do
  match ← table coll with
  | some (.documents _ rows) => return rows.map (·.id)
  | some (.side rows) => return rows.map (·.id)
  | none => return []

def columnsOf (coll : String) : CollM F (List Column) := do
  match ← table coll with
  | some (.documents columns _) => return columns
  | _ => return []

def columnTypes (columns : List Column) : List (String × IndexType) :=
  columns.filterMap fun c => (columnPath c.name).map fun _ => (c.name, c.type)

def indexedColTypes (coll : String) : CollM F (List (String × IndexType)) := do
  return columnTypes (← columnsOf coll)

def compoundDefs (columns : List Column) : List (String × List String) :=
  columns.filterMap fun c => (columnPaths c.name).map fun paths => (c.name, paths)

def compoundColDefs (coll : String) : CollM F (List (String × List String)) := do
  return compoundDefs (← columnsOf coll)

/-- The tables whose names begin with the prefix, and the rest of their names. -/
def sidesIn (t : Tenant F) (coll : String) : List (String × String) :=
  t.tables.entries.filterMap fun e =>
    (stripPrefix (sidePrefix coll).toList e.1.toList).map fun field => (e.1, String.ofList field)

def multikeySideTables (coll : String) : CollM F (List (String × String)) := do
  let t ← get
  return sidesIn t coll

/-- The texts that an index of many values has for a list of values. -/
def elementTexts (items : List (Json F)) : List String :=
  items.filterMap fun item => match item with
    | .null => none
    | v => some v.render

/-- The values of a field: the elements of an array, or one scalar. -/
def fieldItems : Option (Json F) → List (Json F)
  | some (.array items) => items
  | some .null => []
  | some v => [v]
  | none => []

def insertMultikeyElements (side id : String) (items : List (Json F)) : CollM F PUnit :=
  (elementTexts items).forM fun val => insertSideRow side ⟨id, val⟩

def deleteMultikeyForDoc (coll id : String) : CollM F PUnit := do
  let sides ← multikeySideTables (F := F) coll
  sides.forM fun side => deleteById side.1 id

def compoundKey (doc : Json F) (paths : List String) : String :=
  String.intercalate "\x00" (paths.map fun path => (deriveValue doc path).getD "")

/-- The index columns that a write sets. -/
def assignments (doc : Json F) (dcols : List (String × IndexType))
    (cdefs : List (String × List String)) : List (String × Scalar F) :=
  (dcols.map fun (column, type) => (column, match columnPath column with
    | some path => cell doc path type
    | none => .null)) ++
  cdefs.map fun (column, paths) => (column, .text (compoundKey doc paths))

def assign (values : List (String × Scalar F)) (cells : String → Scalar F) (column : String) :
    Scalar F := (values.lookup column).getD (cells column)

def writeFullDoc (K : Crates F) (coll : String) (doc : Json F)
    (dcols : List (String × IndexType)) (cdefs : List (String × List String)) :
    CollM F PUnit := do
  match doc.get "_id" with
  | some (.string id) =>
    let cells := assign (assignments doc dcols cdefs) fun _ => .null
    insertRow K coll ⟨id, doc, cells⟩
    let sides ← multikeySideTables (F := F) coll
    sides.forM fun (side, field) => insertMultikeyElements side id (fieldItems (doc.get field))
  | _ => throw .missingId

def rewriteDocRow (K : Crates F) (coll id : String) (doc : Json F)
    (dcols : List (String × IndexType)) (cdefs : List (String × List String)) :
    CollM F PUnit := do
  updateRow K coll id fun row =>
    { row with doc := doc, cells := assign (assignments doc dcols cdefs) row.cells }
  let sides ← multikeySideTables (F := F) coll
  sides.forM fun (side, field) => do
    deleteById side id
    insertMultikeyElements side id (fieldItems (doc.get field))

structure IndexOptions where
  unique : Bool
  typeHint : Option String
  expireAfterSeconds : Option ℤ
  multikey : Bool

/-- The answer to the query of a filter, and which engine gives it. -/
structure Query where
  ids : List String
  analytical : Bool

def Query.source (K : Crates F) (q : Query) (coll : String) : String :=
  if q.analytical then K.tableName coll else coll

/-- A document comes with the `_id` that it gets when it has none. -/
inductive Request (F : Type)
  | createIndex (coll : String) (keys : List String) (options : IndexOptions)
  | insert (coll : String) (docs : List (Json F × String))
  | update (coll : String) (query : Query) (multi upsert : Bool) (update : Json F)
      (fresh : String)
  | delete (coll : String) (query : Query) (multi : Bool)
  | sweep (now : ℤ)

def checkIdent (name : String) : CollM F PUnit :=
  if validIdent name then pure ⟨⟩ else throw (.invalidIdentifier name)

def liftMql {α : Type} : Except MqlError α → CollM F α
  | .ok a => pure a
  | .error e => throw (.mql e)

def insertDoc (K : Crates F) (coll : String) (dcols : List (String × IndexType))
    (cdefs : List (String × List String)) (d : Json F × String) : CollM F PUnit :=
  match d.1 with
  | .object fields => writeFullDoc K coll (.object (ensureId d.2 fields).1) dcols cdefs
  | _ => throw .notAnObject

def insert (K : Crates F) (coll : String) (docs : List (Json F × String)) : CollM F PUnit := do
  checkIdent coll
  if docs.isEmpty then pure ⟨⟩
  else
    ensureCollection coll
    let dcols ← indexedColTypes coll
    let cdefs ← compoundColDefs coll
    docs.forM (insertDoc K coll dcols cdefs)

def limited {α : Type} (multi : Bool) (l : List α) : List α := if multi then l else l.take 1

def updateDoc (K : Crates F) (coll : String) (update : Json F) (dcols : List (String × IndexType))
    (cdefs : List (String × List String)) (row : DocRow F) : CollM F PUnit := do
  let fields ← liftMql (applyUpdate row.doc update)
  if (Json.object fields).same row.doc then pure ⟨⟩
  else rewriteDocRow K coll row.id (.object fields) dcols cdefs

def update (K : Crates F) (coll : String) (query : Query) (multi upsert : Bool)
    (update : Json F) (fresh : String) : CollM F PUnit := do
  checkIdent coll
  let dcols ← indexedColTypes (F := F) coll
  let cdefs ← compoundColDefs (F := F) coll
  let stored ← documentRows (query.source K coll)
  let rows := limited multi (query.ids.filterMap fun id => stored.find? (·.id == id))
  rows.forM (updateDoc K coll update dcols cdefs)
  if rows.isEmpty && upsert then do
    ensureCollection coll
    let fields ← liftMql (applyUpdate (.object []) update)
    writeFullDoc K coll (.object (ensureId fresh fields).1) dcols cdefs
  else pure ⟨⟩

def delete (K : Crates F) (coll : String) (query : Query) (multi : Bool) : CollM F PUnit := do
  checkIdent coll
  let stored ← idsOf (F := F) (query.source K coll)
  (limited multi (query.ids.filter (· ∈ stored))).forM fun id => do
    deleteMultikeyForDoc coll id
    deleteById coll id

def inferIndexType (values : List (Json F)) : IndexType :=
  if !values.isEmpty && values.all isWholeNumber then .number
  else if !values.isEmpty && values.all fun v => match v with
    | .bool _ => true
    | _ => false
  then .bool
  else .text

def hintedType (hint : String) : Option IndexType :=
  match hint.toLower with
  | "number" => some .number
  | "bool" => some .bool
  | "boolean" => some .bool
  | "string" => some .text
  | "text" => some .text
  | _ => none

def sampleValues (rows : List (DocRow F)) (path : String) : List (Json F) :=
  rows.filterMap fun row => match field row.doc path with
    | some .null => none
    | v => v

def isMultikey (rows : List (DocRow F)) (path : String) (options : IndexOptions) : Bool :=
  options.multikey || (sampleValues rows path).any fun v => match v with
    | .array _ => true
    | _ => false

/-- Sets a column in the rows for whose documents there is a value. -/
def backfill (K : Crates F) (coll column : String) (value : Json F → Option (Scalar F))
    (rows : List (DocRow F)) : CollM F PUnit :=
  rows.forM fun row => match value row.doc with
    | some v => updateRow K coll row.id fun row =>
        { row with cells := Function.update row.cells column v }
    | none => pure ⟨⟩

def record (coll : String) (m : Made) : CollM F PUnit :=
  modify fun t => { t with made := (coll, m) :: t.made }

def createCompoundIndex (K : Crates F) (coll : String) (paths : List String) (unique : Bool) :
    CollM F PUnit := do
  match paths.find? fun path => !validPath path || path.toList.contains '.' with
  | some path => throw (if validPath path then .nestedCompound else .invalidCompoundPath path)
  | none => pure ⟨⟩
  let dcol := compoundCol paths
  let existing ← compoundColDefs (F := F) coll
  if existing.any (·.1 == dcol) then pure ⟨⟩
  else do
    addColumn coll ⟨dcol, .text, unique⟩
    record coll (.paths paths)
  let rows ← scanRows K coll
  backfill K coll dcol (fun doc => some (.text (compoundKey doc paths))) rows
  record coll (.paths paths)

def createMultikeyIndex (coll path : String) (rows : List (DocRow F)) : CollM F PUnit := do
  if path.toList.contains '.' then throw .nestedMultikey
  else pure ⟨⟩
  let side := multikeySideTable coll path
  ensureMultikeySideTable side
  rows.forM fun row => match field row.doc path with
    | some v => do
      deleteById side row.id
      insertMultikeyElements side row.id (fieldItems (some v))
    | none => pure ⟨⟩
  record coll (.field path)

def columnType (values : List (Json F)) (options : IndexOptions) : Except CollError IndexType :=
  match options.typeHint with
  | some hint => match hintedType hint with
    | some type => .ok type
    | none => .error (.unknownTypeHint hint)
  | none => .ok (inferIndexType values)

def registerTtl (coll path : String) (seconds : ℤ) : CollM F PUnit :=
  if seconds < 0 then throw .negativeExpiry
  else modify fun t => { t with ttl := t.ttl.insert coll (path, seconds) }

def registerExpiry (coll path : String) : Option ℤ → CollM F PUnit
  | some seconds => registerTtl coll path seconds
  | none => pure ⟨⟩

def createPathIndex (K : Crates F) (coll path : String) (options : IndexOptions)
    (rows : List (DocRow F)) : CollM F PUnit := do
  let dcol := derivedCol path
  let existing ← indexedColTypes (F := F) coll
  if existing.any (·.1 == dcol) then pure ⟨⟩
  else do
    let type ← ofExcept (columnType (sampleValues rows path) options)
    addColumn coll ⟨dcol, type, options.unique⟩
    record coll (.path path)
  let types ← indexedColTypes (F := F) coll
  let type := (types.lookup dcol).getD .text
  backfill K coll dcol (fun doc => (deriveTypedValue doc path type).map jsonValueToParam) rows
  registerExpiry coll path options.expireAfterSeconds
  record coll (.path path)

def createIndex (K : Crates F) (coll : String) (keys : List String) (options : IndexOptions) :
    CollM F PUnit := do
  checkIdent coll
  match keys with
  | [] => throw .emptyKeys
  | [path] => do
    ensureCollection coll
    if validPath path then pure ⟨⟩ else throw (.invalidPath path)
    let rows ← scanRows K coll
    if isMultikey rows path options then createMultikeyIndex coll path rows
    else createPathIndex K coll path options rows
  | keys => do
    ensureCollection coll
    createCompoundIndex K coll keys options.unique

/-- The time of a field, in seconds. -/
def fieldEpoch (K : Crates F) : Option (Json F) → Option ℤ
  | some (.number n) => match n.asI64 with
    | some i => some i
    | none => some (K.truncate n.asF64)
  | some (.string s) => K.parseTime s
  | _ => none

/-- The addition of release builds, which wraps around. -/
def wrappingAddI64 (a b : ℤ) : ℤ := (a + b).bmod (2 ^ 64)

def expired (K : Crates F) (field : String) (seconds now : ℤ) (doc : Json F) : Bool :=
  match fieldEpoch K (doc.get field) with
  | some epoch => decide (wrappingAddI64 epoch seconds ≤ now)
  | none => false

def sweepTtl (K : Crates F) (coll field : String) (seconds now : ℤ) : CollM F PUnit := do
  let rows ← documentRows (K.tableName coll)
  rows.forM fun row =>
    if expired K field seconds now row.doc then deleteById coll row.id else pure ⟨⟩

def sweepAllTtl (K : Crates F) (now : ℤ) : CollM F PUnit := do
  let t ← get
  t.ttl.entries.forM fun (coll, field, seconds) =>
    tryCatch (sweepTtl K coll field seconds now) fun _ => pure ⟨⟩

def handle (K : Crates F) : Request F → CollM F PUnit
  | .createIndex coll keys options => createIndex K coll keys options
  | .insert coll docs => insert K coll docs
  | .update coll query multi upsert upd fresh => update K coll query multi upsert upd fresh
  | .delete coll query multi => delete K coll query multi
  | .sweep now => sweepAllTtl K now

/-- A request that fails leaves what it has written. -/
def serve (K : Crates F) (t : Tenant F) (r : Request F) : Tenant F := stateAfter (handle K r t)

end BlueDB.Collections
