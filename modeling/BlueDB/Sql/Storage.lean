import BlueDB.Lib.StateError
import BlueDB.Sql.Model

/-!
# The storage methods

A connection reads through its transaction: the snapshot taken when it began
with the writes buffered since. Every read is a function of that view. A method
that fails leaves the writes it had buffered.
-/

namespace BlueDB.Sql

variable {G : Engine}

/-- A unique-index entry to be checked again when the transaction commits. -/
structure UniqueIndexCheck (G : Engine) where
  tableName : Name
  indexName : Name
  valuePrefix : List UInt8
  pk : G.Key

structure Txn (G : Engine) where
  overlay : List (Write (StorageKey.Value G))
  snapshot : Store G
  uniqueChecks : List StorageKey
  uniqueIndexChecks : List (UniqueIndexCheck G)

/-- A connection to the writer. `live` is the committed store and `seq` the
allocator of row keys, by table id; both are shared with other connections. -/
structure Conn (G : Engine) where
  live : Store G
  seq : UInt64 → Option ℤ
  strict : Bool
  now : ℤ
  txn : Option (Txn G)

abbrev Exec (G : Engine) := EStateM (Error G) (Conn G)

/-- What the connection reads. -/
def Conn.view (c : Conn G) : Store G :=
  match c.txn with
  | some txn => txn.snapshot.commit txn.overlay
  | none => c.live

/-- A write is buffered in an open transaction and goes through without one. -/
def Conn.write (c : Conn G) (w : Write (StorageKey.Value G)) : Conn G :=
  match c.txn with
  | some txn => { c with txn := some { txn with overlay := txn.overlay ++ [w] } }
  | none => { c with live := c.live.write w }

def writeKey (k : StorageKey) (v : k.Value G) : Exec G Unit := modify (·.write (.put k v))

def deleteKey (k : StorageKey) : Exec G Unit := modify (·.write (.delete k))

def keyBytes (key : G.Key) : Except (Error G) (List UInt8) :=
  (G.toCmpBeBytes key).mapError .keyEncode

def readSchema (s : Store G) (t : Name) : Option (Schema G) := s.get (.schema t)

def readCatalog (s : Store G) (t : Name) : Option (ColumnCatalog G) := s.get (.colcat t)

def readPkCatalog (s : Store G) (t : Name) : Option (List Name) := s.get (.pkcat t)

def readUniqueIndexes (s : Store G) (t : Name) : List Name :=
  let names : Option (List Name) := s.get (.uniqueidx t)
  names.getD []

def resolveTableId (s : Store G) (t : Name) : Option UInt64 := s.get (.tableid t)

def tableId (s : Store G) (t : Name) : Except (Error G) UInt64 :=
  match resolveTableId s t with
  | some id => .ok id
  | none => .error (.noStableId t)

def indexDefs (s : Store G) (t : Name) : List (SchemaIndex G) :=
  match readSchema s t with
  | some schema => schema.indexes
  | none => []

def readRow (s : Store G) (id : UInt64) (pk : List UInt8) : Option (StoredRow G) :=
  s.get (.row id pk)

def readEntry (s : Store G) (id : UInt64) (index : Name) (value pk : List UInt8) :
    Option G.Key :=
  s.get (.indexEntry id index value pk)

/-- The stored row under a key; keys of other records hold none. -/
def storedRow (s : Store G) : StorageKey → Option (StoredRow G)
  | .row id pk => readRow s id pk
  | _ => none

/-- The row key an index entry holds. -/
def entryPk (s : Store G) : StorageKey → Option G.Key
  | .indexEntry id index value pk => readEntry s id index value pk
  | _ => none

/-- The rows under `keys` as the columns of the schema. -/
def logicalRows (s : Store G) (catalog : Option (ColumnCatalog G)) (keys : List StorageKey) :
    List (G.Key × DataRow G.Value) :=
  keys.filterMap fun k => (storedRow s k).map fun stored =>
    (stored.key, toLogical catalog stored.row)

def scanTable (s : Store G) (id : UInt64) : List StorageKey :=
  scanRange s (dataPrefix id) (prefixUpperBound (dataPrefix id))

def collectRows (s : Store G) (t : Name) : Except (Error G) (List (G.Key × DataRow G.Value)) := do
  let id ← tableId s t
  return logicalRows s (readCatalog s t) (scanTable s id)

def scanData (s : Store G) (t : Name) : Except (Error G) (List (G.Key × DataRow G.Value)) :=
  collectRows s t

def fetchData (s : Store G) (t : Name) (key : G.Key) :
    Except (Error G) (Option (DataRow G.Value)) := do
  let id ← tableId s t
  let bytes ← keyBytes key
  return (readRow s id bytes).map fun stored => toLogical (readCatalog s t) stored.row

/-- The least byte string above `key`. -/
def keySuccessor (key : List UInt8) : List UInt8 := key ++ [0x00]

/-- The byte range of a comparison with the primary key. -/
def pkRange (id : UInt64) (op : IndexOperator) (bytes : List UInt8) :
    List UInt8 × Option (List UInt8) :=
  let full := dataPrefix id
  let fullEnd := prefixUpperBound full
  let key := full ++ bytes
  match op with
  | .eq => (key, some (keySuccessor key))
  | .gtEq => (key, fullEnd)
  | .gt => (keySuccessor key, fullEnd)
  | .ltEq => (full, some (keySuccessor key))
  | .lt => (full, some key)

def indexRange (id : UInt64) (index : Name) (op : IndexOperator) (bytes : List UInt8) :
    List UInt8 × Option (List UInt8) :=
  let full := indexPrefix id index
  let fullEnd := prefixUpperBound full
  let value := indexValuePrefix id index bytes
  let valueEnd := prefixUpperBound value
  match op with
  | .eq => (value, valueEnd.or fullEnd)
  | .lt => (full, some value)
  | .ltEq => (full, valueEnd.or fullEnd)
  | .gt => (valueEnd.getD full, fullEnd)
  | .gtEq => (value, fullEnd)

/-- The comparable bytes of the value a comparison is made with. -/
def cmpBytes (value : G.Value) : Except (Error G) (List UInt8) := do
  let key ← (G.keyOf value).mapError .indexEval
  keyBytes key

/-- The byte range of a scan: `full` without a comparison. -/
def cmpRange (full : List UInt8)
    (range : IndexOperator → List UInt8 → List UInt8 × Option (List UInt8))
    (cmp : Option (IndexOperator × G.Value)) :
    Except (Error G) (List UInt8 × Option (List UInt8)) :=
  match cmp with
  | none => .ok (full, prefixUpperBound full)
  | some (op, value) => (cmpBytes value).map (range op)

def reverseIf (asc : Option Bool) {α : Type} (l : List α) : List α :=
  if asc = some false then l.reverse else l

def scanPkRange (s : Store G) (t : Name) (asc : Option Bool)
    (cmp : Option (IndexOperator × G.Value)) :
    Except (Error G) (List (G.Key × DataRow G.Value)) := do
  let id ← tableId s t
  let range ← cmpRange (dataPrefix id) (pkRange id) cmp
  return reverseIf asc (logicalRows s (readCatalog s t) (scanRange s range.1 range.2))

/-- The name under which the primary key itself is scanned, `__bluedb_pk`. -/
def pkPseudoIndex : Name :=
  ⟨[0x5F, 0x5F, 0x62, 0x6C, 0x75, 0x65, 0x64, 0x62, 0x5F, 0x70, 0x6B], by decide⟩

/-- The row an index entry leads to, as it is stored; a stale entry leads to none. -/
def entryRow (s : Store G) (id : UInt64) (pk : G.Key) :
    Except (Error G) (Option (G.Key × DataRow G.Value)) := do
  let bytes ← keyBytes pk
  return (readRow s id bytes).map fun stored => (stored.key, stored.row)

def scanIndexedData (s : Store G) (t index : Name) (asc : Option Bool)
    (cmp : Option (IndexOperator × G.Value)) :
    Except (Error G) (List (G.Key × DataRow G.Value)) :=
  if index = pkPseudoIndex then scanPkRange s t asc cmp
  else do
    let id ← tableId s t
    let range ← cmpRange (indexPrefix id index) (indexRange id index) cmp
    let entries := (scanRange s range.1 range.2).filterMap (entryPk s)
    let rows ← entries.mapM (entryRow s id)
    return reverseIf asc rows.reduceOption

def indexValue (index : SchemaIndex G) (columns : Option (List Name)) (row : DataRow G.Value) :
    Except (Error G) G.Key := do
  let value ← (G.evaluate (some ⟨columns, row⟩) index.expr).mapError .indexEval
  (G.keyOf value).mapError .indexEval

/-- The column names handed to the evaluator. -/
def contextColumns (columns : List Name) : Option (List Name) :=
  if columns = [] then none else some columns

def enforceUniqueIndex (id : UInt64) (index : Name) (value pk : G.Key) : Exec G Unit := do
  let bytes ← ofExcept (keyBytes value)
  let s := (← get).view
  let start := indexValuePrefix id index bytes
  let owners := (scanRange s start (prefixUpperBound start)).filterMap (entryPk s)
  if owners.all (· = pk) then pure ()
  else throw (.uniqueViolation (.duplicateEntry (G.displayKey value) index))

def stageUniqueIndexCheck (check : UniqueIndexCheck G) : Exec G Unit :=
  modify fun c => { c with txn := c.txn.map fun txn =>
    { txn with uniqueIndexChecks := txn.uniqueIndexChecks ++ [check] } }

def stageUniqueCheck (k : StorageKey) : Exec G Unit :=
  modify fun c => { c with txn := c.txn.map fun txn =>
    { txn with uniqueChecks := txn.uniqueChecks ++ [k] } }

/-- No other row may hold the value of a unique index; nulls never collide. -/
def checkUnique (t : Name) (id : UInt64) (unique : List Name) (index : Name) (value pk : G.Key) :
    Exec G Unit :=
  if index ∈ unique ∧ value ≠ G.noneKey then do
    enforceUniqueIndex id index value pk
    let bytes ← ofExcept (keyBytes value)
    stageUniqueIndexCheck ⟨t, index, indexValuePrefix id index bytes, pk⟩
  else pure ()

def applyIndexEntry (t : Name) (id : UInt64) (columns : Option (List Name)) (unique : List Name)
    (pk : G.Key) (row : DataRow G.Value) (insert : Bool) (index : SchemaIndex G) :
    Exec G Unit := do
  let value ← ofExcept (indexValue index columns row)
  checkUnique t id (if insert then unique else []) index.name value pk
  let valueBytes ← ofExcept (keyBytes value)
  let pkBytes ← ofExcept (keyBytes pk)
  if insert then writeKey (.indexEntry id index.name valueBytes pkBytes) pk
  else deleteKey (.indexEntry id index.name valueBytes pkBytes)

def applyIndexEntries (t : Name) (pk : G.Key) (row : DataRow G.Value) (insert : Bool) :
    Exec G Unit := do
  let s := (← get).view
  if indexDefs s t = [] then pure ()
  else
    let id ← ofExcept (tableId s t)
    let columns := ((readSchema s t).map schemaColumns).getD []
    (indexDefs s t).forM
      (applyIndexEntry t id (contextColumns columns) (readUniqueIndexes s t) pk row insert)

/-- The rules of a strict connection. -/
def enforce (schema : Schema G) : Except (Error G) Unit :=
  match schema.columnDefs with
  | none => .error (.schemalessRejected schema.tableName)
  | some columns =>
    if columns.any ColumnDef.primary then .ok () else .error (.primaryKeyRequired schema.tableName)

/-- The id after the last one handed out. -/
def nextTableId : Option UInt64 → Except (Error G) UInt64
  | none => .ok 1
  | some last => if last.toNat + 1 < 2 ^ 64 then .ok (last + 1) else .error .counterOverflow

def ensureTableId (t : Name) : Exec G UInt64 := do
  let s := (← get).view
  match resolveTableId s t with
  | some id => return id
  | none =>
    let next ← ofExcept (nextTableId (s.get .tableidSeq))
    writeKey .tableidSeq next
    writeKey (.tableid t) next
    return next

/-- The creation time is set once. -/
def stampMetadata (t : Name) : Exec G Unit := do
  let c ← get
  if (c.view.get (.metadata t)).isNone then writeKey (.metadata t) c.now else pure ()

def enforceStrict (schema : Schema G) : Exec G Unit := do
  if (← get).strict then ofExcept (enforce schema) else pure ()

def insertSchema (schema : Schema G) : Exec G Unit := do
  enforceStrict schema
  let _ ← ensureTableId schema.tableName
  writeKey (.schema schema.tableName) schema
  stampMetadata schema.tableName

def deleteRowKey (id : UInt64) (key : G.Key) : Exec G Unit := do
  let bytes ← ofExcept (keyBytes key)
  deleteKey (.row id bytes)

def deleteSchema (t : Name) : Exec G Unit := do
  let s := (← get).view
  let id ← ofExcept (tableId s t)
  let rows ← ofExcept (collectRows s t)
  rows.forM fun p => applyIndexEntries t p.1 p.2 false
  rows.forM fun p => deleteRowKey id p.1
  deleteKey (.schema t)
  deleteKey (.metadata t)
  deleteKey (.colcat t)
  deleteKey (.pkcat t)
  deleteKey (.tableid t)

/-- The highest integer row key of the committed rows of a table, 0 without one. -/
def liveMaxI64Key (live : Store G) (id : UInt64) : ℤ :=
  (((scanTable live id).filterMap (storedRow live)).filterMap fun stored =>
    G.asI64 stored.key).foldl max 0

/-- Reserves `count` consecutive row keys and returns the first. -/
def allocateKeys (t : Name) (count : ℕ) : Exec G ℤ := do
  let c ← get
  let id ← ofExcept (tableId c.view t)
  let current := (c.seq id).getD (liveMaxI64Key c.live id)
  if current + count < 2 ^ 63 then
    modify fun c => { c with seq := Function.update c.seq id (some (current + count)) }
    return current + 1
  else throw .counterOverflow

def putRow (t : Name) (id : UInt64) (catalog : Option (ColumnCatalog G)) (bytes : List UInt8)
    (key : G.Key) (row : DataRow G.Value) : Exec G Unit := do
  applyIndexEntries t key row true
  writeKey (.row id bytes) (⟨key, toPhysical catalog row⟩ : StoredRow G)

def appendRow (t : Name) (id : UInt64) (catalog : Option (ColumnCatalog G)) (next : ℤ)
    (row : DataRow G.Value) : Exec G Unit := do
  let bytes ← ofExcept (keyBytes (G.i64 next))
  putRow t id catalog bytes (G.i64 next) row

def appendRows (t : Name) (id : UInt64) (catalog : Option (ColumnCatalog G)) :
    ℤ → List (DataRow G.Value) → Exec G Unit
  | _, [] => pure ()
  | next, row :: rows => do
    appendRow t id catalog next row
    appendRows t id catalog (next + 1) rows

def appendData (t : Name) (rows : List (DataRow G.Value)) : Exec G Unit := do
  if rows = [] then pure ()
  else
    let next ← allocateKeys t rows.length
    let s := (← get).view
    let id ← ofExcept (tableId s t)
    appendRows t id (readCatalog s t) next rows

/-- The entries of the row a key holds so far are removed; a key that holds none
is remembered for the check at commit. -/
def retireRow (t : Name) (id : UInt64) (catalog : Option (ColumnCatalog G)) (bytes : List UInt8)
    (key : G.Key) : Exec G Unit := do
  match readRow (← get).view id bytes with
  | some old => applyIndexEntries t key (toLogical catalog old.row) false
  | none => stageUniqueCheck (.row id bytes)

def insertRow (t : Name) (id : UInt64) (catalog : Option (ColumnCatalog G)) (key : G.Key)
    (row : DataRow G.Value) : Exec G Unit := do
  let bytes ← ofExcept (keyBytes key)
  retireRow t id catalog bytes key
  putRow t id catalog bytes key row

def insertData (t : Name) (rows : List (G.Key × DataRow G.Value)) : Exec G Unit := do
  let s := (← get).view
  let id ← ofExcept (tableId s t)
  rows.forM fun p => insertRow t id (readCatalog s t) p.1 p.2

def removeEntries (t : Name) (id : UInt64) (catalog : Option (ColumnCatalog G))
    (bytes : List UInt8) (key : G.Key) : Exec G Unit := do
  match readRow (← get).view id bytes with
  | some old => applyIndexEntries t key (toLogical catalog old.row) false
  | none => pure ()

def deleteRow (t : Name) (id : UInt64) (catalog : Option (ColumnCatalog G)) (key : G.Key) :
    Exec G Unit := do
  let bytes ← ofExcept (keyBytes key)
  removeEntries t id catalog bytes key
  deleteKey (.row id bytes)

def deleteData (t : Name) (keys : List G.Key) : Exec G Unit := do
  let s := (← get).view
  let id ← ofExcept (tableId s t)
  keys.forM (deleteRow t id (readCatalog s t))

def backfillEntry (id : UInt64) (index : SchemaIndex G) (columns : Option (List Name))
    (p : G.Key × DataRow G.Value) : Exec G Unit := do
  let value ← ofExcept (indexValue index columns p.2)
  let valueBytes ← ofExcept (keyBytes value)
  let pkBytes ← ofExcept (keyBytes p.1)
  writeKey (.indexEntry id index.name valueBytes pkBytes) p.1

def indexOrd : Option Bool → SchemaIndexOrd
  | some true => .asc
  | some false => .desc
  | none => .both

def createIndex (t index : Name) (expr : G.Expr) (asc : Option Bool) : Exec G Unit := do
  let s := (← get).view
  match readSchema s t with
  | none => throw (.tableNotFound t)
  | some schema =>
    if schema.indexes.any fun i => i.name = index then throw (.indexNameAlreadyExists index)
    else
      let entry : SchemaIndex G := ⟨index, expr, indexOrd asc⟩
      let id ← ofExcept (tableId s t)
      let rows ← ofExcept (collectRows s t)
      rows.forM (backfillEntry id entry (contextColumns (schemaColumns schema)))
      writeKey (.schema t) { schema with indexes := schema.indexes ++ [entry] }

/-- The index leaves the registry of unique indexes too. -/
def forgetUniqueIndex (t index : Name) : Exec G Unit := do
  let unique := readUniqueIndexes (← get).view t
  if index ∈ unique then writeKey (.uniqueidx t) (unique.filter (· ≠ index)) else pure ()

def dropIndex (t index : Name) : Exec G Unit := do
  let s := (← get).view
  match readSchema s t with
  | none => throw (.tableNotFound t)
  | some schema =>
    if schema.indexes.any fun i => i.name = index then
      let id ← ofExcept (tableId s t)
      let start := indexPrefix id index
      (scanRange s start (prefixUpperBound start)).forM deleteKey
      writeKey (.schema t) { schema with indexes := schema.indexes.filter fun i => i.name ≠ index }
      forgetUniqueIndex t index
    else throw (.indexNameDoesNotExist index)

/-- The value of a new column in the rows that predate it. -/
def fillValue (column : ColumnDef G) : Except (Error G) G.Value :=
  match column.default, column.nullable with
  | some default, _ => (G.evaluate none default).mapError .evaluation
  | none, true => .ok G.null
  | none, false => .error (.defaultValueRequired column)

/-- The catalog of a table with `n` columns. -/
def currentCatalog (s : Store G) (t : Name) (n : ℕ) : ColumnCatalog G :=
  (readCatalog s t).getD (.identity n)

def addColumn (t : Name) (column : ColumnDef G) : Exec G Unit := do
  let s := (← get).view
  match readSchema s t with
  | none => throw (.tableNotFound t)
  | some schema =>
    let default ← ofExcept (fillValue column)
    match schema.columnDefs with
    | none => throw (.schemalessTableFound t)
    | some columns =>
      if columns.any fun d => d.name = column.name then throw (.alreadyExistingColumn column.name)
      else
        insertSchema { schema with columnDefs := some (columns ++ [column]) }
        writeKey (.colcat t) ((currentCatalog s t columns.length).addColumn default)

def isKeyColumn (s : Store G) (t : Name) (column : ColumnDef G) : Bool :=
  column.primary || decide (column.name ∈ (readPkCatalog s t).getD []) ||
    decide (column.name = pkPseudoIndex)

def dropColumn (t column : Name) (ifExists : Bool) : Exec G Unit := do
  let s := (← get).view
  match readSchema s t with
  | none => throw (.tableNotFound t)
  | some schema =>
    match schema.columnDefs with
    | none => throw (.schemalessTableFound t)
    | some columns =>
      match columns.findIdx? fun d => d.name = column with
      | none => if ifExists then pure () else throw (.droppingColumnNotFound column)
      | some i =>
        if columns[i]?.any (isKeyColumn s t) then throw (.dropsKeyColumn column)
        else
          insertSchema { schema with columnDefs := some (columns.eraseIdx i) }
          writeKey (.colcat t) ((currentCatalog s t columns.length).dropColumn i)

/-- The first column named `old` gets the name `new`. -/
def renameFirst (old new : Name) : List (ColumnDef G) → List (ColumnDef G)
  | [] => []
  | d :: defs => if d.name =
      old then { d with name := new } :: defs else d :: renameFirst old new defs

def renameColumn (t old new : Name) : Exec G Unit := do
  match readSchema (← get).view t with
  | none => throw (.tableNotFound t)
  | some schema =>
    match schema.columnDefs with
    | none => throw (.schemalessTableFound t)
    | some columns =>
      if columns.any fun d => d.name = new then throw (.alreadyExistingColumn new)
      else if columns.any fun d => d.name = old then
        insertSchema { schema with columnDefs := some (renameFirst old new columns) }
      else throw .renamingColumnNotFound

/-- A record moved to another key of its kind, if there is one. -/
def moveKey (src dst : StorageKey) (hkind : src.Value G = dst.Value G) : Exec G Unit := do
  match (← get).view.get src with
  | some v =>
    writeKey dst (cast hkind v)
    deleteKey src
  | none => pure ()

def renameSchema (t new : Name) : Exec G Unit := do
  let s := (← get).view
  match readSchema s t with
  | none => throw (.tableNotFound t)
  | some schema =>
    let id ← ofExcept (tableId s t)
    writeKey (.schema new) { schema with tableName := new }
    deleteKey (.schema t)
    writeKey (.tableid new) id
    deleteKey (.tableid t)
    moveKey (.metadata t) (.metadata new) rfl
    moveKey (.colcat t) (.colcat new) rfl
    moveKey (.pkcat t) (.pkcat new) rfl

def Conn.openTxn (c : Conn G) : Conn G := { c with txn := some ⟨[], c.live, [], []⟩ }

def Conn.closeTxn (c : Conn G) : Conn G := { c with txn := none }

/-- Whether the committed store holds `value` under another row's key. -/
def violates (live : Store G) (check : UniqueIndexCheck G) : Bool :=
  ((scanRange live check.valuePrefix (prefixUpperBound check.valuePrefix)).filterMap
    (entryPk live)).any (· ≠ check.pk)

/-- Fresh row keys and unique values are checked against the committed store. -/
def recheck (live : Store G) (txn : Txn G) : Except (Error G) Unit :=
  match txn.uniqueChecks.find? fun k => (live.get k).isSome with
  | some k => .error (.uniqueViolation (.rowExists k.encode))
  | none =>
    match txn.uniqueIndexChecks.find? (violates live) with
    | some check => .error (.uniqueViolation (.duplicateAtCommit check.indexName check.tableName))
    | none => .ok ()

/-- The overlay is applied as one batch; a failed check drops it. -/
def commit : Exec G Unit := fun c =>
  match c.txn with
  | none => .ok () c
  | some txn =>
    if txn.overlay = [] then .ok () c.closeTxn
    else
      match recheck c.live txn with
      | .error e => .error e c.closeTxn
      | .ok _ => .ok () { c with live := c.live.commit txn.overlay, txn := none }

end BlueDB.Sql
