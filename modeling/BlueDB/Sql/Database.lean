import BlueDB.Sql.Storage

/-!
# Statements

The engine checks a statement against the schema and calls the storage methods.
A statement outside a transaction is a transaction of its own: it is committed
when it returns and dropped when it fails. Inside one, a statement that fails
leaves what it had buffered.
-/

namespace BlueDB.Sql

variable {G : Engine}

inductive Stmt (G : Engine)
  | createTable (t : Name) (columns : Option (List (ColumnDef G)))
  | dropTable (t : Name)
  | insert (t : Name) (rows : List (DataRow G.Value))
  | update (t : Name) (assign : G.Key × DataRow G.Value → Option (DataRow G.Value))
  | delete (t : Name) (selects : G.Key × DataRow G.Value → Bool)
  | createIndex (t index : Name) (expr : G.Expr) (asc : Option Bool)
  | dropIndex (t index : Name)
  | addColumn (t : Name) (column : ColumnDef G)
  | dropColumn (t column : Name) (ifExists : Bool)
  | renameColumn (t old new : Name)
  | renameTable (t new : Name)

def rowFits (schema : Schema G) : DataRow G.Value → Bool
  | .vec values => schema.columnDefs.any fun columns => values.length = columns.length
  | .map _ => schema.columnDefs.isNone

/-- The position of the primary key. -/
def primaryKeyIndex (schema : Schema G) : Option ℕ :=
  schema.columnDefs.bind fun columns => columns.findIdx? ColumnDef.primary

/-- The schema of a table that exists. -/
def getSchema (s : Store G) (t : Name) : Except (Error G) (Schema G) :=
  match readSchema s t with
  | some schema => .ok schema
  | none => .error (.tableNotFound t)

def rowPrimaryKey (t : Name) (i : ℕ) : DataRow G.Value → Except (Error G) G.Key
  | .vec values =>
    match values[i]? with
    | some value => (G.keyOf value).mapError .evaluation
    | none => .error (.rowRejected t)
  | .map _ => .error (.rowRejected t)

/-- A primary key is given once, and no stored row has it. -/
def checkFresh (s : Store G) (t : Name) : List G.Key → Except (Error G) Unit
  | [] => .ok ()
  | key :: rest => do
    let stored ← fetchData s t key
    if stored = none ∧ key ∉ rest then checkFresh s t rest else .error (.duplicatePrimaryKey t)

def checkRows (t : Name) (schema : Schema G) (rows : List (DataRow G.Value)) : Exec G Unit :=
  if rows.all (rowFits schema) then pure () else throw (.rowRejected t)

def insertStmt (t : Name) (rows : List (DataRow G.Value)) : Exec G Unit := do
  let s := (← get).view
  let schema ← ofExcept (getSchema s t)
  checkRows t schema rows
  match primaryKeyIndex schema with
  | some i =>
    let keys ← ofExcept (rows.mapM (rowPrimaryKey t i))
    ofExcept (checkFresh s t keys)
    insertData t (keys.zip rows)
  | none => appendData t rows

def updateStmt (t : Name) (assign : G.Key × DataRow G.Value → Option (DataRow G.Value)) :
    Exec G Unit := do
  let s := (← get).view
  let schema ← ofExcept (getSchema s t)
  let rows ← ofExcept (scanData s t)
  let changed := rows.filterMap fun p => (assign p).map fun row => (p.1, row)
  checkRows t schema (changed.map Prod.snd)
  insertData t changed

def deleteStmt (t : Name) (selects : G.Key × DataRow G.Value → Bool) : Exec G Unit := do
  let s := (← get).view
  let _ ← ofExcept (getSchema s t)
  let rows ← ofExcept (scanData s t)
  deleteData t ((rows.filter selects).map Prod.fst)

def createTableStmt (t : Name) (columns : Option (List (ColumnDef G))) : Exec G Unit := do
  if (readSchema (← get).view t).isSome then throw (.tableAlreadyExists t)
  else if ((columns.getD []).map ColumnDef.name).Nodup then insertSchema ⟨t, columns, []⟩
  else throw (.duplicateColumnName t)

def dropTableStmt (t : Name) : Exec G Unit := do
  let _ ← ofExcept (getSchema (← get).view t)
  deleteSchema t

/-- An index expression names a column, and only columns of the table. -/
def indexExprOk (schema : Schema G) (expr : G.Expr) : Bool :=
  !(G.mentions expr).isEmpty && (G.mentions expr).all fun c => c ∈ schemaColumns schema

def createIndexStmt (t index : Name) (expr : G.Expr) (asc : Option Bool) : Exec G Unit := do
  let schema ← ofExcept (getSchema (← get).view t)
  if indexExprOk schema expr then createIndex t index expr asc
  else throw (.unsupportedIndexExpr index)

def dropColumnStmt (t column : Name) (ifExists : Bool) : Exec G Unit := do
  let s := (← get).view
  let naming := (indexDefs s t).filter fun i => column ∈ G.mentions i.expr
  naming.forM fun i => dropIndex t i.name
  dropColumn t column ifExists

def runStmt : Stmt G → Exec G Unit
  | .createTable t columns => createTableStmt t columns
  | .dropTable t => dropTableStmt t
  | .insert t rows => insertStmt t rows
  | .update t assign => updateStmt t assign
  | .delete t selects => deleteStmt t selects
  | .createIndex t index expr asc => createIndexStmt t index expr asc
  | .dropIndex t index => dropIndex t index
  | .addColumn t column => addColumn t column
  | .dropColumn t column ifExists => dropColumnStmt t column ifExists
  | .renameColumn t old new => renameColumn t old new
  | .renameTable t new => renameSchema t new

/-- One request of a session. `declareUnique` is what a `CREATE UNIQUE INDEX`
does before its statement: the registry is written outside of it. -/
inductive Op (G : Engine)
  | begin
  | commit
  | rollback
  | declareUnique (t index : Name)
  | exec (stmt : Stmt G)

def declareUnique (t index : Name) : Exec G Unit := do
  let unique := readUniqueIndexes (← get).view t
  writeKey (.uniqueidx t) (if index ∈ unique then unique else index :: unique)

/-- A statement, in a transaction of its own when none is open. -/
def executeStmt (stmt : Stmt G) : Exec G Unit := fun c =>
  if c.txn.isSome then runStmt stmt c
  else
    match runStmt stmt c.openTxn with
    | .ok _ c' => commit c'
    | .error e c' => .error e c'.closeTxn

def execute : Op G → Exec G Unit
  | .begin => modify fun c => if c.txn.isSome then c else c.openTxn
  | .commit => commit
  | .rollback => modify Conn.closeTxn
  | .declareUnique t index => declareUnique t index
  | .exec stmt => executeStmt stmt

/-- The connection after a request, whether it failed or not. -/
def step (c : Conn G) (op : Op G) : Conn G :=
  match execute op c with
  | .ok _ c' => c'
  | .error _ c' => c'

def run (c : Conn G) (ops : List (Op G)) : Conn G := ops.foldl step c

/-- A connection to an empty database. -/
def Conn.init (strict : Bool) (now : ℤ) : Conn G := ⟨Kv.empty, fun _ => none, strict, now, none⟩

end BlueDB.Sql
