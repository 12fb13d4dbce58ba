import BlueDB.Sql.Database

/-!
# Connections to one writer

Any number of connections run autocommit statements on one store. A statement
takes its snapshot when it begins, runs on its own overlay and commits one
batch; between these steps other connections take theirs. The committed store
and the allocator of row keys are shared.
-/

namespace BlueDB.Sql

variable {G : Engine}

/-- A statement of a connection between its begin and its commit. -/
structure Running (G : Engine) where
  stmt : Stmt G
  txn : Txn G
  executed : Bool

structure Server (G : Engine) where
  live : Store G
  seq : UInt64 → Option ℤ
  strict : Bool
  now : ℤ
  running : ℕ → Option (Running G)

inductive Event (G : Engine)
  | begin (i : ℕ) (stmt : Stmt G)
  | exec (i : ℕ)
  | commit (i : ℕ)

namespace Server

/-- What a connection with the transaction `txn` sees of the server. -/
def conn (srv : Server G) (txn : Txn G) : Conn G :=
  ⟨srv.live, srv.seq, srv.strict, srv.now, some txn⟩

def set (srv : Server G) (i : ℕ) (r : Option (Running G)) : Server G :=
  { srv with running := Function.update srv.running i r }

/-- An idle connection takes a snapshot for its next statement. -/
def beginStmt (srv : Server G) (i : ℕ) (stmt : Stmt G) : Server G :=
  match srv.running i with
  | some _ => srv
  | none => srv.set i (some ⟨stmt, ⟨[], srv.live, [], []⟩, false⟩)

/-- The statement runs once; if it fails its transaction is dropped. -/
def execStmt (srv : Server G) (i : ℕ) : Server G :=
  match srv.running i with
  | none => srv
  | some r =>
    if r.executed then srv
    else
      match runStmt r.stmt (srv.conn r.txn) with
      | .ok _ c => { srv with
          live := c.live
          seq := c.seq
          running := Function.update srv.running i (c.txn.map fun x => ⟨r.stmt, x, true⟩) }
      | .error _ c => { srv with
          live := c.live
          seq := c.seq
          running := Function.update srv.running i none }

def commitStmt (srv : Server G) (i : ℕ) : Server G :=
  match srv.running i with
  | none => srv
  | some r =>
    if r.executed then
      match commit (srv.conn r.txn) with
      | .ok _ c => { srv with live := c.live, running := Function.update srv.running i none }
      | .error _ _ => srv.set i none
    else srv

def step (srv : Server G) : Event G → Server G
  | .begin i stmt => srv.beginStmt i stmt
  | .exec i => srv.execStmt i
  | .commit i => srv.commitStmt i

def run (srv : Server G) (events : List (Event G)) : Server G := events.foldl step srv

def idle (c : Conn G) : Server G := ⟨c.live, c.seq, c.strict, c.now, fun _ => none⟩

end Server

end BlueDB.Sql
