import BlueDB.Sql.Tap

/-!
# The writer of a tenant

Connections of one tenant run transactions side by side. A commit checks its
fresh keys and values, takes a number of the change log for each change of a
mirrored table, one after the other, and then writes its rows and its part of
the log as one batch. The other connections take their steps in between. The
counters live in the memory of the writer and are gone after a restart.
-/

namespace BlueDB.Sql

open Overlay (RowChange)

variable {ι : Type} {G : Engine}

/-- What a connection is opened with: its rules, a commit observer, the mirror. -/
structure ConnOptions where
  strict : Bool
  observed : Bool
  mirrored : Bool
  deriving DecidableEq

/-- A transaction with what its tap has buffered. -/
structure OpenTxn (G : Engine) where
  txn : Txn G
  changes : List (RowChange G)
  hadDataWrite : Bool
  written : List (TappedRow G × Bool)

/-- What a connection is doing. A commit has changes left that take a number, and
some that have theirs. -/
inductive SessionPhase (G : Engine)
  | idle
  | running (x : OpenTxn G)
  | committing (x : OpenTxn G) (todo : List (RowChange G)) (stamped : List (ℕ × RowChange G))

/-- The transaction of a connection. -/
def SessionPhase.open? : SessionPhase G → Option (OpenTxn G)
  | .idle => none
  | .running x => some x
  | .committing x _ _ => some x

/-- `log` is the change log by number, `cdcSeq` the last number taken and
`commitSeq` the write watermark. -/
structure Writer (ι : Type) (G : Engine) where
  live : Store G
  log : OrderedMap ℕ (RowChange G)
  seq : UInt64 → Option ℤ
  cdcSeq : Option ℕ
  commitSeq : ℕ
  now : ℤ
  options : ι → ConnOptions
  phase : ι → SessionPhase G

/-- A step of connection `i`. -/
inductive WriterEvent (ι : Type) (G : Engine)
  | begin (i : ι)
  | exec (i : ι) (stmt : Stmt G)
  | rollback (i : ι)
  | commit (i : ι)
  | stamp (i : ι)
  | write (i : ι)

theorem Projects.conn {α : Type} {x : TapExec G α} {y : Exec G α} (h : Projects x y)
    (s : Tapped G) :
    (stateAfter (x s)).conn = stateAfter (y s.conn) := by
  rw [← h.eq s]
  cases x s <;> rfl

/-- The largest number of the log, zero for an empty one. -/
def maxPersistedCdcSeq (log : OrderedMap ℕ (RowChange G)) : ℕ :=
  (log.entries.map Prod.fst).foldl max 0

namespace Writer

/-- A writer that has just been opened. -/
def opened (live : Store G) (log : OrderedMap ℕ (RowChange G)) (now : ℤ)
    (options : ι → ConnOptions) : Writer ι G :=
  ⟨live, log, fun _ => none, none, 0, now, options, fun _ => .idle⟩

/-- Another writer takes over: transactions and counters are gone. -/
def restart (srv : Writer ι G) : Writer ι G := opened srv.live srv.log srv.now srv.options

/-- What connection `i` sees in its transaction. -/
def tapped (srv : Writer ι G) (isEnabled : Name → Bool) (i : ι) (x : OpenTxn G) : Tapped G where
  conn := ⟨srv.live, srv.seq, (srv.options i).strict, srv.now, some x.txn⟩
  observed := (srv.options i).observed
  cdc := if (srv.options i).mirrored then some isEnabled else none
  changes := x.changes
  hadDataWrite := x.hadDataWrite
  written := x.written

/-- The transaction after a statement. -/
def phaseAfter (s : Tapped G) : SessionPhase G :=
  match s.conn.txn with
  | some txn => .running ⟨txn, s.changes, s.hadDataWrite, s.written⟩
  | none => .idle

/-- The next number of the change log. -/
def nextCdcSeq (srv : Writer ι G) : ℕ := srv.cdcSeq.getD (maxPersistedCdcSeq srv.log) + 1

variable [DecidableEq ι]

def setPhase (srv : Writer ι G) (i : ι) (p : SessionPhase G) : Writer ι G :=
  { srv with phase := Function.update srv.phase i p }

def beginTxn (srv : Writer ι G) (i : ι) : Writer ι G :=
  match srv.phase i with
  | .idle => srv.setPhase i (.running ⟨⟨[], srv.live, [], []⟩, [], false, []⟩)
  | _ => srv

/-- A statement that fails leaves what it had buffered. -/
def execStmt (srv : Writer ι G) (isEnabled : Name → Bool) (i : ι) (stmt : Stmt G) : Writer ι G :=
  match srv.phase i with
  | .running x =>
    let s := stateAfter (Tap.runStmt stmt (srv.tapped isEnabled i x))
    { srv.setPhase i (phaseAfter s) with live := s.conn.live, seq := s.conn.seq }
  | _ => srv

def rollback (srv : Writer ι G) (i : ι) : Writer ι G :=
  match srv.phase i with
  | .running _ => srv.setPhase i .idle
  | _ => srv

/-- The changes a commit looks at: none without the mirror. -/
def loggable (srv : Writer ι G) (i : ι) (x : OpenTxn G) : List (RowChange G) :=
  if (srv.options i).mirrored then x.changes else []

def startCommit (srv : Writer ι G) (i : ι) : Writer ι G :=
  match srv.phase i with
  | .running x =>
    if x.txn.overlay = [] then srv.setPhase i .idle
    else
      match recheck srv.live x.txn with
      | .error _ => srv.setPhase i .idle
      | .ok _ => srv.setPhase i (.committing x (srv.loggable i x) [])
  | _ => srv

/-- The next change takes a number, if its table is mirrored. -/
def stamp (srv : Writer ι G) (isEnabled : Name → Bool) (i : ι) : Writer ι G :=
  match srv.phase i with
  | .committing x (change :: todo) stamped =>
    if isEnabled change.table then
      { srv.setPhase i (.committing x todo (stamped ++ [(srv.nextCdcSeq, change)])) with
        cdcSeq := some srv.nextCdcSeq }
    else srv.setPhase i (.committing x todo stamped)
  | _ => srv

def appendLog (log : OrderedMap ℕ (RowChange G)) (stamped : List (ℕ × RowChange G)) :
    OrderedMap ℕ (RowChange G) := stamped.foldl (fun log p => log.insert p.1 p.2) log

/-- The batch: rows and log together, and the write watermark. -/
def writeBatch (srv : Writer ι G) (i : ι) : Writer ι G :=
  match srv.phase i with
  | .committing x [] stamped =>
    { srv.setPhase i .idle with
      live := srv.live.commit x.txn.overlay
      log := appendLog srv.log stamped
      commitSeq := if x.hadDataWrite then srv.commitSeq + 1 else srv.commitSeq }
  | _ => srv

/-- A step that is not open to the connection changes nothing. -/
def step (srv : Writer ι G) (isEnabled : Name → Bool) : WriterEvent ι G → Writer ι G
  | .begin i => srv.beginTxn i
  | .exec i stmt => srv.execStmt isEnabled i stmt
  | .rollback i => srv.rollback i
  | .commit i => srv.startCommit i
  | .stamp i => srv.stamp isEnabled i
  | .write i => srv.writeBatch i

/-- The transaction that a step commits: one without writes when it ends, another
one with its batch. -/
def committed (srv : Writer ι G) : WriterEvent ι G → Option (OpenTxn G)
  | .commit i =>
    match srv.phase i with
    | .running x => if x.txn.overlay = [] then some x else none
    | _ => none
  | .write i =>
    match srv.phase i with
    | .committing x [] _ => some x
    | _ => none
  | _ => none

end Writer

/-- A step of a connection, with the tables mirrored at that time, or another
writer taking over. -/
inductive LifeEvent (ι : Type) (G : Engine)
  | conn (isEnabled : Name → Bool) (ev : WriterEvent ι G)
  | restart

namespace Writer

variable [DecidableEq ι]

def lifeStep (srv : Writer ι G) : LifeEvent ι G → Writer ι G
  | .conn isEnabled ev => srv.step isEnabled ev
  | .restart => srv.restart

def run (srv : Writer ι G) (events : List (LifeEvent ι G)) : Writer ι G :=
  events.foldl lifeStep srv

end Writer

end BlueDB.Sql
