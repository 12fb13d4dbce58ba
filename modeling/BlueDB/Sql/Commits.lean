import BlueDB.Lib.KeyedLocks
import BlueDB.Sql.CommitAlone

/-!
# Concurrent commits

Connections to one writer run transactions side by side. An explicit transaction
holds the write lease from its begin to its end, an autocommit statement only on
a connection that serializes its writes. A commit takes the locks of the keys
and values it has to check again, checks them one after the other against the
committed store, writes its batch and releases the locks; other connections take
their steps in between.
-/

namespace BlueDB.Sql

variable {ι : Type} {G : Engine}

/-- A `BEGIN` block, or a single statement. -/
inductive Kind
  | explicit
  | autocommit (serialized : Bool)

/-- The transaction takes the write lease before its snapshot. -/
def Kind.eager : Kind → Bool
  | .explicit => true
  | .autocommit serialized => serialized

/-- An explicit transaction runs any number of statements, another one only one. -/
def Kind.runs : Kind → Bool → Bool
  | .explicit, _ => true
  | .autocommit _, executed => !executed

def Kind.commits : Kind → Bool → Bool
  | .explicit, _ => true
  | .autocommit _, executed => executed

/-- What a connection is doing. A commit that is checking has `keys` and `checks`
left; one that has written holds its locks until it returns. -/
inductive Phase (G : Engine)
  | idle
  | running (kind : Kind) (executed : Bool) (txn : Txn G)
  | locking (txn : Txn G)
  | checking (txn : Txn G) (keys : List StorageKey) (checks : List (UniqueIndexCheck G))
  | written

/-- A transaction that takes a statement. -/
def Phase.accepts : Phase G → Option (Txn G)
  | .running kind executed txn => if kind.runs executed then some txn else none
  | _ => none

/-- A transaction whose checks are all made. -/
def Phase.ready : Phase G → Option (Txn G)
  | .checking txn [] [] => some txn
  | _ => none

def Phase.isWritten : Phase G → Bool
  | .written => true
  | _ => false

/-- The transaction of a connection, until it is written. -/
def Phase.txn : Phase G → Option (Txn G)
  | .running _ _ txn => some txn
  | .locking txn => some txn
  | .checking txn _ _ => some txn
  | _ => none

/-- The keys a commit locks: the row keys and the values it checks again. -/
def lockKeys (txn : Txn G) : List (List UInt8) :=
  txn.uniqueChecks.map StorageKey.encode ++ txn.uniqueIndexChecks.map UniqueIndexCheck.valuePrefix

structure Commits (ι : Type) (G : Engine) where
  live : Store G
  seq : UInt64 → Option ℤ
  strict : Bool
  now : ℤ
  lease : Option ι
  locks : KeyedLocks ι (List UInt8)
  phase : ι → Phase G

/-- A step of connection `i`. -/
inductive CommitEvent (ι : Type) (G : Engine)
  | begin (i : ι) (kind : Kind)
  | exec (i : ι) (stmt : Stmt G)
  | rollback (i : ι)
  | commit (i : ι)
  | lookup (i : ι)
  | grant (i : ι)
  | verify (i : ι)
  | recheck (i : ι)
  | write (i : ι)
  | finish (i : ι)

/-- From how many keys on the table of the locks is pruned. -/
def uniqueLockPruneAt : ℕ := 8192

namespace Commits

variable [DecidableEq ι]

def setPhase (srv : Commits ι G) (i : ι) (p : Phase G) : Commits ι G :=
  { srv with phase := Function.update srv.phase i p }

/-- What a connection with the transaction `txn` sees. -/
def conn (srv : Commits ι G) (txn : Txn G) : Conn G :=
  ⟨srv.live, srv.seq, srv.strict, srv.now, some txn⟩

/-- The connection returns: its locks and the lease are free again. -/
def close (srv : Commits ι G) (i : ι) : Commits ι G :=
  { srv.setPhase i .idle with
    locks := srv.locks.release i
    lease := if srv.lease = some i then none else srv.lease }

def beginTxn (srv : Commits ι G) (i : ι) (kind : Kind) : Commits ι G :=
  match srv.phase i with
  | .idle =>
    if kind.eager then
      if srv.lease.isNone then
        { srv.setPhase i (.running kind false ⟨[], srv.live, [], []⟩) with lease := some i }
      else srv
    else srv.setPhase i (.running kind false ⟨[], srv.live, [], []⟩)
  | _ => srv

/-- The state after a statement of transaction `kind`; a single one that fails is
rolled back. -/
def afterStmt (srv : Commits ι G) (i : ι) (kind : Kind) :
    EStateM.Result (Error G) (Conn G) Unit → Commits ι G
  | .ok _ c =>
    match c.txn with
    | some txn => { srv.setPhase i (.running kind true txn) with live := c.live, seq := c.seq }
    | none => { srv.close i with live := c.live, seq := c.seq }
  | .error _ c =>
    match kind, c.txn with
    | .explicit, some txn =>
      { srv.setPhase i (.running kind true txn) with live := c.live, seq := c.seq }
    | _, _ => { srv.close i with live := c.live, seq := c.seq }

def execStmt (srv : Commits ι G) (i : ι) (stmt : Stmt G) : Commits ι G :=
  match srv.phase i with
  | .running kind executed txn =>
    if kind.runs executed then srv.afterStmt i kind (runStmt stmt (srv.conn txn)) else srv
  | _ => srv

def rollback (srv : Commits ι G) (i : ι) : Commits ι G :=
  match srv.phase i with
  | .running .explicit _ _ => srv.close i
  | _ => srv

/-- A commit with nothing to check takes no lock. -/
def startCommit (srv : Commits ι G) (i : ι) : Commits ι G :=
  match srv.phase i with
  | .running kind executed txn =>
    if kind.commits executed then
      if txn.overlay = [] then srv.close i
      else if txn.uniqueChecks = [] ∧ txn.uniqueIndexChecks.isEmpty then
        srv.setPhase i (.checking txn [] [])
      else { srv.setPhase i (.locking txn) with locks := srv.locks.request i (lockKeys txn) }
    else srv
  | _ => srv

def verify (srv : Commits ι G) (i : ι) : Commits ι G :=
  match srv.phase i with
  | .locking txn =>
    if (srv.locks.client i).Served then
      srv.setPhase i (.checking txn txn.uniqueChecks txn.uniqueIndexChecks)
    else srv
  | _ => srv

/-- The next check against the committed store; the commit fails with it. -/
def recheckNext (srv : Commits ι G) (i : ι) : Commits ι G :=
  match srv.phase i with
  | .checking txn (k :: keys) checks =>
    if (srv.live.get k).isSome then srv.close i else srv.setPhase i (.checking txn keys checks)
  | .checking txn [] (check :: checks) =>
    if violates srv.live check then srv.close i else srv.setPhase i (.checking txn [] checks)
  | _ => srv

def writeBatch (srv : Commits ι G) (i : ι) : Commits ι G :=
  match srv.phase i with
  | .checking txn [] [] => { srv.setPhase i .written with live := srv.live.commit txn.overlay }
  | _ => srv

def finish (srv : Commits ι G) (i : ι) : Commits ι G :=
  match srv.phase i with
  | .written => srv.close i
  | _ => srv

/-- A lock of the commit is looked up or taken. -/
def takeLock (srv : Commits ι G) (i : ι) (locks : KeyedLocks ι (List UInt8)) : Commits ι G :=
  match srv.phase i with
  | .locking _ => { srv with locks := locks }
  | _ => srv

variable [Fintype ι]

/-- A step that is not open to the connection changes nothing. -/
def step (srv : Commits ι G) : CommitEvent ι G → Commits ι G
  | .begin i kind => srv.beginTxn i kind
  | .exec i stmt => srv.execStmt i stmt
  | .rollback i => srv.rollback i
  | .commit i => srv.startCommit i
  | .lookup i => srv.takeLock i (srv.locks.lookup uniqueLockPruneAt i)
  | .grant i => srv.takeLock i (srv.locks.grant i)
  | .verify i => srv.verify i
  | .recheck i => srv.recheckNext i
  | .write i => srv.writeBatch i
  | .finish i => srv.finish i

/-- The state before the `n`-th event of a schedule. -/
def before (srv : Commits ι G) (events : ℕ → CommitEvent ι G) : ℕ → Commits ι G
  | 0 => srv
  | n + 1 => (srv.before events n).step (events n)

/-- A server whose connections are idle. -/
def quiet (c : Conn G) : Commits ι G :=
  ⟨c.live, c.seq, c.strict, c.now, none, KeyedLocks.empty, fun _ => .idle⟩

end Commits

/-- The connection a step is one of. -/
def CommitEvent.conn : CommitEvent ι G → ι
  | .begin i _ => i
  | .exec i _ => i
  | .rollback i => i
  | .commit i => i
  | .lookup i => i
  | .grant i => i
  | .verify i => i
  | .recheck i => i
  | .write i => i
  | .finish i => i

namespace Commits

variable [DecidableEq ι] {srv srv' : Commits ι G} {i j : ι}

/-- Connection `i` comes to phase `p`, with these locks and this committed store. -/
structure Sets (srv srv' : Commits ι G) (i : ι) (p : Phase G)
    (locks : KeyedLocks ι (List UInt8)) (live : Store G) : Prop where
  phase : srv'.phase = Function.update srv.phase i p
  locks : srv'.locks = locks
  live : srv'.live = live

theorem Sets.self {p : Phase G} {locks : KeyedLocks ι (List UInt8)} {live : Store G}
    (h : Sets srv srv' i p locks live) : srv'.phase i = p := by
  rw [h.phase]
  exact Function.update_self ..

theorem Sets.other {p : Phase G} {locks : KeyedLocks ι (List UInt8)} {live : Store G}
    (h : Sets srv srv' i p locks live) (hj : j ≠ i) : srv'.phase j = srv.phase j := by
  rw [h.phase]
  exact Function.update_of_ne hj ..

variable [Fintype ι]

/-- What a step of connection `i` does. -/
inductive Transition (srv srv' : Commits ι G) (i : ι) : Prop
  | opened (kind : Kind) (hphase : srv.phase i = .idle)
      (h : Sets srv srv' i (.running kind false ⟨[], srv.live, [], []⟩) srv.locks srv.live)
  | ran (kind : Kind) (executed : Bool) (x x' : Txn G)
      (hphase : srv.phase i = .running kind executed x) (hmore : StagesMore x x')
      (h : Sets srv srv' i (.running kind true x') srv.locks srv.live)
  | closed (h : Sets srv srv' i .idle (srv.locks.release i) srv.live)
  | unchecked (kind : Kind) (executed : Bool) (x : Txn G)
      (hphase : srv.phase i = .running kind executed x) (hkeys : x.uniqueChecks = [])
      (hchecks : x.uniqueIndexChecks = [])
      (h : Sets srv srv' i (.checking x [] []) srv.locks srv.live)
  | requested (kind : Kind) (executed : Bool) (x : Txn G)
      (hphase : srv.phase i = .running kind executed x)
      (h : Sets srv srv' i (.locking x) (srv.locks.request i (lockKeys x)) srv.live)
  | looked (x : Txn G) (hphase : srv.phase i = .locking x)
      (h : Sets srv srv' i (.locking x) (srv.locks.lookup uniqueLockPruneAt i) srv.live)
  | granted (x : Txn G) (hphase : srv.phase i = .locking x)
      (h : Sets srv srv' i (.locking x) (srv.locks.grant i) srv.live)
  | verified (x : Txn G) (hphase : srv.phase i = .locking x)
      (hserved : (srv.locks.client i).Served)
      (h : Sets srv srv' i (.checking x x.uniqueChecks x.uniqueIndexChecks) srv.locks srv.live)
  | keyChecked (x : Txn G) (k : StorageKey) (keys : List StorageKey)
      (checks : List (UniqueIndexCheck G)) (hphase : srv.phase i = .checking x (k :: keys) checks)
      (hfree : srv.live.get k = none)
      (h : Sets srv srv' i (.checking x keys checks) srv.locks srv.live)
  | valueChecked (x : Txn G) (check : UniqueIndexCheck G) (checks : List (UniqueIndexCheck G))
      (hphase : srv.phase i = .checking x [] (check :: checks))
      (hfree : violates srv.live check = false)
      (h : Sets srv srv' i (.checking x [] checks) srv.locks srv.live)
  | wrote (x : Txn G) (hphase : srv.phase i = .checking x [] [])
      (h : Sets srv srv' i .written srv.locks (srv.live.commit x.overlay))

theorem Transition.other (h : Transition srv srv' i) (hj : j ≠ i) : srv'.phase j = srv.phase j := by
  cases h with
  | opened _ _ hsets | ran _ _ _ _ _ _ hsets | closed hsets | unchecked _ _ _ _ _ _ hsets
  | requested _ _ _ _ hsets | looked _ _ hsets | granted _ _ hsets | verified _ _ _ hsets
  | keyChecked _ _ _ _ _ _ hsets | valueChecked _ _ _ _ _ hsets | wrote _ _ hsets =>
    exact hsets.other hj

omit [Fintype ι] in
theorem sets_setPhase (srv : Commits ι G) (i : ι) (p : Phase G) :
    Sets srv (srv.setPhase i p) i p srv.locks srv.live := ⟨rfl, rfl, rfl⟩

omit [Fintype ι] in
theorem sets_close (srv : Commits ι G) (i : ι) :
    Sets srv (srv.close i) i .idle (srv.locks.release i) srv.live := ⟨rfl, rfl, rfl⟩

/-- A statement of a transaction adds to what it stages and leaves the store alone. -/
theorem exec_transition {kind : Kind} {executed : Bool} {x : Txn G}
    (hphase : srv.phase i = .running kind executed x) (stmt : Stmt G) :
    Transition srv (srv.afterStmt i kind (runStmt stmt (srv.conn x))) i := by
  have hgrows := (runStmt_grows stmt).holds (srv.conn x)
  have hstaged := (bufferwise_keepsStaged.runStmt stmt).holds (srv.conn x)
  unfold Holds at hgrows hstaged
  cases hresult : runStmt stmt (srv.conn x) with
  | ok a c =>
    rw [hresult] at hgrows hstaged
    have hlive : c.live = srv.live := (hgrows rfl).live
    obtain ⟨x', hx', hmore⟩ := hstaged x rfl
    dsimp only [afterStmt]
    rw [Option.mem_def.mp hx']
    exact .ran kind executed x x' hphase hmore ⟨rfl, rfl, hlive⟩
  | error e c =>
    rw [hresult] at hgrows hstaged
    have hlive : c.live = srv.live := (hgrows rfl).live
    obtain ⟨x', hx', hmore⟩ := hstaged x rfl
    dsimp only [afterStmt]
    rw [Option.mem_def.mp hx']
    cases kind with
    | explicit => exact .ran .explicit executed x x' hphase hmore ⟨rfl, rfl, hlive⟩
    | autocommit serialized => exact .closed ⟨rfl, rfl, hlive⟩

theorem step_cases (srv : Commits ι G) (e : CommitEvent ι G) :
    srv.step e = srv ∨ Transition srv (srv.step e) e.conn := by
  cases e with
  | begin i kind =>
    change srv.beginTxn i kind = srv ∨ Transition srv (srv.beginTxn i kind) i
    unfold beginTxn
    split
    · next hphase =>
      split_ifs with heager hlease
      · exact Or.inr (.opened kind hphase ⟨rfl, rfl, rfl⟩)
      · exact Or.inl rfl
      · exact Or.inr (.opened kind hphase (sets_setPhase ..))
    · exact Or.inl rfl
  | exec i stmt =>
    change srv.execStmt i stmt = srv ∨ Transition srv (srv.execStmt i stmt) i
    unfold execStmt
    split
    · next hphase =>
      split_ifs with hruns
      · exact Or.inr (exec_transition hphase stmt)
      · exact Or.inl rfl
    · exact Or.inl rfl
  | rollback i =>
    change srv.rollback i = srv ∨ Transition srv (srv.rollback i) i
    unfold rollback
    split
    · exact Or.inr (.closed (sets_close ..))
    · exact Or.inl rfl
  | commit i =>
    change srv.startCommit i = srv ∨ Transition srv (srv.startCommit i) i
    unfold startCommit
    split
    · next kind executed x hphase =>
      split_ifs with hcommits hover hstaged
      · exact Or.inr (.closed (sets_close ..))
      · have hchecks : x.uniqueIndexChecks = [] := List.isEmpty_iff.mp hstaged.2
        exact Or.inr (.unchecked kind executed x hphase hstaged.1 hchecks (sets_setPhase ..))
      · exact Or.inr (.requested kind executed x hphase ⟨rfl, rfl, rfl⟩)
      · exact Or.inl rfl
    · exact Or.inl rfl
  | lookup i =>
    change srv.takeLock i _ = srv ∨ Transition srv (srv.takeLock i _) i
    unfold takeLock
    split
    · next x hphase =>
      refine Or.inr (.looked x hphase ⟨?_, rfl, rfl⟩)
      rw [← hphase, Function.update_eq_self]
    · exact Or.inl rfl
  | grant i =>
    change srv.takeLock i _ = srv ∨ Transition srv (srv.takeLock i _) i
    unfold takeLock
    split
    · next x hphase =>
      refine Or.inr (.granted x hphase ⟨?_, rfl, rfl⟩)
      rw [← hphase, Function.update_eq_self]
    · exact Or.inl rfl
  | verify i =>
    change srv.verify i = srv ∨ Transition srv (srv.verify i) i
    unfold verify
    split
    · next x hphase =>
      split_ifs with hserved
      · exact Or.inr (.verified x hphase hserved (sets_setPhase ..))
      · exact Or.inl rfl
    · exact Or.inl rfl
  | recheck i =>
    change srv.recheckNext i = srv ∨ Transition srv (srv.recheckNext i) i
    unfold recheckNext
    split
    · next x k keys checks hphase =>
      split_ifs with htaken
      · exact Or.inr (.closed (sets_close ..))
      · have hfree := Option.not_isSome_iff_eq_none.mp htaken
        exact Or.inr (.keyChecked x k keys checks hphase hfree (sets_setPhase ..))
    · next x check checks hphase =>
      split_ifs with htaken
      · exact Or.inr (.closed (sets_close ..))
      · have hfree := Bool.eq_false_of_not_eq_true htaken
        exact Or.inr (.valueChecked x check checks hphase hfree (sets_setPhase ..))
    · exact Or.inl rfl
  | write i =>
    change srv.writeBatch i = srv ∨ Transition srv (srv.writeBatch i) i
    unfold writeBatch
    split
    · next x hphase => exact Or.inr (.wrote x hphase ⟨rfl, rfl, rfl⟩)
    · exact Or.inl rfl
  | finish i =>
    change srv.finish i = srv ∨ Transition srv (srv.finish i) i
    unfold finish
    split
    · exact Or.inr (.closed (sets_close ..))
    · exact Or.inl rfl

def PhaseOk (c : Client (List UInt8)) : Phase G → Prop
  | .idle => c = Client.idle
  | .running _ _ _ => c = Client.idle
  | .locking x => ∀ k ∈ lockKeys x, k ∈ c.keys
  | .checking x _ _ => c.Served ∧ ∀ k ∈ lockKeys x, k ∈ c.keys
  | .written => c.Served

structure CommitsOk (srv : Commits ι G) : Prop where
  locks : srv.locks.Ok
  phase : ∀ i, PhaseOk (srv.locks.client i) (srv.phase i)

omit [Fintype ι] in
theorem CommitsOk.sets (h : CommitsOk srv) {p : Phase G} {locks : KeyedLocks ι (List UInt8)}
    {live : Store G} (hsets : Sets srv srv' i p locks live) (hlocks : locks.Ok)
    (hother : ∀ j, j ≠ i → locks.client j = srv.locks.client j)
    (hphase : PhaseOk (locks.client i) p) : CommitsOk srv' := by
  constructor
  · rw [hsets.locks]
    exact hlocks
  · intro j
    rw [hsets.locks]
    by_cases hj : j = i
    · subst j
      rw [hsets.self]
      exact hphase
    · rw [hsets.other hj, hother j hj]
      exact h.phase j

theorem Transition.commitsOk (htransition : Transition srv srv' i) (h : CommitsOk srv) :
    CommitsOk srv' := by
  have hphase := h.phase i
  cases htransition with
  | opened kind hidle hsets =>
    rw [hidle] at hphase
    exact h.sets hsets h.locks (fun _ _ => rfl) hphase
  | ran kind executed x x' hrunning hmore hsets =>
    rw [hrunning] at hphase
    exact h.sets hsets h.locks (fun _ _ => rfl) hphase
  | closed hsets =>
    apply h.sets hsets (h.locks.release i)
    · exact fun j hj => KeyedLocks.release_of_ne _ hj
    · exact KeyedLocks.release_self ..
  | unchecked kind executed x hrunning hkeys hchecks hsets =>
    rw [hrunning] at hphase
    apply h.sets hsets h.locks (fun _ _ => rfl)
    constructor
    · rw [hphase]
      exact Client.idle_served
    · simp [lockKeys, hkeys, hchecks]
  | requested kind executed x hrunning hsets =>
    rw [hrunning] at hphase
    apply h.sets hsets (h.locks.request i _)
    · exact fun j hj => KeyedLocks.request_of_ne _ _ hj
    · intro k hk
      rw [KeyedLocks.request_self _ _ hphase]
      exact KeyedLocks.mem_lockOrder.mpr hk
  | looked x hlocking hsets =>
    rw [hlocking] at hphase
    apply h.sets hsets (h.locks.lookup ..)
    · exact fun j hj => KeyedLocks.lookup_of_ne _ _ hj
    · intro k hk
      rw [KeyedLocks.keys_lookup]
      exact hphase k hk
  | granted x hlocking hsets =>
    rw [hlocking] at hphase
    apply h.sets hsets (h.locks.grant i)
    · exact fun j hj => KeyedLocks.grant_of_ne _ hj
    · intro k hk
      rw [KeyedLocks.keys_grant]
      exact hphase k hk
  | verified x hlocking hserved hsets =>
    rw [hlocking] at hphase
    exact h.sets hsets h.locks (fun _ _ => rfl) ⟨hserved, hphase⟩
  | keyChecked x k keys checks hchecking hfree hsets
  | valueChecked x check checks hchecking hfree hsets =>
    rw [hchecking] at hphase
    exact h.sets hsets h.locks (fun _ _ => rfl) hphase
  | wrote x hchecking hsets =>
    rw [hchecking] at hphase
    exact h.sets hsets h.locks (fun _ _ => rfl) hphase.1

theorem CommitsOk.step (h : CommitsOk srv) (e : CommitEvent ι G) : CommitsOk (srv.step e) := by
  rcases srv.step_cases e with hsame | htransition
  · rw [hsame]
    exact h
  · exact htransition.commitsOk h

omit [Fintype ι] in
theorem commitsOk_quiet (c : Conn G) : CommitsOk (quiet c : Commits ι G) :=
  ⟨KeyedLocks.ok_empty, fun _ => rfl⟩

theorem CommitsOk.before (h : CommitsOk srv) (events : ℕ → CommitEvent ι G) (n : ℕ) :
    CommitsOk (srv.before events n) := by
  induction n with
  | zero => exact h
  | succ n ih => exact ih.step (events n)

/-- The connection is checking for the commit of `x`. -/
def Checking (srv : Commits ι G) (i : ι) (x : Txn G) : Prop :=
  ∃ keys checks, srv.phase i = .checking x keys checks

omit [Fintype ι] in
theorem CommitsOk.eq_of_checking (h : CommitsOk srv) {x y : Txn G} (hi : Checking srv i x)
    (hj : Checking srv j y) {k : List UInt8} (hx : k ∈ lockKeys x) (hy : k ∈ lockKeys y) :
    i = j := by
  obtain ⟨_, _, hi⟩ := hi
  obtain ⟨_, _, hj⟩ := hj
  have hpi := h.phase i
  have hpj := h.phase j
  rw [hi] at hpi
  rw [hj] at hpj
  obtain ⟨id, hid⟩ := hpi.1.mem_held (hpi.2 k hx)
  obtain ⟨id', hid'⟩ := hpj.1.mem_held (hpj.2 k hy)
  exact h.locks.unique hid hid'

variable {events : ℕ → CommitEvent ι G} {n : ℕ}

/-- The committed store satisfied `P` at a step from which on the connection has
been checking. -/
def Since (srv : Commits ι G) (events : ℕ → CommitEvent ι G) (n : ℕ) (i : ι) (x : Txn G)
    (P : Store G → Prop) : Prop :=
  ∃ l ≤ n, P (srv.before events l).live ∧
    ∀ l', l ≤ l' → l' ≤ n → Checking (srv.before events l') i x

theorem Since.succ {x : Txn G} {P : Store G → Prop} (h : Since srv events n i x P)
    (hchecking : Checking (srv.before events (n + 1)) i x) : Since srv events (n + 1) i x P := by
  obtain ⟨l, hl, hP, hall⟩ := h
  refine ⟨l, by omega, hP, ?_⟩
  intro l' hle hle'
  rcases Nat.lt_or_ge n l' with hlt | hge
  · obtain rfl : l' = n + 1 := by omega
    exact hchecking
  · exact hall l' hle hge

theorem Since.now {x : Txn G} {P : Store G → Prop} (hP : P (srv.before events n).live)
    (hbefore : Checking (srv.before events n) i x)
    (hafter : Checking (srv.before events (n + 1)) i x) : Since srv events (n + 1) i x P := by
  refine ⟨n, by omega, hP, ?_⟩
  intro l' hle hle'
  rcases Nat.lt_or_ge n l' with hlt | hge
  · obtain rfl : l' = n + 1 := by omega
    exact hafter
  · obtain rfl : l' = n := by omega
    exact hbefore

/-- The checks of `x` but `keys` and `checks` have been made. -/
structure Checked (srv : Commits ι G) (events : ℕ → CommitEvent ι G) (n : ℕ) (i : ι) (x : Txn G)
    (keys : List StorageKey) (checks : List (UniqueIndexCheck G)) : Prop where
  keys : ∀ k ∈ x.uniqueChecks, k ∈ keys ∨ Since srv events n i x fun s => s.get k = none
  checks : ∀ ch ∈ x.uniqueIndexChecks,
    ch ∈ checks ∨ Since srv events n i x fun s => violates s ch = false

theorem Checked.succ {x : Txn G} {keys : List StorageKey} {checks : List (UniqueIndexCheck G)}
    (h : Checked srv events n i x keys checks)
    (hchecking : Checking (srv.before events (n + 1)) i x) :
    Checked srv events (n + 1) i x keys checks :=
  ⟨fun k hk => (h.keys k hk).imp_right fun hs => hs.succ hchecking,
    fun ch hch => (h.checks ch hch).imp_right fun hs => hs.succ hchecking⟩

theorem Transition.checked (htransition : Transition (srv.before events n)
    (srv.before events (n + 1)) i)
    (ih : ∀ x keys checks, (srv.before events n).phase i = .checking x keys checks →
      Checked srv events n i x keys checks)
    {x : Txn G} {keys : List StorageKey} {checks : List (UniqueIndexCheck G)}
    (hphase : (srv.before events (n + 1)).phase i = .checking x keys checks) :
    Checked srv events (n + 1) i x keys checks := by
  have hafter : Checking (srv.before events (n + 1)) i x := ⟨keys, checks, hphase⟩
  cases htransition with
  | opened kind hidle hsets | ran kind executed x0 x' hrunning hmore hsets | closed hsets
  | requested kind executed x0 hrunning hsets | looked x0 hlocking hsets | granted x0 hlocking hsets
  | wrote x0 hchecking hsets => cases hsets.self.symm.trans hphase
  | unchecked kind executed x0 hrunning hkeys hchecks hsets =>
    cases hsets.self.symm.trans hphase
    exact ⟨by simp [hkeys], by simp [hchecks]⟩
  | verified x0 hlocking hserved hsets =>
    cases hsets.self.symm.trans hphase
    exact ⟨fun _ => Or.inl, fun _ => Or.inl⟩
  | keyChecked x0 k keys0 checks0 hchecking hfree hsets =>
    cases hsets.self.symm.trans hphase
    have hold := ih x (k :: keys) checks hchecking
    constructor
    · intro k' hk'
      rcases hold.keys k' hk' with hmem | hsince
      · rcases List.mem_cons.mp hmem with rfl | hmem
        · exact Or.inr (Since.now hfree ⟨_, _, hchecking⟩ hafter)
        · exact Or.inl hmem
      · exact Or.inr (hsince.succ hafter)
    · exact (hold.succ hafter).checks
  | valueChecked x0 check checks0 hchecking hfree hsets =>
    cases hsets.self.symm.trans hphase
    have hold := ih x [] (check :: checks) hchecking
    constructor
    · exact (hold.succ hafter).keys
    · intro ch hch
      rcases hold.checks ch hch with hmem | hsince
      · rcases List.mem_cons.mp hmem with rfl | hmem
        · exact Or.inr (Since.now hfree ⟨_, _, hchecking⟩ hafter)
        · exact Or.inl hmem
      · exact Or.inr (hsince.succ hafter)

theorem checked (c : Conn G) (events : ℕ → CommitEvent ι G) (n : ℕ) {x : Txn G}
    {keys : List StorageKey} {checks : List (UniqueIndexCheck G)}
    (hphase : ((quiet c).before events n).phase i = .checking x keys checks) :
    Checked (quiet c) events n i x keys checks := by
  induction n generalizing x keys checks with
  | zero => cases hphase
  | succ n ih =>
    have hafter : Checking ((quiet c).before events (n + 1)) i x := ⟨keys, checks, hphase⟩
    have hsame : ((quiet c).before events (n + 1)).phase i = ((quiet c).before events n).phase i →
        Checked (quiet c) events (n + 1) i x keys checks :=
      fun heq => (ih (heq.symm.trans hphase)).succ hafter
    rcases ((quiet c).before events n).step_cases (events n) with hstep | htransition
    · exact hsame (congrArg (fun srv => srv.phase i) hstep)
    · by_cases hi : i = (events n).conn
      · rw [← hi] at htransition
        exact htransition.checked (fun _ _ _ => ih) hphase
      · exact hsame (htransition.other hi)

/-- Step `n` writes the batch of connection `i`. -/
structure Writes (srv : Commits ι G) (events : ℕ → CommitEvent ι G) (n : ℕ) (i : ι) (x : Txn G) :
    Prop where
  ready : (srv.before events n).phase i = .checking x [] []
  written : (srv.before events (n + 1)).phase i = .written

theorem Writes.checking {x : Txn G} (h : Writes srv events n i x) :
    Checking (srv.before events n) i x := ⟨[], [], h.ready⟩

theorem exists_writes (h : (srv.before events (n + 1)).live ≠ (srv.before events n).live) :
    ∃ i x, Writes srv events n i x := by
  rcases (srv.before events n).step_cases (events n) with hsame | htransition
  · exact absurd (congrArg Commits.live hsame) h
  · cases htransition with
    | opened _ _ hsets | ran _ _ _ _ _ _ hsets | closed hsets | unchecked _ _ _ _ _ _ hsets
    | requested _ _ _ _ hsets | looked _ _ hsets | granted _ _ hsets | verified _ _ _ hsets
    | keyChecked _ _ _ _ _ _ hsets | valueChecked _ _ _ _ _ hsets => exact absurd hsets.live h
    | wrote x hphase hsets => exact ⟨(events n).conn, x, hphase, hsets.self⟩

/-- What a commit has checked under a lock has been so since another commit wrote
its batch under that lock. -/
theorem Since.after {x y : Txn G} {m : ℕ} {P : Store G → Prop} (hok : CommitsOk srv)
    (hsince : Since srv events n j y P) (hwrites : Writes srv events m i x) (hmn : m < n)
    {k : List UInt8} (hx : k ∈ lockKeys x) (hy : k ∈ lockKeys y) :
    ∃ l, m < l ∧ l ≤ n ∧ P (srv.before events l).live := by
  obtain ⟨l, hl, hP, hall⟩ := hsince
  refine ⟨l, ?_, hl, hP⟩
  by_contra hle
  have hboth := hall m (by omega) (by omega)
  obtain rfl : i = j := (hok.before events m).eq_of_checking hwrites.checking hboth hx hy
  obtain ⟨_, _, hstill⟩ := hall (m + 1) (by omega) (by omega)
  cases hwrites.written.symm.trans hstill

/-- A key that is taken again since it was checked is put there by another commit
in between, which has not checked it. -/
theorem Since.overwritten {y : Txn G} {k : StorageKey} (hok : CommitsOk srv)
    (hsince : Since srv events n j y fun s => s.get k = none)
    (htaken : (srv.before events n).live.get k ≠ none) (hy : k ∈ y.uniqueChecks) :
    ∃ m < n, ∃ i x, i ≠ j ∧ Writes srv events m i x ∧ k ∉ x.uniqueChecks ∧
      Checking (srv.before events m) j y ∧ (srv.before events m).live.get k = none ∧
      (srv.before events (m + 1)).live.get k ≠ none := by
  obtain ⟨l, hl, hnone, hall⟩ := hsince
  -- the last step at which the key was free
  obtain ⟨m, hm, hfree, hput⟩ : ∃ m, (l ≤ m ∧ m < n) ∧ (srv.before events m).live.get k = none ∧
      (srv.before events (m + 1)).live.get k ≠ none := by
    by_contra hno
    have hstays : ∀ m, l ≤ m → m ≤ n → (srv.before events m).live.get k = none := by
      intro m hlm
      induction m, hlm using Nat.le_induction with
      | base => exact fun _ => hnone
      | succ m hlm ih =>
        intro hmn
        by_contra hne
        exact hno ⟨m, ⟨hlm, hmn⟩, ih (by omega), hne⟩
    exact htaken (hstays n hl le_rfl)
  have hchecking := hall m hm.1 (by omega)
  have hchanged : (srv.before events (m + 1)).live ≠ (srv.before events m).live := by
    intro hsame
    rw [hsame] at hput
    exact hput hfree
  obtain ⟨i, x, hwrites⟩ := exists_writes hchanged
  have hne : i ≠ j := by
    rintro rfl
    obtain ⟨_, _, hstill⟩ := hall (m + 1) (by omega) (by omega)
    cases hwrites.written.symm.trans hstill
  refine ⟨m, hm.2, i, x, hne, hwrites, ?_, hchecking, hfree, hput⟩
  intro hx
  apply hne
  apply (hok.before events m).eq_of_checking hwrites.checking hchecking (k := k.encode)
  · exact List.mem_append_left _ (List.mem_map_of_mem hx)
  · exact List.mem_append_left _ (List.mem_map_of_mem hy)

end Commits
end BlueDB.Sql
