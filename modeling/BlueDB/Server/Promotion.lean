import BlueDB.Ha.Controller

/-!
# Becoming the writer

A node that takes the lease opens a writer handle on the database, checks that it
still has the lease, puts the handle in its slot and then says that a writer is
bound. Demotions, ticks of the control loop and the binding of a reader take their
own steps in between, time passes, and other nodes take the lease and open writer
handles, each of which fences every handle opened before.
-/

namespace BlueDB.Server

open BlueDB.Ha

/-- A writer handle: the epoch its opener was granted, its place in the order of the openings, and
the last epoch that had been granted when it was opened. -/
structure Handle where
  epoch : ℕ
  seq : ℕ
  opened : ℕ
deriving DecidableEq, Repr

/-- What the slot of the node is bound to. -/
inductive Database
  | writer (db : Handle)
  | reader
deriving DecidableEq, Repr

/-- The result of a call over the network; a lost one took effect and is an error. -/
inductive Outcome
  | ok
  | failed
  | lost
deriving DecidableEq, Repr

/-- How far a promotion has come. -/
inductive Promotion
  /-- It has the permit. -/
  | entered
  | acquired (epoch : ℕ)
  | opened (epoch : ℕ) (db : Handle)
  | checked (epoch : ℕ) (db : Handle)
  | installed (epoch : ℕ) (db : Handle)
  /-- The writer is bound, and what reopens the engines is still to come. -/
  | bound
  /-- The open failed, and the lease is given back next. -/
  | abandoned
deriving DecidableEq, Repr

/-- How far a demotion, a tick of the control loop or the binding of a reader has come. -/
inductive Job
  | idle
  | flushing
  | releasing
  | tearingDown
  | attaching
  /-- The flag is cleared, and the reader is being built. -/
  | building
  | ticking
  | tickActive
  | tickUnbound
  | tickRenewing
  | tickBoundRenewing
  | tickReleasing
  | tickPromoting
  | ifUnbound
deriving DecidableEq, Repr

structure Site where
  nodeId : String
  ttl : ℕ
  safetyMargin : ℕ
deriving DecidableEq, Repr

/-- A node among others: the time, the lease store, the writer handles opened so far with the
last one first, the epochs under which other nodes are about to open one, and the node itself. -/
structure AppState where
  now : ℕ
  lease : LeaseRegister String
  opens : List Handle
  pending : List ℕ
  writer : State
  db : Option Database
  writerBound : Bool
  promotion : Option Promotion
  /-- The tick that waits for the promotion, if one started it. -/
  waiting : Option ℕ
  jobs : ℕ → Job

namespace AppState

variable (site : Site)

/-- A node that is passive and unbound, over a store no lease was ever taken from. -/
def start : AppState where
  now := 0
  lease := .fresh
  opens := []
  pending := []
  writer := .passive
  db := none
  writerBound := false
  promotion := none
  waiting := none
  jobs := fun _ => .idle

def isActive (s : AppState) : Prop :=
  s.writer.role = .active ∧ (s.now : ℤ) < s.writer.expires - site.safetyMargin

instance (s : AppState) : Decidable (s.isActive site) := inferInstanceAs (Decidable (_ ∧ _))

def isWriter (s : AppState) : Prop := s.isActive site ∧ s.writerBound = true

instance (s : AppState) : Decidable (s.isWriter site) := inferInstanceAs (Decidable (_ ∧ _))

/-- `WriterController::promote`: the state after it, and the lease when it succeeds. -/
def acquireLease (s : AppState) (o : Outcome) : AppState × Option Lease :=
  let x := s.lease.acquire site.nodeId (s.now + site.ttl) s.now
  match o, x.1 with
  | .ok, some lease => ({ s with lease := x.2, writer := .setActive lease }, some lease)
  | .ok, none => ({ s with lease := x.2 }, none)
  | .failed, _ => (s, none)
  | .lost, _ => ({ s with lease := x.2 }, none)

/-- `WriterController::renew_once`: the state after it, and whether it is `Ok(true)`. -/
def renewOnce (s : AppState) (o : Outcome) : AppState × Bool :=
  match s.writer.storedActiveEpoch with
  | none => (s, false)
  | some epoch =>
    let x := s.lease.renew site.nodeId epoch (s.now + site.ttl) s.now
    match o, x.1 with
    | .ok, some lease => ({ s with lease := x.2, writer := .setActive lease }, true)
    | .ok, none => ({ s with lease := x.2, writer := .passive }, false)
    | .failed, _ => (s, false)
    | .lost, _ => ({ s with lease := x.2 }, false)

/-- `WriterController::demote`: the state after it, and whether it is `Ok`. -/
def releaseLease (s : AppState) (o : Outcome) : AppState × Bool :=
  match s.writer.storedActiveEpoch with
  | none => ({ s with writer := .passive }, true)
  | some epoch =>
    let lease := s.lease.release site.nodeId epoch
    match o with
    | .ok => ({ s with lease := lease, writer := .passive }, true)
    | .failed => (s, false)
    | .lost => ({ s with lease := lease }, false)

def openWriter (s : AppState) (epoch : ℕ) : Handle × AppState :=
  let db : Handle := ⟨epoch, s.opens.length, s.lease.last⟩
  (db, { s with opens := db :: s.opens })

def setJob (s : AppState) (i : ℕ) (j : Job) : AppState :=
  { s with jobs := Function.update s.jobs i j }

/-- The permit is given up and the tick that waits goes on. -/
def promotionEnds (s : AppState) (ok : Bool) : AppState :=
  match s.waiting with
  | none => { s with promotion := none }
  | some i =>
    { s.setJob i (if ok then .idle else .ifUnbound) with promotion := none, waiting := none }

def promotionStep (s : AppState) (o : Outcome) : Option AppState :=
  match s.promotion with
  | none => none
  | some .entered =>
    match s.acquireLease site o with
    | (s, some lease) => some { s with promotion := some (.acquired lease.epoch) }
    | (s, none) => some (s.promotionEnds false)
  | some (.acquired epoch) =>
    match o with
    | .ok =>
      let x := s.openWriter epoch
      some { x.2 with promotion := some (.opened epoch x.1) }
    | .failed => some { s with promotion := some .abandoned }
    | .lost => some { (s.openWriter epoch).2 with promotion := some .abandoned }
  | some .abandoned => some ((s.releaseLease site o).1.promotionEnds false)
  | some (.opened epoch db) =>
    if s.isActive site then some { s with promotion := some (.checked epoch db) }
    else some (s.promotionEnds false)
  | some (.checked epoch db) =>
    some { s with db := some (.writer db), promotion := some (.installed epoch db) }
  | some (.installed _ _) => some { s with writerBound := true, promotion := some .bound }
  | some .bound => some (s.promotionEnds (o = .ok))

/-- A step of a demotion, a tick or the binding of a reader. -/
def jobStep (s : AppState) (i : ℕ) (o : Outcome) : Option AppState :=
  match s.jobs i with
  | .idle => none
  | .flushing => some (s.setJob i .releasing)
  | .releasing =>
    match s.releaseLease site o with
    | (s, true) => some (s.setJob i .tearingDown)
    | (s, false) => some (s.setJob i .idle)
  | .tearingDown => some (s.setJob i .attaching)
  | .attaching => some { s.setJob i .building with writerBound := false }
  | .building => some { s.setJob i .idle with db := if o = .ok then some .reader else none }
  | .ticking =>
    if s.isActive site then some (s.setJob i .tickActive)
    else if s.promotion.isNone then
      some { s.setJob i .tickPromoting with promotion := some .entered, waiting := some i }
    else some (s.setJob i .ifUnbound)
  | .tickActive => some (s.setJob i (if s.writerBound then .tickBoundRenewing else .tickUnbound))
  | .tickUnbound =>
    some (s.setJob i (if s.promotion.isSome then .tickRenewing else .tickReleasing))
  | .tickRenewing => some ((s.renewOnce site o).1.setJob i .idle)
  | .tickReleasing => some ((s.releaseLease site o).1.setJob i .ifUnbound)
  | .tickBoundRenewing =>
    match s.renewOnce site o with
    | (s, true) => some (s.setJob i .idle)
    | (s, false) => some (s.setJob i .attaching)
  | .tickPromoting => none
  | .ifUnbound => some (s.setJob i (if s.db.isNone then .attaching else .idle))

inductive Event
  | tick (t : ℕ)
  | promote
  | demote (i : ℕ)
  | haTick (i : ℕ)
  | attachReader (i : ℕ)
  | promotion (o : Outcome)
  | job (i : ℕ) (o : Outcome)
  /-- The renewer that runs beside a promotion. -/
  | renewer (o : Outcome)
  | otherAcquires (m : String) (expires now : ℤ)
  | otherRenews (m : String) (epoch : ℕ) (expires now : ℤ)
  | otherReleases (m : String) (epoch : ℕ)
  /-- Another node opens a writer handle under an epoch it was granted. -/
  | otherOpens (epoch : ℕ)
deriving DecidableEq, Repr

def step (s : AppState) : Event → Option AppState
  | .tick t => if s.now ≤ t then some { s with now := t } else none
  | .promote => if s.promotion.isNone then some { s with promotion := some .entered } else none
  | .demote i => if s.jobs i = .idle then some (s.setJob i .flushing) else none
  | .haTick i => if s.jobs i = .idle then some (s.setJob i .ticking) else none
  | .attachReader i => if s.jobs i = .idle then some (s.setJob i .attaching) else none
  | .promotion o => s.promotionStep site o
  | .job i o => s.jobStep site i o
  | .renewer o => if s.promotion.isSome then some (s.renewOnce site o).1 else none
  | .otherAcquires m expires now =>
    if m = site.nodeId then none
    else
      let x := s.lease.acquire m expires now
      some { s with lease := x.2, pending := (x.1.map Grant.epoch).toList ++ s.pending }
  | .otherRenews m epoch expires now =>
    if m = site.nodeId then none else some { s with lease := (s.lease.renew m epoch expires now).2 }
  | .otherReleases m epoch =>
    if m = site.nodeId then none else some { s with lease := s.lease.release m epoch }
  | .otherOpens epoch =>
    if epoch ∈ s.pending then some (s.openWriter epoch).2 else none

def Next (allowed : AppState → Event → Prop) (s s' : AppState) : Prop :=
  ∃ e, allowed s e ∧ s.step site e = some s'

def Reached (allowed : AppState → Event → Prop) (s : AppState) : Prop :=
  Relation.ReflTransGen (Next site allowed) start s

end AppState

end BlueDB.Server
