import BlueDB.Ha.Backends
import BlueDB.Lib.Plays

/-!
# The writer controllers

Each node has a controller with a role, the epoch and the expiry of its last
grant. Promotion, renewal and demotion read the node's clock or its stored epoch,
then call the lease store, then update the role; other nodes and the other task of
the same node take steps in between. A store that compares versions is read first
and replaced only when no other write came between.
-/

namespace BlueDB.Ha

inductive Role
  | active
  | passive
deriving DecidableEq, Repr

structure State where
  role : Role
  epoch : Option ℕ
  expires : ℤ
deriving DecidableEq, Repr

namespace State

def passive : State := ⟨.passive, none, 0⟩

def setActive (lease : Lease) : State := ⟨.active, some lease.epoch, lease.expires⟩

def storedActiveEpoch (s : State) : Option ℕ :=
  match s.role with
  | .active => s.epoch
  | .passive => none

end State

/-- A call to the lease store, with what was read before it. -/
inductive Request
  | acquire (now : ℤ)
  | renew (epoch : ℕ) (now : ℤ)
  | release (epoch : ℕ)
deriving DecidableEq, Repr

namespace Request

def isRelease : Request → Bool
  | .release _ => true
  | _ => false

/-- The time a call carries. -/
def now? : Request → Option ℤ
  | .acquire now => some now
  | .renew _ now => some now
  | .release _ => none

/-- The epoch a call is about. -/
def epoch? : Request → Option ℕ
  | .acquire _ => none
  | .renew epoch _ => some epoch
  | .release epoch => some epoch

end Request

/-- What a call answers, whether it writes, and the store after it. -/
structure Outcome (σ : Type) where
  grant : Option Lease
  wrote : Bool
  store : σ

/-- How far an operation of a controller has come. -/
inductive Stage (σ : Type)
  | idle
  /-- `renew_once` has read the stored epoch. -/
  | renewing (epoch : ℕ)
  | asking (r : Request)
  /-- The store was read at a version and its replacement prepared. -/
  | fetched (r : Request) (version : ℕ) (o : Outcome σ)
  /-- The store granted a lease and `set_active` comes next. -/
  | granted (lease : Lease)
  /-- The store denied a renewal and `set_passive` comes next. -/
  | lost
  /-- A demotion needs nothing more from the store and `set_passive` comes next. -/
  | leaving

/-- A node runs promotions and demotions in one task and renewals in another. -/
inductive Task
  | control
  | renewal
deriving DecidableEq, Repr

structure Node (σ : Type) where
  state : State
  clock : ℕ
  stage : Task → Stage σ
  /-- The epoch of the lease that the store ended for a demotion, if the node has been neither
  passive nor promoted since. -/
  released : Option ℕ
  /-- A demotion has returned, and no promotion has succeeded since. -/
  demoted : Bool

structure World (σ : Type) where
  store : σ
  /-- Counts the writes. -/
  version : ℕ
  nodes : String → Node σ
  /-- The grants the store has given, the last one first. -/
  grants : List Lease
  /-- Those of them that changed hands: none was live when they were given. -/
  handOffs : List Lease

inductive Event
  | tick (n : String) (t : ℕ)
  | promote (n : String)
  | demote (n : String)
  | renewal (n : String)
  | readClock (n : String)
  | store (n : String) (t : Task)
  | fetch (n : String) (t : Task)
  | replace (n : String) (t : Task)
  | finish (n : String) (t : Task)
  | fail (n : String) (t : Task)
deriving DecidableEq, Repr

def Event.node : Event → String
  | .tick n _ | .promote n | .demote n | .renewal n | .readClock n => n
  | .store n _ | .fetch n _ | .replace n _ | .finish n _ | .fail n _ => n

structure Config where
  ttl : String → Duration
  safetyMargin : String → Duration

def Config.margin (c : Config) (n : String) : ℤ := asI64 (c.safetyMargin n).asMillis

namespace Node

variable {σ : Type}

def start (clock : ℕ) : Node σ := ⟨.passive, clock, fun _ => .idle, none, false⟩

def setStage (x : Node σ) (t : Task) (s : Stage σ) : Node σ :=
  { x with stage := Function.update x.stage t s }

/-- The lease a node takes for its own. -/
def cached (n : String) (x : Node σ) : Option Lease :=
  x.state.storedActiveEpoch.map fun epoch => ⟨n, epoch, x.state.expires⟩

def isActive (c : Config) (n : String) (x : Node σ) : Prop :=
  x.state.role = .active ∧ (x.clock : ℤ) < x.state.expires - c.margin n

instance (c : Config) (n : String) (x : Node σ) : Decidable (x.isActive c n) :=
  inferInstanceAs (Decidable (_ ∧ _))

/-- The local update at the end of an operation; only `promote` ends with a grant in `control`. -/
def finish (x : Node σ) (t : Task) : Option (Node σ) :=
  match x.stage t with
  | .granted lease =>
    match t with
    | .control => some { x.setStage t .idle with
        state := .setActive lease, released := none, demoted := false }
    | .renewal => some { x.setStage t .idle with state := .setActive lease }
  | .lost => some { x.setStage t .idle with state := .passive, released := none }
  | .leaving => some { x.setStage t .idle with
      state := .passive, released := none, demoted := true }
  | _ => none

end Node

section Step

variable {σ : Type} (P : LeaseProvider σ) (c : Config)

/-- A call on the contents of the store. -/
def LeaseProvider.ask (s : σ) (n : String) (ttl : Duration) : Request → Option (Outcome σ)
  | .acquire now => (P.tryAcquire s n ttl now).map fun x => ⟨x.1, x.1.isSome, x.2⟩
  | .renew epoch now => (P.renew s n epoch ttl now).map fun x => ⟨x.1, x.1.isSome, x.2⟩
  | .release epoch => (P.release s n epoch).map fun x => ⟨none, x.1, x.2⟩

/-- What follows the answer of the store; a promotion that is denied just fails. -/
def Request.next {σ : Type} (r : Request) (grant : Option Lease) : Stage σ :=
  match r, grant with
  | .acquire _, some lease => .granted lease
  | .acquire _, none => .idle
  | .renew _ _, some lease => .granted lease
  | .renew _ _, none => .lost
  | .release _, _ => .leaving

namespace World

def setNode (w : World σ) (n : String) (x : Node σ) : World σ :=
  { w with nodes := Function.update w.nodes n x }

def setStage (w : World σ) (n : String) (t : Task) (s : Stage σ) : World σ :=
  w.setNode n ((w.nodes n).setStage t s)

/-- An acquisition that found no live lease. -/
def handsOff (w : World σ) : Request → Bool
  | .acquire now => (P.current w.store now).isNone
  | _ => false

/-- The store takes a call's outcome and the caller gets its answer. -/
def answered (w : World σ) (n : String) (t : Task) (r : Request) (o : Outcome σ) : World σ where
  store := if o.wrote then o.store else w.store
  version := if o.wrote then w.version + 1 else w.version
  nodes := Function.update w.nodes n
    { (w.nodes n).setStage t (r.next o.grant) with
      released := if r.isRelease && o.wrote then r.epoch? else (w.nodes n).released }
  grants := o.grant.toList ++ w.grants
  handOffs := (if w.handsOff P r then o.grant.toList else []) ++ w.handOffs

/-- One step of a node; a call that fails ends its operation. -/
def step (w : World σ) : Event → Option (World σ)
  | .tick n t =>
    if (w.nodes n).clock ≤ t then some (w.setNode n { w.nodes n with clock := t }) else none
  | .promote n =>
    match (w.nodes n).stage .control with
    | .idle => some (w.setStage n .control (.asking (.acquire (w.nodes n).clock)))
    | _ => none
  | .demote n =>
    match (w.nodes n).stage .control with
    | .idle =>
      match (w.nodes n).state.storedActiveEpoch with
      | some epoch => some (w.setStage n .control (.asking (.release epoch)))
      | none => some (w.setStage n .control .leaving)
    | _ => none
  | .renewal n =>
    match (w.nodes n).stage .renewal, (w.nodes n).state.storedActiveEpoch with
    | .idle, some epoch => some (w.setStage n .renewal (.renewing epoch))
    | _, _ => none
  | .readClock n =>
    match (w.nodes n).stage .renewal with
    | .renewing epoch => some (w.setStage n .renewal (.asking (.renew epoch (w.nodes n).clock)))
    | _ => none
  | .store n t =>
    match (w.nodes n).stage t with
    | .asking r =>
      match P.ask w.store n (c.ttl n) r with
      | some o => some (w.answered P n t r o)
      | none => some (w.setStage n t .idle)
    | _ => none
  | .fetch n t =>
    match (w.nodes n).stage t with
    | .asking r =>
      match P.ask w.store n (c.ttl n) r with
      | some o =>
        if o.wrote then some (w.setStage n t (.fetched r w.version o))
        else some (w.answered P n t r o)
      | none => some (w.setStage n t .idle)
    | _ => none
  | .replace n t =>
    match (w.nodes n).stage t with
    | .fetched r version o =>
      if version = w.version then some (w.answered P n t r o)
      else some (w.setStage n t (.asking r))
    | _ => none
  | .finish n t => ((w.nodes n).finish t).map (w.setNode n)
  | .fail n t =>
    match (w.nodes n).stage t with
    | .idle => none
    | _ => some (w.setStage n t .idle)

/-- Nodes that are all passive, over a store no lease was ever taken from. -/
def start (clocks : String → ℕ) : World σ :=
  ⟨P.fresh, 0, fun n => .start (clocks n), [], []⟩

def Next (allowed : World σ → Event → Prop) (w w' : World σ) : Prop :=
  ∃ e, allowed w e ∧ w.step P c e = some w'

/-- A state that a run of allowed steps reaches. -/
def Reached (allowed : World σ → Event → Prop) (w : World σ) : Prop :=
  ∃ clocks, Relation.ReflTransGen (Next P c allowed) (start P clocks) w

end World

end Step

end BlueDB.Ha
