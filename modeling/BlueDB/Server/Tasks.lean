import BlueDB.Server.Promotion

/-!
# Background tasks

A promotion that has bound the writer goes on to start the seal scheduler, the expiry
sweep and the search compaction, and to open a lakehouse manager with two loops of its
own. A demotion stops them all before it binds a reader. The other ways in which a node
ceases to be the writer leave them running.
-/

namespace BlueDB.Server

inductive Kind
  | sealScheduler
  | ttlSweep
  | searchCompaction
  | sealLoop
  | compactionLoop
deriving DecidableEq, Repr

/-- A spawned task. -/
structure Task where
  kind : Kind
  id : ℕ
deriving DecidableEq, Repr

structure LakehouseManager where
  sealLoop : ℕ
  compactionLoop : ℕ
deriving DecidableEq, Repr

/-- The tasks that run, and the handles by which they are stopped. -/
structure Workers where
  spawned : ℕ
  running : List Task
  sealHandle : Option ℕ
  ttlSweepHandle : Option ℕ
  searchCompactionHandle : Option ℕ
  lakehouse : Option LakehouseManager
deriving DecidableEq, Repr

namespace Workers

def fresh : Workers := ⟨0, [], none, none, none, none⟩

def spawn (w : Workers) (k : Kind) : ℕ × Workers :=
  (w.spawned, { w with spawned := w.spawned + 1, running := ⟨k, w.spawned⟩ :: w.running })

def abort (w : Workers) (k : Kind) (handle : Option ℕ) : Workers :=
  { w with running := w.running.filter fun t => t.kind ≠ k ∨ handle ≠ some t.id }

def stopSealScheduler (w : Workers) : Workers :=
  { w.abort .sealScheduler w.sealHandle with sealHandle := none }

def stopTtlSweep (w : Workers) : Workers :=
  { w.abort .ttlSweep w.ttlSweepHandle with ttlSweepHandle := none }

def stopSearchCompaction (w : Workers) : Workers :=
  { w.abort .searchCompaction w.searchCompactionHandle with searchCompactionHandle := none }

/-- Takes the lakehouse manager and shuts it down. -/
def stopLakehouse (w : Workers) : Workers :=
  { (w.abort .sealLoop (w.lakehouse.map LakehouseManager.sealLoop)).abort .compactionLoop
      (w.lakehouse.map LakehouseManager.compactionLoop) with lakehouse := none }

/-- What a demotion stops. -/
def stop (w : Workers) : Workers :=
  w.stopSealScheduler.stopTtlSweep.stopSearchCompaction.stopLakehouse

def startSealScheduler (w : Workers) : Workers :=
  let x := w.stopSealScheduler.spawn .sealScheduler
  { x.2 with sealHandle := some x.1 }

def startTtlSweep (w : Workers) : Workers :=
  let x := w.stopTtlSweep.spawn .ttlSweep
  { x.2 with ttlSweepHandle := some x.1 }

def startSearchCompaction (w : Workers) : Workers :=
  let x := w.stopSearchCompaction.spawn .searchCompaction
  { x.2 with searchCompactionHandle := some x.1 }

/-- `LakehouseManager::open` over a slot that is empty. -/
def openLakehouse (w : Workers) : Workers :=
  let x := w.spawn .sealLoop
  let y := x.2.spawn .compactionLoop
  { y.2 with lakehouse := some ⟨x.1, y.1⟩ }

/-- What a promotion does between reopening the search engine and opening the lakehouse. -/
def start (w : Workers) : Workers :=
  w.startSealScheduler.startTtlSweep.startSearchCompaction.stopLakehouse

/-- No task runs, and no lakehouse manager is bound. -/
def Idle (w : Workers) : Prop := w.running = [] ∧ w.lakehouse = none

instance (w : Workers) : Decidable w.Idle := inferInstanceAs (Decidable (_ ∧ _))

def handles (w : Workers) : Kind → Option ℕ
  | .sealScheduler => w.sealHandle
  | .ttlSweep => w.ttlSweepHandle
  | .searchCompaction => w.searchCompactionHandle
  | .sealLoop => w.lakehouse.map LakehouseManager.sealLoop
  | .compactionLoop => w.lakehouse.map LakehouseManager.compactionLoop

structure Held (running : List Task) (handles : Kind → Option ℕ) : Prop where
  mem_running : ∀ t : Task, t ∈ running ↔ handles t.kind = some t.id
  nodup : running.Nodup

namespace Held

variable {running : List Task} {handles : Kind → Option ℕ}

theorem kinds_nodup (h : Held running handles) : (running.map Task.kind).Nodup := by
  apply h.nodup.map_on
  intro t ht u hu hkind
  have htu : some t.id = some u.id := by
    rw [← (h.mem_running t).mp ht, ← (h.mem_running u).mp hu, hkind]
  cases t
  cases u
  cases hkind
  cases htu
  rfl

theorem abort (h : Held running handles) (k : Kind) :
    Held (running.filter fun t => t.kind ≠ k ∨ handles k ≠ some t.id)
      (Function.update handles k none) where
  mem_running := by
    intro t
    rw [List.mem_filter, h.mem_running, decide_eq_true_iff]
    by_cases hk : t.kind = k
    · subst hk
      rw [Function.update_self]
      constructor
      · rintro ⟨heq, hne | hne⟩
        · exact absurd rfl hne
        · exact absurd heq hne
      · intro hfalse
        cases hfalse
    · rw [Function.update_of_ne hk]
      exact ⟨fun ht => ht.1, fun ht => ⟨ht, .inl hk⟩⟩
  nodup := h.nodup.filter _

theorem spawn (h : Held running handles) {k : Kind} (hempty : handles k = none) (i : ℕ) :
    Held (⟨k, i⟩ :: running) (Function.update handles k (some i)) where
  mem_running := by
    intro t
    rw [List.mem_cons, h.mem_running]
    by_cases hk : t.kind = k
    · subst hk
      rw [Function.update_self, hempty]
      constructor
      · rintro (heq | hfalse)
        · exact congrArg (fun t => some t.id) heq.symm
        · cases hfalse
      · intro heq
        cases t
        cases heq
        exact .inl rfl
    · rw [Function.update_of_ne hk]
      constructor
      · rintro (heq | ht)
        · exact absurd (congrArg Task.kind heq) hk
        · exact ht
      · exact .inr
  nodup := by
    refine List.nodup_cons.mpr ⟨?_, h.nodup⟩
    rw [h.mem_running, hempty]
    intro hfalse
    cases hfalse

end Held

/-- The tasks that run are those of the handles. -/
def Settled (w : Workers) : Prop := Held w.running w.handles

theorem settled_fresh : fresh.Settled where
  mem_running := fun t => by cases t with | mk k i => cases k <;> simp [fresh, handles]
  nodup := .nil

variable {w : Workers}

theorem Held.of_handles {running : List Task} {handles handles' : Kind → Option ℕ}
    (h : Held running handles) (hsame : ∀ k, handles' k = handles k) : Held running handles' := by
  rw [funext hsame]
  exact h

namespace Settled

theorem stopSealScheduler (h : w.Settled) : w.stopSealScheduler.Settled :=
  (Held.abort h .sealScheduler).of_handles fun k => by cases k <;> rfl

theorem stopTtlSweep (h : w.Settled) : w.stopTtlSweep.Settled :=
  (Held.abort h .ttlSweep).of_handles fun k => by cases k <;> rfl

theorem stopSearchCompaction (h : w.Settled) : w.stopSearchCompaction.Settled :=
  (Held.abort h .searchCompaction).of_handles fun k => by cases k <;> rfl

theorem stopLakehouse (h : w.Settled) : w.stopLakehouse.Settled :=
  ((Held.abort h .sealLoop).abort .compactionLoop).of_handles fun k => by cases k <;> rfl

theorem stop (h : w.Settled) : w.stop.Settled :=
  h.stopSealScheduler.stopTtlSweep.stopSearchCompaction.stopLakehouse

theorem startSealScheduler (h : w.Settled) : w.startSealScheduler.Settled :=
  (Held.spawn h.stopSealScheduler (k := .sealScheduler) rfl _).of_handles fun k => by
    cases k <;> rfl

theorem startTtlSweep (h : w.Settled) : w.startTtlSweep.Settled :=
  (Held.spawn h.stopTtlSweep (k := .ttlSweep) rfl _).of_handles fun k => by cases k <;> rfl

theorem startSearchCompaction (h : w.Settled) : w.startSearchCompaction.Settled :=
  (Held.spawn h.stopSearchCompaction (k := .searchCompaction) rfl _).of_handles fun k => by
    cases k <;> rfl

theorem start (h : w.Settled) : w.start.Settled :=
  h.startSealScheduler.startTtlSweep.startSearchCompaction.stopLakehouse

theorem openLakehouse (h : w.Settled) (hempty : w.lakehouse = none) : w.openLakehouse.Settled := by
  have hnone : ∀ f : LakehouseManager → ℕ, w.lakehouse.map f = none := by
    intro f
    rw [hempty]
    rfl
  exact ((Held.spawn h (k := .sealLoop) (hnone _) w.spawned).spawn (k := .compactionLoop)
    (hnone _) (w.spawned + 1)).of_handles fun k => by cases k <;> rfl

theorem idle_stop (h : w.Settled) : w.stop.Idle := by
  refine ⟨List.eq_nil_iff_forall_not_mem.mpr ?_, rfl⟩
  intro t ht
  have hhandle := (h.stop.mem_running t).mp ht
  cases t with
  | mk k i => cases k <;> cases hhandle

end Settled

end Workers

/-- How far the part of a promotion has come that follows the binding of the writer. -/
inductive Startup
  | reopening
  | openingLakehouse
deriving DecidableEq, Repr

structure Inner where
  node : AppState
  startup : Startup
  workers : Workers

namespace Inner

variable (site : Site)

def start : Inner := ⟨.start, .reopening, .fresh⟩

/-- A step that neither starts nor stops a task. -/
def onNode (s : Inner) (e : AppState.Event) : Option Inner :=
  (s.node.step site e).map fun node => { s with node := node }

def startupStep (s : Inner) (o : Outcome) : Option Inner :=
  match s.startup, o with
  | .reopening, .ok =>
    some { s with startup := .openingLakehouse, workers := s.workers.start }
  | .openingLakehouse, .ok =>
    (s.node.step site (.promotion .ok)).map fun node =>
      ⟨node, .reopening, s.workers.openLakehouse⟩
  | _, _ => (s.node.step site (.promotion o)).map fun node => ⟨node, .reopening, s.workers⟩

def step (s : Inner) : AppState.Event → Option Inner
  | .promotion o =>
    if s.node.promotion = some .bound then s.startupStep site o else s.onNode site (.promotion o)
  | .job i o =>
    (s.onNode site (.job i o)).map fun t =>
      if s.node.jobs i = .tearingDown then { t with workers := s.workers.stop } else t
  | e => s.onNode site e

def Next (allowed : Inner → AppState.Event → Prop) (s s' : Inner) : Prop :=
  ∃ e, allowed s e ∧ s.step site e = some s'

def Reached (allowed : Inner → AppState.Event → Prop) (s : Inner) : Prop :=
  Relation.ReflTransGen (Next site allowed) start s

end Inner

end BlueDB.Server
