import BlueDB.Lib.Changelog
import BlueDB.Lib.Sequencer
import BlueDB.Sql.Writer

/-!
# The writer of a tenant and its mirror

A seal reads the change log of the tenant, publishes the last image of every
changed key table by table, and removes the entries up to the highest number it
has read: it scans the log again for these and deletes them with one batch.
Connections take their steps between those of the seal, which may also stop after
each of them.
-/

namespace BlueDB.Lakehouse

open Sql
open Sql.Overlay (RowChange)
open Changelog (Change)

variable {ι : Type} {G : Engine}

/-- A row of a table by its key. -/
abbrev RowKey (G : Engine) := Name × G.Key

/-- What a mirror shows for each key. -/
abbrev Mirror (G : Engine) := RowKey G → Option (DataRow G.Value)

instance : DecidableEq (RowChange G) := fun c d =>
  decidable_of_iff (c.table = d.table ∧ c.key = d.key ∧ c.row = d.row) (by
    obtain ⟨t, k, row⟩ := c
    obtain ⟨t', k', row'⟩ := d
    simp)

abbrev CdcEntry (G : Engine) := ℕ × RowChange G

def rowKey (p : CdcEntry G) : RowKey G := (p.2.table, p.2.key)

/-- An entry as a numbered change of a row. -/
def rowChange (p : CdcEntry G) : ℕ × Change (RowKey G) (DataRow G.Value) :=
  (p.1, ⟨rowKey p, p.2.row⟩)

def changes (entries : List (CdcEntry G)) : List (Change (RowKey G) (DataRow G.Value)) :=
  (entries.map rowChange).map Prod.snd

/-- The entries with a number above `after`. -/
def scanCdc (log : OrderedMap ℕ (RowChange G)) (after : ℕ) : List (CdcEntry G) :=
  log.entries.filter fun p => after < p.1

/-- The final image of every changed key. -/
def collapseLww (entries : List (CdcEntry G)) : RowKey G → Option (Option (DataRow G.Value)) :=
  entries.foldl (fun out p => Function.update out (rowKey p) (some p.2.row)) fun _ => none

/-- The tables with a change. -/
def tables (entries : List (CdcEntry G)) : List Name := (entries.map fun p => p.2.table).dedup

def watermark (entries : List (CdcEntry G)) : ℕ := (entries.map Prod.fst).foldl max 0

/-- Where a seal stands: it has tables left to publish, or the numbers it deletes. -/
inductive SealPhase (G : Engine)
  | idle
  | publishing (entries : List (CdcEntry G)) (todo : List Name)
  | collected (watermark : ℕ) (numbers : List ℕ)

/-- No step reads the last three: what the seal has published so far, every entry
ever committed, and the watermarks of the seals that have ended. -/
structure Lake (ι : Type) (G : Engine) where
  writer : Writer ι G
  mirror : Mirror G
  phase : SealPhase G
  published : List (CdcEntry G)
  committed : List (CdcEntry G)
  sealed : List ℕ

inductive LakeEvent (ι : Type) (G : Engine)
  | writer (ev : LifeEvent ι G)
  | scan
  | publish (t : Name)
  | collect
  | delete
  | abort

/-- The entries that a step commits. -/
def appended [DecidableEq ι] (srv : Writer ι G) : LifeEvent ι G → List (CdcEntry G)
  | .conn _ (.write i) =>
    match srv.phase i with
    | .committing _ [] stamped => stamped
    | _ => []
  | _ => []

namespace Lake

/-- A writer has opened an empty change log over a mirror. -/
def opened (live : Store G) (now : ℤ) (options : ι → ConnOptions) (mirror : Mirror G) : Lake ι G :=
  ⟨.opened live .empty now options, mirror, .idle, [], [], []⟩

/-- The seal starts, unless the log is empty. -/
def scan (l : Lake ι G) : Lake ι G :=
  match l.phase, scanCdc l.writer.log 0 with
  | .idle, p :: rest =>
    { l with phase := .publishing (p :: rest) (tables (p :: rest)), published := [] }
  | _, _ => l

/-- The collapsed changes of a table go to the mirror. -/
def publish (l : Lake ι G) (t : Name) : Lake ι G :=
  match l.phase with
  | .publishing entries todo =>
    if t ∈ todo then
      { l with
        mirror := fun k =>
          if k.1 = t then (collapseLww entries k).getD (l.mirror k) else l.mirror k
        phase := .publishing entries (todo.filter (· ≠ t))
        published := l.published ++ entries.filter (·.2.table = t) }
    else l
  | _ => l

/-- Once every table is published, the log is scanned up to the watermark. -/
def collect (l : Lake ι G) : Lake ι G :=
  match l.phase with
  | .publishing entries [] =>
    let numbers := (scanCdc l.writer.log 0).filter (·.1 ≤ watermark entries)
    { l with phase := .collected (watermark entries) (numbers.map Prod.fst) }
  | _ => l

def delete (l : Lake ι G) : Lake ι G :=
  match l.phase with
  | .collected w numbers =>
    { l with
      writer := { l.writer with log := l.writer.log.eraseAll numbers }
      phase := .idle
      sealed := l.sealed ++ [w] }
  | _ => l

variable [DecidableEq ι]

/-- A seal that runs stops with its writer. -/
def writerStep (l : Lake ι G) (ev : LifeEvent ι G) : Lake ι G where
  writer := l.writer.lifeStep ev
  mirror := l.mirror
  phase := match ev with
    | .restart => .idle
    | .conn .. => l.phase
  published := l.published
  committed := l.committed ++ appended l.writer ev
  sealed := l.sealed

def step (l : Lake ι G) : LakeEvent ι G → Lake ι G
  | .writer ev => l.writerStep ev
  | .scan => l.scan
  | .publish t => l.publish t
  | .collect => l.collect
  | .delete => l.delete
  | .abort => { l with phase := .idle }

def run (l : Lake ι G) (events : List (LakeEvent ι G)) : Lake ι G := events.foldl step l

theorem run_append (l : Lake ι G) (events events' : List (LakeEvent ι G)) :
    l.run (events ++ events') = (l.run events).run events' := List.foldl_append ..

/-- A seal that nothing comes between, with its tables in some order. -/
def quietSeal (order : List Name) : List (LakeEvent ι G) :=
  .scan :: order.map .publish ++ [.collect, .delete]

end Lake

def SessionPhase.stamped : SessionPhase G → List (CdcEntry G)
  | .committing _ _ stamped => stamped
  | _ => []

/-- The log with what the open commits have taken numbers for. -/
def sequencer (srv : Writer ι G) : Sequencer ι (RowChange G) :=
  ⟨srv.log, srv.cdcSeq, fun i => SessionPhase.stamped (srv.phase i)⟩

theorem held_update [DecidableEq ι] (phase : ι → SessionPhase G) (i : ι) (p : SessionPhase G) :
    (fun j => SessionPhase.stamped (Function.update phase i p j)) =
      Function.update (fun j => SessionPhase.stamped (phase j)) i (SessionPhase.stamped p) := by
  funext j
  by_cases hj : j = i
  · subst j
    simp
  · simp [hj]

theorem sequencer_setPhase [DecidableEq ι] {srv : Writer ι G} {i : ι} {p : SessionPhase G}
    (h : SessionPhase.stamped p = SessionPhase.stamped (srv.phase i)) :
    sequencer (srv.setPhase i p) = sequencer srv := by
  unfold sequencer Writer.setPhase
  rw [held_update, h, Function.update_eq_self]

theorem sequencer_stamp [DecidableEq ι] {srv : Writer ι G} {isEnabled : Name → Bool} {i : ι}
    {x : OpenTxn G} {change : RowChange G} {todo : List (RowChange G)} {stamped : List (CdcEntry G)}
    (hphase : srv.phase i = .committing x (change :: todo) stamped)
    (henabled : isEnabled change.table = true) :
    sequencer (srv.stamp isEnabled i) = (sequencer srv).take i change := by
  have hheld : (sequencer srv).held i = stamped := congrArg SessionPhase.stamped hphase
  unfold Writer.stamp Sequencer.take
  rw [hphase, hheld]
  simp only [henabled, if_true]
  unfold sequencer Writer.setPhase
  rw [held_update]
  rfl

theorem sequencer_writeBatch [DecidableEq ι] {srv : Writer ι G} {i : ι} {x : OpenTxn G}
    {stamped : List (CdcEntry G)} (hphase : srv.phase i = .committing x [] stamped) :
    sequencer (srv.writeBatch i) = (sequencer srv).append i := by
  have hheld : (sequencer srv).held i = stamped := congrArg SessionPhase.stamped hphase
  unfold Writer.writeBatch Sequencer.append
  rw [hphase, hheld]
  unfold sequencer Writer.setPhase
  rw [held_update]
  rfl

def takes (srv : Writer ι G) : LifeEvent ι G → Option (ι × RowChange G)
  | .conn isEnabled (.stamp i) =>
    match srv.phase i with
    | .committing _ (change :: _) _ => if isEnabled change.table then some (i, change) else none
    | _ => none
  | _ => none

section Steps

variable [DecidableEq ι]

theorem sequencer_lifeStep (srv : Writer ι G) (ev : LifeEvent ι G) :
    (sequencer (srv.lifeStep ev) = sequencer srv ∧ appended srv ev = [] ∧ takes srv ev = none ∧
        ev ≠ .restart) ∨
      (∃ i change, sequencer (srv.lifeStep ev) = (sequencer srv).take i change ∧
        appended srv ev = [] ∧ takes srv ev = some (i, change) ∧ ev ≠ .restart) ∨
      (∃ i, sequencer (srv.lifeStep ev) = (sequencer srv).append i ∧
        appended srv ev = (sequencer srv).held i ∧ takes srv ev = none ∧ ev ≠ .restart) ∨
      (sequencer (srv.lifeStep ev) = (sequencer srv).restart ∧ appended srv ev = [] ∧
        takes srv ev = none ∧ ev = .restart) := by
  cases ev with
  | restart => exact Or.inr (Or.inr (Or.inr ⟨rfl, rfl, rfl, rfl⟩))
  | conn isEnabled ev =>
    cases ev with
    | begin i =>
      refine Or.inl ⟨?_, rfl, rfl, nofun⟩
      change sequencer (srv.beginTxn i) = _
      unfold Writer.beginTxn
      split
      case h_1 hphase => exact sequencer_setPhase (by rw [hphase]; rfl)
      case h_2 => rfl
    | exec i stmt =>
      refine Or.inl ⟨?_, rfl, rfl, nofun⟩
      change sequencer (srv.execStmt isEnabled i stmt) = _
      unfold Writer.execStmt
      split
      case h_1 x hphase =>
        apply Eq.trans (b := sequencer (srv.setPhase i (Writer.phaseAfter _))) rfl
        apply sequencer_setPhase
        rw [hphase]
        unfold Writer.phaseAfter
        split <;> rfl
      case h_2 => rfl
    | rollback i =>
      refine Or.inl ⟨?_, rfl, rfl, nofun⟩
      change sequencer (srv.rollback i) = _
      unfold Writer.rollback
      split
      case h_1 x hphase => exact sequencer_setPhase (by rw [hphase]; rfl)
      case h_2 => rfl
    | commit i =>
      refine Or.inl ⟨?_, rfl, rfl, nofun⟩
      change sequencer (srv.startCommit i) = _
      unfold Writer.startCommit
      split
      case h_1 x hphase =>
        split_ifs
        · exact sequencer_setPhase (by rw [hphase]; rfl)
        · split <;> exact sequencer_setPhase (by rw [hphase]; rfl)
      case h_2 => rfl
    | stamp i =>
      cases hphase : srv.phase i with
      | committing x todo stamped =>
        cases todo with
        | nil =>
          refine Or.inl ⟨?_, rfl, by simp [takes, hphase], nofun⟩
          change sequencer (srv.stamp isEnabled i) = _
          simp [Writer.stamp, hphase]
        | cons change todo =>
          by_cases henabled : isEnabled change.table = true
          · refine Or.inr (Or.inl ⟨i, change, sequencer_stamp hphase henabled, rfl, ?_, nofun⟩)
            simp [takes, hphase, henabled]
          · refine Or.inl ⟨?_, rfl, by simp [takes, hphase, henabled], nofun⟩
            change sequencer (srv.stamp isEnabled i) = _
            unfold Writer.stamp
            simp only [hphase, henabled]
            exact sequencer_setPhase (by rw [hphase]; rfl)
      | _ =>
        refine Or.inl ⟨?_, rfl, by simp [takes, hphase], nofun⟩
        change sequencer (srv.stamp isEnabled i) = _
        simp [Writer.stamp, hphase]
    | write i =>
      by_cases hready : ∃ x stamped, srv.phase i = .committing x [] stamped
      · obtain ⟨x, stamped, hphase⟩ := hready
        refine Or.inr (Or.inr (Or.inl ⟨i, sequencer_writeBatch hphase, ?_, rfl, nofun⟩))
        simp [appended, sequencer, SessionPhase.stamped, hphase]
      · refine Or.inl ⟨?_, ?_, rfl, nofun⟩
        · change sequencer (srv.writeBatch i) = _
          unfold Writer.writeBatch
          split
          case h_1 x stamped hphase => exact absurd ⟨x, stamped, hphase⟩ hready
          case h_2 => rfl
        · unfold appended
          dsimp only
          split
          case h_1 x stamped hphase => exact absurd ⟨x, stamped, hphase⟩ hready
          case h_2 => rfl

/-- The log grows by what the step commits, under numbers of its own. -/
structure Logs (srv srv' : Writer ι G) (added : List (CdcEntry G)) : Prop where
  numbered : (sequencer srv').Numbered
  mem : ∀ p, p ∈ srv'.log.entries ↔ p ∈ srv.log.entries ∨ p ∈ added
  ascending : added.Pairwise fun p q => p.1 < q.1
  fresh : ∀ p ∈ added, ∀ q ∈ srv.log.entries, q.1 ≠ p.1

theorem logs_lifeStep {srv : Writer ι G} (h : (sequencer srv).Numbered) (ev : LifeEvent ι G) :
    Logs srv (srv.lifeStep ev) (appended srv ev) := by
  rcases sequencer_lifeStep srv ev with ⟨hstep, hadded, -⟩ | ⟨i, change, hstep, hadded, -⟩ |
    ⟨i, hstep, hadded, -⟩ | ⟨hstep, hadded, -⟩
  case inr.inr.inl =>
    have hlog : (srv.lifeStep ev).log = ((sequencer srv).append i).log :=
      congrArg Sequencer.log hstep
    rw [hadded]
    refine ⟨hstep ▸ h.append i, fun p => ?_, h.ascending i, h.fresh i⟩
    rw [hlog]
    exact Sequencer.Numbered.mem_log_append h
  all_goals
    have hlog : (srv.lifeStep ev).log = srv.log := congrArg Sequencer.log hstep
    rw [hadded]
    refine ⟨?_, fun p => by simp [hlog], List.Pairwise.nil, nofun⟩
    rw [hstep]
  · exact h
  · exact h.take i change
  · exact h.restart

end Steps

namespace Ints

open Sql.Ints (engine)

/-- A statement of connection `i` up to the batch of its commit, with every table
mirrored. -/
def unwritten (i : Fin 2) (stmt : Stmt engine) : List (LakeEvent (Fin 2) engine) :=
  [.begin i, .exec i stmt, .commit i, .stamp i].map fun ev => .writer (.conn (fun _ => true) ev)

def write (i : Fin 2) : LakeEvent (Fin 2) engine := .writer (.conn (fun _ => true) (.write i))

def fresh : Lake (Fin 2) engine :=
  .opened Kv.empty 0 (fun _ => ⟨false, false, true⟩) fun _ => none

end Ints

end BlueDB.Lakehouse
