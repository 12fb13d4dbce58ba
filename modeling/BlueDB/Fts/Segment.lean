import Mathlib.Tactic

/-!
# The live segment under concurrent calls

Calls that index or tombstone a key take the writer lock, look once more whether a seal
is running, and then write, one shared location at a time. A search commits the writer
and reloads the reader when the dirty flag is set. A seal closes the gate, takes what the
reader shows into the durable tier and clears the segment. Between any two steps of one
of them the others can take theirs.
-/

namespace BlueDB.Fts

/-- A call on the segment. -/
inductive Task (Pk Text : Type) where
  | index (pk : Pk) (text : Text)
  | tombstone (pk : Pk)

namespace Task

variable {Pk Text : Type}

def pk : Task Pk Text → Pk
  | index pk _ => pk
  | tombstone pk => pk

/-- What a search for the key finds after the call. -/
def text : Task Pk Text → Option Text
  | index _ text => some text
  | tombstone _ => none

end Task

/-- A call on its way to the writer lock: it waits for a seal to finish, then for the lock. -/
inductive Caller (Pk Text : Type) where
  | waits (task : Task Pk Text)
  | locks (task : Task Pk Text)

/-- What the call that holds the writer lock does next. -/
inductive WriterStep
  | recheck
  | buffer
  | hide
  | cover
  | mark
  | unlock
  deriving DecidableEq

structure Holder (Tid Pk Text : Type) where
  thread : Tid
  task : Task Pk Text
  next : WriterStep

/-- What a search does after it has found the dirty flag set. -/
inductive Freshening
  | commit
  | reload
  deriving DecidableEq

abbrev Docs (Pk Text : Type) := Pk → Option Text

/-- What the seal that has closed the gate does next. -/
inductive SealStep (Pk Text : Type) where
  | swap
  | commit
  | reload
  | cloneTombs
  | readDocs (tombs : Finset Pk)
  | update (docs : Docs Pk Text) (tombs : Finset Pk)
  | delete (tombs : Finset Pk)
  | wipe
  | reloadEmpty
  | clearTombs
  | clearCovered
  | clearDirty
  | release

/-- The segment with the calls that are under way. The writer holds the buffered
documents too, the reader those of the last reload. The writer lock and the `sealing`
flag stand with what the thread that has taken them does next. The calls that returned
are a history. -/
structure LiveSegment (Tid Pk Text : Type) where
  writer : Docs Pk Text
  committed : Docs Pk Text
  reader : Docs Pk Text
  tombstones : Finset Pk
  covered : Finset Pk
  dirty : Bool
  lock : Option (Holder Tid Pk Text)
  sealing : Option (SealStep Pk Text)
  callers : Tid → Option (Caller Pk Text)
  searches : Tid → Option Freshening
  durable : Docs Pk Text
  returned : List (Task Pk Text)

namespace LiveSegment

variable {Tid Pk Text : Type}

/-- An empty segment over a durable tier. -/
def fresh (durable : Docs Pk Text) : LiveSegment Tid Pk Text where
  writer := fun _ => none
  committed := fun _ => none
  reader := fun _ => none
  tombstones := ∅
  covered := ∅
  dirty := false
  lock := none
  sealing := none
  callers := fun _ => none
  searches := fun _ => none
  durable := durable
  returned := []

variable [DecidableEq Tid] [DecidableEq Pk]

/-- `delete_term` of the key, and `add_document` for an indexed text. -/
def buffered (s : LiveSegment Tid Pk Text) (task : Task Pk Text) : Docs Pk Text :=
  Function.update s.writer task.pk task.text

/-- The documents that the reader shows, without those of the tombstones. -/
def shownDocs (s : LiveSegment Tid Pk Text) (tombs : Finset Pk) : Docs Pk Text :=
  fun pk => if pk ∈ tombs then none else s.reader pk

/-- `FtsIndex::update` of the documents under their keys. -/
def updated (durable docs : Docs Pk Text) : Docs Pk Text := fun pk => (docs pk).or (durable pk)

/-- `FtsIndex::delete` of the keys. -/
def deleted (durable : Docs Pk Text) (tombs : Finset Pk) : Docs Pk Text :=
  fun pk => if pk ∈ tombs then none else durable pk

def setCaller (s : LiveSegment Tid Pk Text) (t : Tid) (c : Option (Caller Pk Text)) :
    LiveSegment Tid Pk Text :=
  { s with callers := Function.update s.callers t c }

def setSearch (s : LiveSegment Tid Pk Text) (t : Tid) (f : Option Freshening) :
    LiveSegment Tid Pk Text :=
  { s with searches := Function.update s.searches t f }

/-- The holder of the lock goes on. -/
def holding (s : LiveSegment Tid Pk Text) (h : Holder Tid Pk Text) (next : WriterStep) :
    LiveSegment Tid Pk Text :=
  { s with lock := some { h with next := next } }

/-- The steps of `index` and `tombstone`, of `ensure_fresh` in a search, and of a seal. -/
inductive Action (Tid Pk Text : Type)
  | call (t : Tid) (task : Task Pk Text)
  | waited (t : Tid) (task : Task Pk Text)
  | lock (t : Tid) (task : Task Pk Text)
  | bounce
  | enter
  | buffer
  | hide
  | cover
  | mark
  | unlock
  | searchSwap (t : Tid)
  | searchCommit (t : Tid)
  | searchReload (t : Tid)
  | claim
  | sealSwap
  | sealCommit
  | sealReload
  | cloneTombs
  | readDocs
  | update
  | delete
  | abort
  | wipe
  | reloadEmpty
  | clearTombs
  | clearCovered
  | clearDirty
  | release

/-- One step of one thread. -/
inductive Step (s : LiveSegment Tid Pk Text) : Action Tid Pk Text → LiveSegment Tid Pk Text → Prop
  | call {t task} (h : s.callers t = none) :
      Step s (.call t task) (s.setCaller t (some (.waits task)))
  | waited {t task} (h : s.callers t = some (.waits task)) (hopen : s.sealing = none) :
      Step s (.waited t task) (s.setCaller t (some (.locks task)))
  | lock {t task} (h : s.callers t = some (.locks task)) (hfree : s.lock = none) :
      Step s (.lock t task) { s.setCaller t none with lock := some ⟨t, task, .recheck⟩ }
  | bounce {h : Holder Tid Pk Text} (hlock : s.lock = some h) (hnext : h.next = .recheck)
      (hsealing : s.sealing.isSome = true) :
      Step s .bounce { s.setCaller h.thread (some (.waits h.task)) with lock := none }
  | enter {h : Holder Tid Pk Text} (hlock : s.lock = some h) (hnext : h.next = .recheck)
      (hopen : s.sealing = none) : Step s .enter (s.holding h .buffer)
  | bufferIndex {h : Holder Tid Pk Text} {pk : Pk} {text : Text} (hlock : s.lock = some h)
      (hnext : h.next = .buffer) (htask : h.task = .index pk text) :
      Step s .buffer { s.holding h .cover with writer := s.buffered h.task }
  | bufferTombstone {h : Holder Tid Pk Text} {pk : Pk} (hlock : s.lock = some h)
      (hnext : h.next = .buffer) (htask : h.task = .tombstone pk) :
      Step s .buffer { s.holding h .hide with writer := s.buffered h.task }
  | hide {h : Holder Tid Pk Text} (hlock : s.lock = some h) (hnext : h.next = .hide) :
      Step s .hide { s.holding h .cover with tombstones := insert h.task.pk s.tombstones }
  | cover {h : Holder Tid Pk Text} (hlock : s.lock = some h) (hnext : h.next = .cover) :
      Step s .cover { s.holding h .mark with covered := insert h.task.pk s.covered }
  | mark {h : Holder Tid Pk Text} (hlock : s.lock = some h) (hnext : h.next = .mark) :
      Step s .mark { s.holding h .unlock with dirty := true }
  | unlock {h : Holder Tid Pk Text} (hlock : s.lock = some h) (hnext : h.next = .unlock) :
      Step s .unlock { s with lock := none, returned := s.returned ++ [h.task] }
  | searchClean {t} (h : s.searches t = none) (hclean : s.dirty = false) :
      Step s (.searchSwap t) s
  | searchSwap {t} (h : s.searches t = none) (hdirty : s.dirty = true) :
      Step s (.searchSwap t) { s.setSearch t (some .commit) with dirty := false }
  | searchCommit {t} (h : s.searches t = some .commit) (hfree : s.lock = none) :
      Step s (.searchCommit t) { s.setSearch t (some .reload) with committed := s.writer }
  | searchReload {t} (h : s.searches t = some .reload) :
      Step s (.searchReload t) { s.setSearch t none with reader := s.committed }
  | claim (h : s.sealing = none) : Step s .claim { s with sealing := some .swap }
  | sealClean (h : s.sealing = some .swap) (hclean : s.dirty = false) :
      Step s .sealSwap { s with sealing := some .cloneTombs }
  | sealSwap (h : s.sealing = some .swap) (hdirty : s.dirty = true) :
      Step s .sealSwap { s with sealing := some .commit, dirty := false }
  | sealCommit (h : s.sealing = some .commit) (hfree : s.lock = none) :
      Step s .sealCommit { s with sealing := some .reload, committed := s.writer }
  | sealReload (h : s.sealing = some .reload) :
      Step s .sealReload { s with sealing := some .cloneTombs, reader := s.committed }
  | cloneTombs (h : s.sealing = some .cloneTombs) :
      Step s .cloneTombs { s with sealing := some (.readDocs s.tombstones) }
  | readDocs {tombs} (h : s.sealing = some (.readDocs tombs)) :
      Step s .readDocs { s with sealing := some (.update (s.shownDocs tombs) tombs) }
  | update {docs tombs} (h : s.sealing = some (.update docs tombs)) :
      Step s .update
        { s with sealing := some (.delete tombs), durable := updated s.durable docs }
  | delete {tombs} (h : s.sealing = some (.delete tombs)) :
      Step s .delete { s with sealing := some .wipe, durable := deleted s.durable tombs }
  -- a durable step that fails may have taken effect
  | abortUpdate {docs tombs} (h : s.sealing = some (.update docs tombs)) :
      Step s .abort { s with sealing := none }
  | abortUpdated {docs tombs} (h : s.sealing = some (.update docs tombs)) :
      Step s .abort { s with sealing := none, durable := updated s.durable docs }
  | abortDelete {tombs} (h : s.sealing = some (.delete tombs)) :
      Step s .abort { s with sealing := none }
  | abortDeleted {tombs} (h : s.sealing = some (.delete tombs)) :
      Step s .abort { s with sealing := none, durable := deleted s.durable tombs }
  | wipe (h : s.sealing = some .wipe) (hfree : s.lock = none) :
      Step s .wipe { s with
        sealing := some .reloadEmpty, writer := fun _ => none, committed := fun _ => none }
  | reloadEmpty (h : s.sealing = some .reloadEmpty) :
      Step s .reloadEmpty { s with sealing := some .clearTombs, reader := s.committed }
  | clearTombs (h : s.sealing = some .clearTombs) :
      Step s .clearTombs { s with sealing := some .clearCovered, tombstones := ∅ }
  | clearCovered (h : s.sealing = some .clearCovered) :
      Step s .clearCovered { s with sealing := some .clearDirty, covered := ∅ }
  | clearDirty (h : s.sealing = some .clearDirty) :
      Step s .clearDirty { s with sealing := some .release, dirty := false }
  | release (h : s.sealing = some .release) : Step s .release { s with sealing := none }

/-- What the calls that returned leave of a durable tier, in their order. -/
def intended (initial : Docs Pk Text) (returned : List (Task Pk Text)) : Docs Pk Text :=
  returned.foldl (fun docs task => Function.update docs task.pk task.text) initial

/-- What is found of a key: the live segment answers for the keys it covers, the durable
tier for the others. -/
def found (s : LiveSegment Tid Pk Text) (pk : Pk) : Option Text :=
  if pk ∈ s.covered then if pk ∈ s.tombstones then none else s.writer pk else s.durable pk

/-- A call on the key is past its second look at the gate. -/
def InFlight (s : LiveSegment Tid Pk Text) (pk : Pk) : Prop :=
  ∃ h, s.lock = some h ∧ h.task.pk = pk ∧ h.next ≠ .recheck

/-- No seal is running, and every key that no call is writing is found as the calls that
returned have left it. -/
def Reflects (initial : Docs Pk Text) (s : LiveSegment Tid Pk Text) : Prop :=
  s.sealing = none → ∀ pk, ¬ s.InFlight pk → s.found pk = intended initial s.returned pk

/-- The holder of the lock is between its second look at the gate and its mark on the
dirty flag. -/
def Writing (s : LiveSegment Tid Pk Text) : Prop :=
  ∃ h, s.lock = some h ∧ h.next ≠ .recheck ∧ h.next ≠ .unlock

/-- An indexed key has no tombstone, and a seal that finds the dirty flag clear finds
no call that is writing and no search that has cleared the flag and not yet reloaded. -/
def Careful (s : LiveSegment Tid Pk Text) : Action Tid Pk Text → Prop
  | .buffer => ∀ h pk text, s.lock = some h → h.task = .index pk text → pk ∉ s.tombstones
  | .sealSwap => s.dirty = true ∨ ¬ s.Writing ∧ ∀ t, s.searches t = none
  | _ => True

/-- Any number of steps, of which all are as `allowed` says. -/
def Runs (allowed : LiveSegment Tid Pk Text → Action Tid Pk Text → Prop) :
    LiveSegment Tid Pk Text → LiveSegment Tid Pk Text → Prop :=
  Relation.ReflTransGen fun s s' => ∃ a, allowed s a ∧ Step s a s'

end LiveSegment

end BlueDB.Fts
