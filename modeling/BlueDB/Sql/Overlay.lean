import BlueDB.Lib.OrderedMap
import BlueDB.Sql.Laws

/-!
# The transaction overlay

The store holds byte strings under byte strings. A transaction keeps the store
as it was when it began and an ordered map of the writes since, a tombstone for
a deleted key. A commit writes them as one batch, with an entry of the change
log for every row that changed.
-/

namespace BlueDB.Sql.Overlay

abbrev Bytes := List UInt8

/-- The serialization of the values that a commit reads and writes. -/
structure Codec (G : Engine) where
  decodeKey : Bytes → Except String G.Key
  encodeEntry : Name → G.Key → Option (DataRow G.Value) → Except String Bytes

inductive Error
  | readOnly
  | serde (message : String)
  | rowExists (key : Bytes)
  | duplicateEntry (index table : Name)
  | storage
  deriving DecidableEq

structure RowChange (G : Engine) where
  table : Name
  key : G.Key
  row : Option (DataRow G.Value)

structure TxnState (G : Engine) where
  overlay : OrderedMap Bytes (Option Bytes)
  snapshot : OrderedMap Bytes Bytes
  uniqueChecks : List Bytes
  changes : List (RowChange G)
  hadDataWrite : Bool
  uniqueIndexChecks : List (UniqueIndexCheck G)

/-- A connection of one tenant. The store and the two counters are shared with
the other connections. -/
structure SlateDbStorage (G : Engine) where
  live : OrderedMap Bytes Bytes
  isWriter : Bool
  tenant : Bytes
  observed : Bool
  cdc : Option (Name → Bool)
  cdcSeq : Option Int64
  commitSeq : ℕ
  txn : Option (TxnState G)

variable {G : Engine}

abbrev Exec (G : Engine) := EStateM Error (SlateDbStorage G)

namespace SlateDbStorage

def tagCdc : UInt8 := 0x16

def externalPrefix (s : SlateDbStorage G) (tag : UInt8) : Bytes := lengthPrefixed 4 s.tenant ++
    [tag]

def externalKey (s : SlateDbStorage G) (tag : UInt8) (suffix : Bytes) : Bytes :=
  s.externalPrefix tag ++ suffix

def cdcKey (s : SlateDbStorage G) (seq : Int64) : Bytes :=
  s.externalKey tagCdc (beBytes 8 seq.toUInt64.toNat)

def fromBeBytes (bytes : Bytes) : ℕ := bytes.foldl (fun n b => 256 * n + b.toNat) 0

/-- The sequence number in the last eight bytes of a key. -/
def cdcSeqFromKey (key : Bytes) : Option Int64 :=
  if key.length < 8 then none
  else some (UInt64.ofNat (fromBeBytes (key.drop (key.length - 8)))).toInt64

def readKey (s : SlateDbStorage G) (key : Bytes) : Option Bytes :=
  match s.txn with
  | some txn =>
    match txn.overlay.get key with
    | some (some value) => some value
    | some none => none
    | none => txn.snapshot.get key
  | none => s.live.get key

def scanRangeBase (s : SlateDbStorage G) (start : Bytes) (stop : Option Bytes) :
    List (Bytes × Bytes) :=
  match s.txn with
  | some txn => txn.snapshot.slice start stop
  | none => s.live.slice start stop

/-- The range read of a transaction panics when the range ends before it starts. -/
def scanRange (s : SlateDbStorage G) (start : Bytes) (stop : Option Bytes) :
    Option (List (Bytes × Bytes)) :=
  let base := s.scanRangeBase start stop
  match s.txn with
  | none => some base
  | some txn => (txn.overlay.range start stop).map (OrderedMap.mergeSorted base)

end SlateDbStorage

def bufferWrite (txn : TxnState G) (key : Bytes) (op : Option Bytes) : TxnState G :=
  { txn with overlay := txn.overlay.insert key op }

/-- A write that is not buffered needs the writer. -/
def writeThrough (w : Bytes × Option Bytes) : Exec G Unit := fun s =>
  if s.isWriter then .ok () { s with live := s.live.write w } else .error .readOnly s

def writeKey (key value : Bytes) : Exec G Unit := fun s =>
  match s.txn with
  | some txn => .ok () { s with txn := some (bufferWrite txn key (some value)) }
  | none => writeThrough (key, some value) s

def deleteKey (key : Bytes) : Exec G Unit := fun s =>
  match s.txn with
  | some txn => .ok () { s with txn := some (bufferWrite txn key none) }
  | none => writeThrough (key, none) s

def wantsChanges (s : SlateDbStorage G) (table : Name) : Bool :=
  s.observed || s.cdc.any fun isEnabled => isEnabled table

def recordChange (change : RowChange G) : Exec G Unit := fun s =>
  match s.txn with
  | none => .ok () s
  | some txn =>
    let txn := { txn with hadDataWrite := true }
    if wantsChanges s change.table then
      .ok () { s with txn := some { txn with changes := txn.changes ++ [change] } }
    else .ok () { s with txn := some txn }

/-- What `begin` answers says whether the statement commits by itself. -/
def begin (autocommit : Bool) : Exec G Bool := fun s =>
  match s.txn with
  | some _ => .ok false s
  | none =>
    if s.isWriter then
      .ok autocommit { s with txn := some ⟨.empty, s.live, [], [], false, []⟩ }
    else if autocommit then .ok false s
    else .error .readOnly s

def rollback : Exec G Unit := fun s => .ok () { s with txn := none }

def recheckKeys (live : OrderedMap Bytes Bytes) (keys : List Bytes) : Except Error Unit :=
  keys.forM fun key => if (live.get key).isSome then .error (.rowExists key) else .ok ()

def recheckIndex (C : Codec G) (live : OrderedMap Bytes Bytes) (chk : UniqueIndexCheck G) :
    Except Error Unit :=
  (live.slice chk.valuePrefix (prefixUpperBound chk.valuePrefix)).forM fun kv =>
    match C.decodeKey kv.2 with
    | .error message => .error (.serde message)
    | .ok existing =>
      if existing ≠ chk.pk then .error (.duplicateEntry chk.indexName chk.tableName) else .ok ()

/-- The largest sequence number in the log, zero for an empty one. -/
def maxPersistedCdcSeq (s : SlateDbStorage G) : Int64 :=
  let start := s.externalPrefix SlateDbStorage.tagCdc
  ((s.live.slice start (prefixUpperBound start)).filterMap fun kv =>
    SlateDbStorage.cdcSeqFromKey kv.1).foldl max 0

def nextCdcSeq : Exec G Int64 := fun s =>
  let cur := match s.cdcSeq with
    | some n => n
    | none => maxPersistedCdcSeq s
  .ok (cur + 1) { s with cdcSeq := some (cur + 1) }

def encodeEntry (C : Codec G) (change : RowChange G) : Except Error Bytes :=
  (C.encodeEntry change.table change.key change.row).mapError .serde

/-- The put of one change in the log. -/
def logChange (C : Codec G) (change : RowChange G) : Exec G (Bytes × Option Bytes) := do
  let seq ← nextCdcSeq
  let entry ← ofExcept (encodeEntry C change)
  return ((← get).cdcKey seq, some entry)

def mirrored (s : SlateDbStorage G) (changes : List (RowChange G)) : List (RowChange G) :=
  match s.cdc with
  | some isEnabled => changes.filter fun change => isEnabled change.table
  | none => []

/-- The store takes the batch as a whole or refuses it. -/
def writeBatch (accepts : Bool) (batch : List (Bytes × Option Bytes)) : Exec G Unit := fun s =>
  if s.isWriter = false then .error .readOnly s
  else if accepts then .ok () { s with live := s.live.writeAll batch }
  else .error .storage s

def advanceWatermark (hadDataWrite : Bool) : Exec G Unit :=
  modify fun s => if hadDataWrite then { s with commitSeq := s.commitSeq + 1 } else s

def commitTxn (C : Codec G) (accepts : Bool) (txn : TxnState G) : Exec G Unit := do
  let s : SlateDbStorage G ← get
  ofExcept (recheckKeys s.live txn.uniqueChecks)
  ofExcept (txn.uniqueIndexChecks.forM (recheckIndex C s.live))
  let log ← (mirrored s txn.changes).mapM (logChange C)
  writeBatch accepts (txn.overlay.entries ++ log)
  advanceWatermark txn.hadDataWrite

/-- The transaction is over whether or not its writes reach the store. -/
def commit (C : Codec G) (accepts : Bool) : Exec G Unit := fun s =>
  match s.txn with
  | none => .ok () s
  | some txn =>
    if txn.overlay.entries = [] then .ok () { s with txn := none }
    else commitTxn C accepts txn { s with txn := none }

def LogEntry (C : Codec G) (s : SlateDbStorage G) (change : RowChange G)
    (put : Bytes × Option Bytes) : Prop :=
  ∃ seq entry, encodeEntry C change = .ok entry ∧ put = (s.cdcKey seq, some entry)

/-- The store is as it was, and so is what the connection was opened with. -/
structure Unwritten (s s' : SlateDbStorage G) : Prop where
  live : s'.live = s.live
  tenant : s'.tenant = s.tenant

theorem Unwritten.trans {s s' s'' : SlateDbStorage G} (h : Unwritten s s')
    (h' : Unwritten s' s'') : Unwritten s s'' :=
  ⟨h'.live.trans h.live, h'.tenant.trans h.tenant⟩

theorem LogEntry.of_tenant {C : Codec G} {s s' : SlateDbStorage G} (h : s'.tenant = s.tenant)
    {change : RowChange G} {put : Bytes × Option Bytes} (hput : LogEntry C s' change put) :
    LogEntry C s change put := by
  obtain ⟨seq, entry, hentry, hput⟩ := hput
  have hkey : s'.cdcKey seq = s.cdcKey seq := by
    unfold SlateDbStorage.cdcKey SlateDbStorage.externalKey SlateDbStorage.externalPrefix
    rw [h]
  exact ⟨seq, entry, hentry, hkey ▸ hput⟩

theorem logChange_holds (C : Codec G) (change : RowChange G) (s : SlateDbStorage G) :
    Holds (logChange C change) s (fun put s' => Unwritten s s' ∧ LogEntry C s change put)
      fun _ s' => Unwritten s s' := by
  unfold logChange
  rw [Holds.bind_iff]
  change Holds (ofExcept (encodeEntry C change) >>= _) _ _ _
  rw [Holds.bind_iff]
  cases hentry : encodeEntry C change with
  | error e => exact ⟨rfl, rfl⟩
  | ok entry => exact ⟨⟨rfl, rfl⟩, _, entry, hentry, rfl⟩

theorem logChanges_holds (C : Codec G) (changes : List (RowChange G)) (s : SlateDbStorage G) :
    Holds (changes.mapM (logChange C)) s
      (fun log s' => Unwritten s s' ∧ List.Forall₂ (LogEntry C s) changes log)
      fun _ s' => Unwritten s s' := by
  induction changes generalizing s with
  | nil => exact ⟨⟨rfl, rfl⟩, List.Forall₂.nil⟩
  | cons change changes ih =>
    rw [List.mapM_cons, Holds.bind_iff]
    apply (logChange_holds C change s).mono _ fun _ _ h => h
    intro put s' ⟨hs', hput⟩
    rw [Holds.bind_iff]
    apply (ih s').mono _ fun _ _ h => hs'.trans h
    intro log s'' ⟨hs'', hlog⟩
    rw [Holds.pure_iff]
    exact ⟨hs'.trans hs'', List.Forall₂.cons hput (hlog.imp fun _ _ h => h.of_tenant hs'.tenant)⟩

theorem writeBatch_holds (accepts : Bool) (batch : List (Bytes × Option Bytes))
    (s : SlateDbStorage G) : Holds (writeBatch accepts batch) s
      (fun _ s' => s'.live = s.live.writeAll batch) fun _ s' => s'.live = s.live := by
  unfold Holds writeBatch
  by_cases hw : s.isWriter = false
  · rw [if_pos hw]
  · rw [if_neg hw]
    cases accepts <;> rfl

/-- A commit applies the whole overlay with its log, or fails and writes nothing. -/
theorem commitTxn_holds (C : Codec G) (accepts : Bool) (txn : TxnState G) (s : SlateDbStorage G) :
    Holds (commitTxn C accepts txn) s
      (fun _ s' => ∃ log, s'.live = s.live.writeAll (txn.overlay.entries ++ log) ∧
        List.Forall₂ (LogEntry C s) (mirrored s txn.changes) log)
      fun _ s' => s'.live = s.live := by
  unfold commitTxn
  rw [Holds.bind_iff, Holds.get_iff, Holds.bind_iff]
  cases recheckKeys s.live txn.uniqueChecks with
  | error e => rfl
  | ok _ =>
    rw [Holds.ofExcept_ok, Holds.bind_iff]
    cases txn.uniqueIndexChecks.forM (recheckIndex C s.live) with
    | error e => rfl
    | ok _ =>
      rw [Holds.ofExcept_ok, Holds.bind_iff]
      apply (logChanges_holds C _ s).mono _ fun _ _ h => h.live
      intro log s' ⟨hs', hlog⟩
      rw [Holds.bind_iff]
      apply (writeBatch_holds accepts _ s').mono _ fun _ _ h => h.trans hs'.live
      intro _ s'' hs''
      refine ⟨log, ?_, hlog⟩
      rw [← hs'.live, ← hs'']
      cases txn.hadDataWrite <;> rfl

theorem readKey_eq {s : SlateDbStorage G} {txn : TxnState G} (h : s.txn = some txn) (key : Bytes) :
    s.readKey key = (txn.snapshot.writeAll txn.overlay.entries).get key := by
  unfold SlateDbStorage.readKey
  rw [h, OrderedMap.get_writeAll_entries]
  dsimp only
  cases txn.overlay.get key with
  | none => rfl
  | some op => cases op <;> rfl

theorem scanRange_eq {s : SlateDbStorage G} {txn : TxnState G} (h : s.txn = some txn)
    (start : Bytes) (stop : Option Bytes) :
    s.scanRange start stop = (txn.snapshot.writeAll txn.overlay.entries).range start stop := by
  unfold SlateDbStorage.scanRange SlateDbStorage.scanRangeBase OrderedMap.range
  rw [h]
  dsimp only
  split_ifs with hstop
  · rfl
  · rw [Option.map_some, OrderedMap.slice_writeAll]

/-- What happens while a transaction is open: its writes, what it stages for the
commit, and the batches of other connections. -/
inductive Event (G : Engine)
  | write (key value : Bytes)
  | delete (key : Bytes)
  | freshKey (key : Bytes)
  | uniqueEntry (chk : UniqueIndexCheck G)
  | change (change : RowChange G)
  | concurrent (batch : List (Bytes × Option Bytes)) (cdcSeq : Option Int64) (commitSeq : ℕ)

namespace Event

def apply : Event G → Exec G Unit
  | .write key value => writeKey key value
  | .delete key => deleteKey key
  | .freshKey key => modify fun s =>
    { s with txn := s.txn.map fun txn => { txn with uniqueChecks := txn.uniqueChecks ++ [key] } }
  | .uniqueEntry chk => modify fun s =>
    { s with txn := s.txn.map fun txn =>
      { txn with uniqueIndexChecks := txn.uniqueIndexChecks ++ [chk] } }
  | .change ch => recordChange ch
  | .concurrent batch cdcSeq commitSeq => modify fun s =>
    { s with live := s.live.writeAll batch, cdcSeq := cdcSeq, commitSeq := commitSeq }

def buffered : Event G → Option (Bytes × Option Bytes)
  | .write key value => some (key, some value)
  | .delete key => some (key, none)
  | _ => none

def rowChange : Event G → Option (RowChange G)
  | .change ch => some ch
  | _ => none

def isConcurrent : Event G → Bool
  | .concurrent .. => true
  | _ => false

end Event

/-- A transaction that has begun and seen `events`. -/
def session (autocommit : Bool) (events : List (Event G)) : Exec G Unit := do
  let _ ← begin autocommit
  events.forM Event.apply

/-- A transaction that began in `s` and has seen `events`. -/
structure InTxn (s : SlateDbStorage G) (events : List (Event G)) (t : SlateDbStorage G)
    (txn : TxnState G) : Prop where
  opened : t.txn = some txn
  snapshot : txn.snapshot = s.live
  overlay : s.live.writeAll txn.overlay.entries = s.live.writeAll (events.filterMap Event.buffered)
  empty : txn.overlay.entries = [] ↔ events.filterMap Event.buffered = []
  changes : mirrored s txn.changes = mirrored s (events.filterMap Event.rowChange)
  tenant : t.tenant = s.tenant
  observed : t.observed = s.observed
  cdc : t.cdc = s.cdc
  alone : (∀ ev ∈ events, ev.isConcurrent = false) → t.live = s.live

theorem filterMap_concat {α β : Type*} (f : α → Option β) (l : List α) (a : α) :
    (l ++ [a]).filterMap f = l.filterMap f ++ (f a).toList := by
  rw [List.filterMap_append]
  cases h : f a <;> simp [h]

theorem mirrored_append (s : SlateDbStorage G) (changes changes' : List (RowChange G)) :
    mirrored s (changes ++ changes') = mirrored s changes ++ mirrored s changes' := by
  unfold mirrored
  cases s.cdc with
  | none => rfl
  | some isEnabled => exact List.filter_append ..

/-- A change that nobody asked for has no place in the log. -/
theorem mirrored_unwanted {s : SlateDbStorage G} {ch : RowChange G}
    (h : ¬ wantsChanges s ch.table) : mirrored s [ch] = [] := by
  unfold mirrored
  unfold wantsChanges at h
  cases hcdc : s.cdc with
  | none => rfl
  | some isEnabled =>
    rw [hcdc] at h
    simp_all

namespace InTxn

variable {s t : SlateDbStorage G} {events : List (Event G)} {txn : TxnState G}

theorem bufferWrite (h : InTxn s events t txn) {ev : Event G} {key : Bytes} {op : Option Bytes}
    (hbuffered : ev.buffered = some (key, op)) (hchange : ev.rowChange = none) :
    InTxn s (events ++ [ev]) { t with txn := some (bufferWrite txn key op) }
      (bufferWrite txn key op) where
  __ := h
  opened := rfl
  overlay := by
    rw [filterMap_concat, hbuffered, OrderedMap.writeAll_append,
      ← h.overlay]
    exact OrderedMap.writeAll_insert ..
  empty := by
    rw [filterMap_concat, hbuffered]
    constructor
    · intro hempty
      have hmem : (key, op) ∈ (txn.overlay.insert key op).entries := by
        rw [OrderedMap.mem_entries, OrderedMap.get_insert, if_pos rfl]
      exact absurd (hempty ▸ hmem) List.not_mem_nil
    · simp
  changes := by
    rw [filterMap_concat, hchange, Option.toList_none,
      List.append_nil]
    exact h.changes
  alone halone := h.alone fun ev' hev => halone ev' (List.mem_append_left _ hev)

theorem staged (h : InTxn s events t txn) {ev : Event G} (hbuffered : ev.buffered = none)
    {t' : SlateDbStorage G} {txn' : TxnState G} (hopened : t'.txn = some txn')
    (hsnapshot : txn'.snapshot = txn.snapshot) (hoverlay : txn'.overlay = txn.overlay)
    (hchanges : mirrored s txn'.changes = mirrored s (txn.changes ++ ev.rowChange.toList))
    (htenant : t'.tenant = t.tenant) (hobserved : t'.observed = t.observed) (hcdc : t'.cdc = t.cdc)
    (hlive : ev.isConcurrent = false → t'.live = t.live) :
    InTxn s (events ++ [ev]) t' txn' where
  opened := hopened
  snapshot := hsnapshot.trans h.snapshot
  overlay := by
    rw [filterMap_concat, hbuffered, Option.toList_none,
      List.append_nil, hoverlay]
    exact h.overlay
  empty := by
    rw [filterMap_concat, hbuffered, Option.toList_none,
      List.append_nil, hoverlay]
    exact h.empty
  changes := by
    rw [hchanges, filterMap_concat, mirrored_append, h.changes,
      mirrored_append]
  tenant := htenant.trans h.tenant
  observed := hobserved.trans h.observed
  cdc := hcdc.trans h.cdc
  alone halone := (hlive (halone ev (by simp))).trans
    (h.alone fun ev' hev => halone ev' (List.mem_append_left _ hev))

theorem step (h : InTxn s events t txn) (ev : Event G) :
    Holds ev.apply t (fun _ t' => ∃ txn', InTxn s (events ++ [ev]) t' txn') fun _ _ => False := by
  have hsame : mirrored s txn.changes = mirrored s (txn.changes ++ []) := by rw [List.append_nil]
  cases ev with
  | write key value =>
    change Holds (writeKey key value) t _ _
    unfold Holds writeKey
    rw [h.opened]
    exact ⟨_, h.bufferWrite rfl rfl⟩
  | delete key =>
    change Holds (deleteKey key) t _ _
    unfold Holds deleteKey
    rw [h.opened]
    exact ⟨_, h.bufferWrite rfl rfl⟩
  | freshKey key | uniqueEntry chk =>
    exact ⟨_, h.staged rfl (congrArg (Option.map _) h.opened) rfl rfl hsame rfl rfl rfl fun _ =>
        rfl⟩
  | change ch =>
    change Holds (recordChange ch) t _ _
    unfold Holds recordChange
    rw [h.opened]
    dsimp only
    by_cases hwants : wantsChanges t ch.table
    · rw [if_pos hwants]
      exact ⟨_, h.staged rfl rfl rfl rfl rfl rfl rfl rfl fun _ => rfl⟩
    · rw [if_neg hwants]
      have hwants' : ¬ wantsChanges s ch.table := by
        unfold wantsChanges at hwants ⊢
        rwa [← h.observed, ← h.cdc]
      have hnone : mirrored s txn.changes = mirrored s (txn.changes ++ [ch]) := by
        rw [mirrored_append, mirrored_unwanted hwants', List.append_nil]
      exact ⟨_, h.staged rfl rfl rfl rfl hnone rfl rfl rfl fun _ => rfl⟩
  | concurrent batch cdcSeq commitSeq =>
    exact ⟨txn, h.staged rfl h.opened rfl rfl hsame rfl rfl rfl nofun⟩

theorem run (h : InTxn s events t txn) (later : List (Event G)) :
    Holds (later.forM Event.apply) t (fun _ t' => ∃ txn', InTxn s (events ++ later) t' txn')
      fun _ _ => False := by
  apply Holds.forM_log (fun done t' => ∃ txn', InTxn s (events ++ done) t' txn')
  · rw [List.append_nil]
    exact ⟨txn, h⟩
  · intro done ev rest _ t' ⟨txn', h'⟩
    rw [← List.append_assoc]
    exact h'.step ev

end InTxn

/-- The change log a commit adds after `events`; a commit of no writes adds none. -/
def Logged (C : Codec G) (s : SlateDbStorage G) (events : List (Event G))
    (log : List (Bytes × Option Bytes)) : Prop :=
  List.Forall₂ (LogEntry C s)
    (if events.filterMap Event.buffered = [] then []
      else mirrored s (events.filterMap Event.rowChange)) log

theorem InTxn.commit {s t : SlateDbStorage G} {events : List (Event G)} {txn : TxnState G}
    (h : InTxn s events t txn) (C : Codec G) (accepts : Bool) :
    Holds (commit C accepts) t
      (fun _ t' => (∀ ev ∈ events, ev.isConcurrent = false) →
        ∃ log, t'.live = (s.live.writeAll (events.filterMap Event.buffered)).writeAll log ∧
          Logged C s events log)
      fun _ t' => t'.live = t.live := by
  unfold Holds Overlay.commit
  rw [h.opened]
  dsimp only
  by_cases hempty : txn.overlay.entries = []
  · rw [if_pos hempty]
    intro halone
    refine ⟨[], ?_, ?_⟩
    · rw [OrderedMap.writeAll_nil, h.empty.mp hempty]
      exact h.alone halone
    · unfold Logged
      rw [if_pos (h.empty.mp hempty)]
      exact List.Forall₂.nil
  · rw [if_neg hempty]
    apply (commitTxn_holds C accepts txn { t with txn := none }).mono _ fun _ _ hlive => hlive
    intro _ t' ⟨log, hlive, hlog⟩ halone
    refine ⟨log, ?_, ?_⟩
    · rw [hlive, OrderedMap.writeAll_append, ← h.overlay]
      exact congrArg (fun m => OrderedMap.writeAll (OrderedMap.writeAll m _) log) (h.alone halone)
    · unfold Logged
      rw [if_neg (hempty ∘ h.empty.mpr), ← h.changes]
      have hmirrored : mirrored { t with txn := none } txn.changes = mirrored s txn.changes := by
        unfold mirrored
        dsimp only
        rw [h.cdc]
      rw [hmirrored] at hlog
      exact hlog.imp fun _ _ hput => hput.of_tenant h.tenant

/-- A transaction reads and commits the map its writes make of the store it began with. -/
theorem session_map (C : Codec G) {s : SlateDbStorage G} (hidle : s.txn = none)
    (hwriter : s.isWriter = true) (autocommit : Bool) (events : List (Event G)) :
    ∃ t, session autocommit events s = .ok () t ∧
      let m := s.live.writeAll (events.filterMap Event.buffered)
      (∀ key, t.readKey key = m.get key) ∧
      (∀ start stop, t.scanRange start stop = m.range start stop) ∧
      (∀ start stop rows, t.scanRange start stop = some rows →
        rows.Pairwise (fun p q => p.1 < q.1) ∧
        ∀ k v, (k, v) ∈ rows ↔ m.get k = some v ∧ start ≤ k ∧ ∀ e ∈ stop, k < e) ∧
      Holds rollback t (fun _ t' => t'.live = t.live) (fun _ _ => False) ∧
      ∀ accepts, Holds (commit C accepts) t
        (fun _ t' => (∀ ev ∈ events, ev.isConcurrent = false) →
          ∃ log, t'.live = m.writeAll log ∧ Logged C s events log)
        fun _ t' => t'.live = t.live := by
  let began : TxnState G := ⟨.empty, s.live, [], [], false, []⟩
  have hbegan : InTxn s [] { s with txn := some began } began :=
    { opened := rfl, snapshot := rfl, overlay := rfl, empty := by simp [began, OrderedMap.empty],
      changes := rfl, tenant := rfl, observed := rfl, cdc := rfl, alone := fun _ => rfl }
  have hrun := hbegan.run events
  have hbegin : session autocommit events s =
      events.forM Event.apply { s with txn := some began } := by
    have hok : begin autocommit s = .ok autocommit { s with txn := some began } := by
      unfold begin
      rw [hidle]
      dsimp only
      rw [if_pos hwriter]
    change EStateM.bind _ _ _ = _
    unfold EStateM.bind
    rw [hok]
  rw [hbegin]
  unfold Holds at hrun
  cases hx : events.forM Event.apply { s with txn := some began } with
  | error e t =>
    rw [hx] at hrun
    exact hrun.elim
  | ok _ t =>
    rw [hx] at hrun
    obtain ⟨txn, h⟩ := hrun
    have hview : txn.snapshot.writeAll txn.overlay.entries =
        s.live.writeAll (events.filterMap Event.buffered) := by
      rw [h.snapshot]
      exact h.overlay
    refine ⟨t, rfl, ?_, ?_, ?_, rfl, h.commit C⟩
    · intro key
      rw [readKey_eq h.opened, hview]
    · intro start stop
      rw [scanRange_eq h.opened, hview]
    · intro start stop rows hrows
      rw [scanRange_eq h.opened, hview, OrderedMap.range] at hrows
      split_ifs at hrows with hstop
      obtain rfl := Option.some.inj hrows
      exact ⟨OrderedMap.slice_ascending .., fun k v => OrderedMap.mem_slice⟩

/-- A key byte string read as its length, and entries kept as the name of the table. -/
def lengthCodec : Codec Ints.engine where
  decodeKey bytes := .ok (.i64 bytes.length)
  encodeEntry table _ _ := .ok table.1

def twoKeys : SlateDbStorage Ints.engine where
  live := (OrderedMap.empty.insert [1] [10]).insert [3] [30]
  isWriter := true
  tenant := []
  observed := false
  cdc := none
  cdcSeq := none
  commitSeq := 0
  txn := none

theorem session_map_twoKeys :
    ∃ t, session true [.write [2] [20], .concurrent [([4], some [40])] none 1,
      .delete [3]] twoKeys = .ok () t ∧
    t.readKey [3] = none ∧ t.scanRange [1] none = some [([1], [10]), ([2], [20])] := by
  obtain ⟨t, ht, hread, hscan, _⟩ := session_map lengthCodec (s := twoKeys) rfl rfl true
    [.write [2] [20], .concurrent [([4], some [40])] none 1, .delete [3]]
  exact ⟨t, ht, (hread [3]).trans (by decide +kernel), (hscan [1] none).trans (by decide +kernel)⟩

end BlueDB.Sql.Overlay
