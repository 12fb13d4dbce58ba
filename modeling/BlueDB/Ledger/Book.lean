import BlueDB.Ledger.Chains

/-!
# The ledger without a working set

The abstract machine that `createAccounts` and `createTransfers` are meant to
be: one event at a time, read from and written to a single store, with the log
of everything accepted so far. Rolling a chain back is returning to the earlier
book. The machine decides on an event with the engine's own pure functions; what
it leaves out is the overlay of working set, staged records and write batch.
-/

namespace BlueDB.Ledger

/-- An accepted record, as it was stored. -/
inductive Entry where
  | account (a : Account)
  | transfer (t : Transfer)
deriving DecidableEq, Repr

def Entry.timestamp : Entry → ℕ
  | .account a => a.timestamp
  | .transfer t => t.timestamp

/-- A store together with the log of accepted records, oldest first. -/
structure Book where
  store : Store
  log : List Entry

namespace Store

def putAccounts (s : Store) (debit credit : Account) : Store :=
  { s with accounts := put (put s.accounts debit.id debit) credit.id credit }

def resolve (s : Store) (pendingId : U128) (status : PendingStatus) : Store :=
  { s with pendingStates := put s.pendingStates pendingId status }

def dropExpiry (s : Store) (key : ExpiryKey) : Store :=
  { s with expiry := s.expiry.delete key }

def dropPending (s : Store) (pending : Transfer) : Store :=
  if pending.timeout != 0 then
    s.dropExpiry (expiryKey (expiryOf pending.timestamp pending.timeout) pending.id)
  else s

def record (s : Store) (t : Transfer) : Store :=
  { s with
    transfers := put s.transfers t.id t
    expiry := putExpiry s.expiry t
    watermark := some t.timestamp }

def openAccount (s : Store) (a : Account) : Store :=
  { s with
    accounts := put s.accounts a.id a
    watermark := some a.timestamp }

def burn (s : Store) (ids : Finset U128) : Store := { s with failed := s.failed ∪ ids }

end Store

/-- What an accepted transfer does: the two accounts it leaves behind, the record
to file, and the pending it resolves. -/
structure Effect where
  debit : Account
  credit : Account
  record : Transfer
  resolved : Option (Transfer × PendingStatus)

/-- The store after an effect whose record carries its timestamp. -/
def Store.enact (s : Store) (e : Effect) : Store :=
  match e.resolved with
  | none => (s.putAccounts e.debit e.credit).record e.record
  | some (pending, status) =>
    (((s.putAccounts e.debit e.credit).resolve pending.id status).dropPending pending).record
      e.record

def recordResolution (states : U128 → Option PendingStatus) :
    Option (Transfer × PendingStatus) → U128 → Option PendingStatus
  | none => states
  | some (pending, status) => put states pending.id status

/-- The expiry keys a resolution takes out of the index. -/
def resolvedRemovals : Option (Transfer × PendingStatus) → List ExpiryKey
  | none => []
  | some (pending, _) =>
    if pending.timeout != 0 then
      [expiryKey (expiryOf pending.timestamp pending.timeout) pending.id]
    else []

theorem mem_resolvedRemovals {resolved : Option (Transfer × PendingStatus)} {key : ExpiryKey} :
    key ∈ resolvedRemovals resolved ↔ ∃ pending status, resolved = some (pending, status) ∧
      pending.timeout ≠ 0 ∧
      key = expiryKey (expiryOf pending.timestamp pending.timeout) pending.id := by
  cases resolved with
  | none => simp [resolvedRemovals]
  | some p =>
    obtain ⟨pending, status⟩ := p
    by_cases h : pending.timeout = 0 <;> simp [resolvedRemovals, h]

namespace Store

variable (s : Store) (e : Effect)

@[simp] theorem enact_accounts : (s.enact e).accounts =
    put (put s.accounts e.debit.id e.debit) e.credit.id e.credit := by
  unfold enact
  split
  · rfl
  · unfold dropPending
    split_ifs <;> rfl

@[simp] theorem enact_transfers :
    (s.enact e).transfers = put s.transfers e.record.id e.record := by
  unfold enact
  split
  · rfl
  · unfold dropPending
    split_ifs <;> rfl

@[simp] theorem enact_pendingStates :
    (s.enact e).pendingStates = recordResolution s.pendingStates e.resolved := by
  unfold enact
  split
  · rename_i h
    rw [h]
    rfl
  · rename_i h
    rw [h]
    unfold dropPending
    split_ifs <;> rfl

@[simp] theorem enact_expiry : (s.enact e).expiry =
    putExpiry ((resolvedRemovals e.resolved).foldl OrderedIndex.delete s.expiry) e.record := by
  unfold enact
  split
  · rename_i h
    rw [h]
    rfl
  · rename_i h
    rw [h]
    simp only [dropPending, resolvedRemovals]
    split_ifs <;> rfl

@[simp] theorem enact_failed : (s.enact e).failed = s.failed := by
  unfold enact
  split
  · rfl
  · unfold dropPending
    split_ifs <;> rfl

@[simp] theorem enact_watermark : (s.enact e).watermark = some e.record.timestamp := by
  unfold enact
  split <;> rfl

end Store

/-- The timestamp an accepted event gets. -/
def assignedTimestamp (batchImported : Bool) (now watermark timestamp : ℕ) : ℕ :=
  if batchImported then timestamp else TimestampSource.peek ⟨watermark⟩ now

def decideMovement (s : Store) (t : Transfer)
    (movement : Account → Account → Except CreateTransferResult Movement) :
    Except CreateTransferResult Movement :=
  match s.accounts t.debitAccountId with
  | none => .error .debitAccountNotFound
  | some debit =>
    match s.accounts t.creditAccountId with
    | none => .error .creditAccountNotFound
    | some credit => movement debit credit

def Movement.effect (t : Transfer) (m : Movement) : Effect :=
  ⟨m.debit, m.credit, { t with amount := m.amount }, none⟩

section Backstop

variable (backstop : Transfer → ℕ → Bool)

def decideResolution (s : Store) (t : Transfer) (post : Bool) (now : ℕ)
    (importedTs : Option ℕ) (lastTs : ℕ) :
    Except InvariantError (Except CreateTransferResult Effect) :=
  match s.transfers t.pendingId with
  | none => .ok (.error .pendingTransferNotFound)
  | some pending =>
    match pendingFieldChecks t pending with
    | some code => .ok (.error code)
    | none =>
      match effectiveAmount t pending post with
      | .error code => .ok (.error code)
      | .ok effective =>
        match priorResolution (s.pendingStates pending.id) with
        | some code => .ok (.error code)
        | none =>
          if backstop pending now then .ok (.error .pendingTransferExpired)
          else
            match s.accounts pending.debitAccountId with
            | none => .error .pendingDebitAccountMissing
            | some debit =>
              match s.accounts pending.creditAccountId with
              | none => .error .pendingCreditAccountMissing
              | some credit =>
                match resolutionMovement t pending post effective importedTs lastTs
                    debit credit with
                | .error e => .error e
                | .ok (.error code) => .ok (.error code)
                | .ok (.ok (debit, credit)) =>
                  .ok (.ok ⟨debit, credit, materialize t pending effective,
                    some (pending, if post then .posted else .voided)⟩)

def decideTransfer (batchImported : Bool) (now : ℕ) (s : Store) (t : Transfer) :
    Except InvariantError (Except CreateTransferResult Effect) :=
  let importedTs := if batchImported then some t.timestamp else none
  let lastTs := s.getWatermark
  match classify t with
  | .regular =>
    .ok ((decideMovement s t (regularMovement t importedTs lastTs)).map (Movement.effect t))
  | .pendingReserve =>
    let prospectiveTs := importedTs.getD (TimestampSource.peek ⟨lastTs⟩ now)
    .ok ((decideMovement s t (pendingMovement t prospectiveTs importedTs lastTs)).map
      (Movement.effect t))
  | .post => decideResolution backstop s t true now importedTs lastTs
  | .void => decideResolution backstop s t false now importedTs lastTs

def Book.accept (b : Book) (timestamp : ℕ) (e : Effect) : Book :=
  let applied := { e.record with timestamp := timestamp }
  ⟨b.store.enact { e with record := applied }, b.log ++ [.transfer applied]⟩

/-- One transfer against the book. -/
def Book.transfer (batchImported : Bool) (now : ℕ) (b : Book) (t : Transfer) :
    Except InvariantError (CreateTransferResult × Book) :=
  match validateTransferPreExistence t batchImported now with
  | some code => .ok (code, b)
  | none =>
    match b.store.transfers t.id with
    | some existing => .ok (transferExistsResult t existing, b)
    | none =>
      if t.id ∈ b.store.failed then .ok (.idAlreadyFailed, b)
      else
        match validateTransferPostExistence t with
        | some code => .ok (code, b)
        | none =>
          match decideTransfer backstop batchImported now b.store t with
          | .error e => .error e
          | .ok (.error code) => .ok (code, b)
          | .ok (.ok effect) =>
            .ok (.created, b.accept
              (assignedTimestamp batchImported now b.store.getWatermark t.timestamp) effect)

def bookTransferOps (batchImported : Bool) (now : ℕ) :
    BatchOps InvariantError CreateTransferResult Transfer Book where
  process := Book.transfer backstop batchImported now
  rollback _ snapshot := snapshot
  finish b codes := { b with store := b.store.burn (burnedIds codes) }
  settled r := r == .created || r == .exists_
  linkedFailed := .linkedEventFailed
  chainOpen := .linkedEventChainOpen

end Backstop

/-- The auto-void of one expiry-index entry. -/
def Store.expireOne (s : Store) (key : ExpiryKey) : Except InvariantError Store :=
  if (s.pendingStates (ExpiryKey.pendingId key)).isSome then .ok (s.dropExpiry key)
  else
    match s.transfers (ExpiryKey.pendingId key) with
    | none => .ok (s.dropExpiry key)
    | some pending =>
      match s.accounts pending.debitAccountId with
      | none => .error .expiredDebitAccountMissing
      | some debit =>
        match s.accounts pending.creditAccountId with
        | none => .error .expiredCreditAccountMissing
        | some credit => do
          let (debit, credit) ← releaseReservation pending debit credit
            .debitsPendingUnderflowOnExpiry .creditsPendingUnderflowOnExpiry
          let reopened := reopenAccounts pending debit credit
          .ok (((s.putAccounts reopened.1 reopened.2).resolve (ExpiryKey.pendingId key)
            .expired).dropExpiry key)

def Store.sweep (s : Store) (now : ℕ) : Except InvariantError Store :=
  (s.scanExpired now).foldlM Store.expireOne s

/-- A whole `createTransfers` against the book. -/
def Book.createTransfers (backstop : Transfer → ℕ → Bool) (b : Book) (now : ℕ)
    (transfers : List Transfer) : Except InvariantError (List CreateTransferResult × Book) := do
  let swept ← b.store.sweep now
  (bookTransferOps backstop (transfersImported transfers) now).runSegments
    (segments transferLinked transfers) ⟨swept, b.log⟩

def Book.account (batchImported : Bool) (now : ℕ) (b : Book) (spec : Account) :
    CreateAccountResult × Book :=
  match validateAccountPreExistence spec batchImported now with
  | some code => (code, b)
  | none =>
    match b.store.accounts spec.id with
    | some existing => (accountExistsResult spec existing, b)
    | none =>
      match validateAccountPostExistence spec with
      | some code => (code, b)
      | none =>
        if batchImported && decide (spec.timestamp ≤ b.store.getWatermark) then
          (.importedEventTimestampMustNotRegress, b)
        else
          let acct := { spec with
            timestamp :=
              assignedTimestamp batchImported now b.store.getWatermark spec.timestamp }
          (.created, ⟨b.store.openAccount acct, b.log ++ [.account acct]⟩)

def bookAccountOps (batchImported : Bool) (now : ℕ) :
    BatchOps Empty CreateAccountResult Account Book where
  process b spec := .ok (b.account batchImported now spec)
  rollback _ snapshot := snapshot
  finish b _ := b
  settled r := r == .created || r == .exists_
  linkedFailed := .linkedEventFailed
  chainOpen := .linkedEventChainOpen

/-- A whole `createAccounts` against the book. -/
def Book.createAccounts (b : Book) (now : ℕ) (specs : List Account) :
    Except Empty (List CreateAccountResult × Book) :=
  (bookAccountOps (accountsImported specs) now).runSegments (segments accountLinked specs) b

end BlueDB.Ledger
