import BlueDB.Ledger.Store
import BlueDB.Lib.LinkedBatch

/-!
# The apply state machine

`createAccounts` and `createTransfers` as the engine runs them under the write
lease. A call reads committed records through a working set, collects what it
changes, and writes everything back in one batch at the end. Storage reads and
writes succeed; the only errors of a call are the internal invariant errors.
-/

namespace BlueDB.Ledger

def nanosPerSecond : ℕ := 1000000000

/-- The absolute expiry of a timed pending. -/
def expiryOf (timestamp timeout : ℕ) : ℕ :=
  saturatingAdd u64Max timestamp (saturatingMul u64Max timeout nanosPerSecond)

/-- The amount of a balancing transfer, reduced to the headroom on each balancing side. -/
def balancingAmount (t : Transfer) (debit credit : Account) : ℕ :=
  let debitHeadroom := saturatingSub debit.creditsPosted
    (saturatingAdd u128Max debit.debitsPosted debit.debitsPending)
  let creditHeadroom := saturatingSub credit.debitsPosted
    (saturatingAdd u128Max credit.creditsPosted credit.creditsPending)
  let amount := if t.flags.contains .balancingDebit then min t.amount debitHeadroom else t.amount
  if t.flags.contains .balancingCredit then min amount creditHeadroom else amount

/-- Assigns the timestamps of one apply; `last` starts at the persisted watermark. -/
structure TimestampSource where
  last : ℕ
deriving DecidableEq, Repr

namespace TimestampSource

def peek (ts : TimestampSource) (now : ℕ) : ℕ := max now (saturatingAdd u64Max ts.last 1)

/-- The timestamp of an accepted event, with the source that has consumed it. -/
def next (ts : TimestampSource) (now : ℕ) : ℕ × TimestampSource := (ts.peek now, ⟨ts.peek now⟩)

def assignImported (_ts : TimestampSource) (timestamp : ℕ) : TimestampSource := ⟨timestamp⟩

end TimestampSource

/-- The internal errors that abort a whole call. -/
inductive InvariantError where
  | expiredDebitAccountMissing
  | expiredCreditAccountMissing
  | debitsPendingUnderflowOnExpiry
  | creditsPendingUnderflowOnExpiry
  | pendingDebitAccountMissing
  | pendingCreditAccountMissing
  | debitsPendingUnderflowOnResolve
  | creditsPendingUnderflowOnResolve
deriving DecidableEq, Repr

def importedTransferChecks (importedTs : Option ℕ) (lastTs debitTs creditTs timeout : ℕ) :
    Option CreateTransferResult :=
  importedTs.bind fun its => firstFailing [
    (decide (its ≤ lastTs), .importedEventTimestampMustNotRegress),
    (decide (its ≤ debitTs), .importedEventTimestampMustPostdateDebitAccount),
    (decide (its ≤ creditTs), .importedEventTimestampMustPostdateCreditAccount),
    (timeout != 0, .importedEventTimeoutMustBeZero)]

/-- Checks 41, 42 and 54 to 59, shared by regular transfers and reservations. -/
def movementChecks (t : Transfer) (importedTs : Option ℕ) (lastTs : ℕ) (debit credit : Account) :
    Option CreateTransferResult :=
  (firstFailing [
    (debit.ledger != credit.ledger, CreateTransferResult.accountsMustHaveTheSameLedger),
    (t.ledger != debit.ledger, .transferMustHaveTheSameLedgerAsAccounts)]).or <|
  (importedTransferChecks importedTs lastTs debit.timestamp credit.timestamp t.timeout).or <|
  firstFailing [
    (debit.flags.contains .closed, .debitAccountAlreadyClosed),
    (credit.flags.contains .closed, .creditAccountAlreadyClosed)]

/-- Checks 64 and 65: posted and pending together fit the type. -/
def totalChecks (debit credit : Account) : Option CreateTransferResult :=
  firstFailing [
    ((checkedAdd u128Max debit.debitsPending debit.debitsPosted).isNone, .overflowsDebits),
    ((checkedAdd u128Max credit.creditsPending credit.creditsPosted).isNone, .overflowsCredits)]

/-- Checks 67 and 68: the constrained side counts posted and pending, the limit
side counts posted only. -/
def balanceChecks (debit credit : Account) : Option CreateTransferResult :=
  firstFailing [
    (debit.flags.contains .debitsMustNotExceedCredits &&
      decide (debit.creditsPosted < wrappingAdd u128Max debit.debitsPosted debit.debitsPending),
      .exceedsCredits),
    (credit.flags.contains .creditsMustNotExceedDebits &&
      decide (credit.debitsPosted < wrappingAdd u128Max credit.creditsPosted credit.creditsPending),
      .exceedsDebits)]

/-- Check 66: the expiry of a timed reservation stays below the timestamp ceiling. -/
def timeoutCheck (t : Transfer) (prospectiveTs : ℕ) : Option CreateTransferResult :=
  if t.timeout != 0 then
    match (checkedMul u64Max t.timeout nanosPerSecond).bind (checkedAdd u64Max prospectiveTs) with
    | some e => if e ≤ timestampMax then none else some .overflowsTimeout
    | none => some .overflowsTimeout
  else none

structure Movement where
  amount : ℕ
  debit : Account
  credit : Account

/-- The body of `stage_regular` once both accounts are loaded. -/
def regularMovement (t : Transfer) (importedTs : Option ℕ) (lastTs : ℕ) (debit credit : Account) :
    Except CreateTransferResult Movement :=
  match movementChecks t importedTs lastTs debit credit with
  | some code => .error code
  | none =>
    let amount := balancingAmount t debit credit
    match checkedAdd u128Max debit.debitsPosted amount with
    | none => .error .overflowsDebitsPosted
    | some debitsPosted =>
      match checkedAdd u128Max credit.creditsPosted amount with
      | none => .error .overflowsCreditsPosted
      | some creditsPosted =>
        let debit := { debit with debitsPosted := debitsPosted }
        let credit := { credit with creditsPosted := creditsPosted }
        match (totalChecks debit credit).or (balanceChecks debit credit) with
        | some code => .error code
        | none => .ok ⟨amount, debit, credit⟩

def closeAccounts (t : Transfer) (debit credit : Account) : Account × Account :=
  (if t.flags.contains .closingDebit then { debit with flags := debit.flags.union .closed }
    else debit,
   if t.flags.contains .closingCredit then { credit with flags := credit.flags.union .closed }
    else credit)

/-- Releasing a closing reservation without posting it reopens them. -/
def reopenAccounts (pending : Transfer) (debit credit : Account) : Account × Account :=
  (if pending.flags.contains .closingDebit then { debit with flags := debit.flags.without .closed }
    else debit,
   if pending.flags.contains .closingCredit then
      { credit with flags := credit.flags.without .closed }
    else credit)

/-- The body of `stage_pending` once both accounts are loaded. -/
def pendingMovement (t : Transfer) (prospectiveTs : ℕ) (importedTs : Option ℕ) (lastTs : ℕ)
    (debit credit : Account) : Except CreateTransferResult Movement :=
  match movementChecks t importedTs lastTs debit credit with
  | some code => .error code
  | none =>
    let amount := balancingAmount t debit credit
    match checkedAdd u128Max debit.debitsPending amount with
    | none => .error .overflowsDebitsPending
    | some debitsPending =>
      match checkedAdd u128Max credit.creditsPending amount with
      | none => .error .overflowsCreditsPending
      | some creditsPending =>
        let debit := { debit with debitsPending := debitsPending }
        let credit := { credit with creditsPending := creditsPending }
        match (totalChecks debit credit).or
            ((timeoutCheck t prospectiveTs).or (balanceChecks debit credit)) with
        | some code => .error code
        | none =>
          let closed := closeAccounts t debit credit
          .ok ⟨amount, closed.1, closed.2⟩

/-- Checks 44 to 48: the named transfer is pending and the given fields match it. -/
def pendingFieldChecks (t pending : Transfer) : Option CreateTransferResult :=
  firstFailing [
    (!pending.flags.contains .pending, .pendingTransferNotPending),
    (t.debitAccountId != 0 && t.debitAccountId != pending.debitAccountId,
      .pendingTransferHasDifferentDebitAccountId),
    (t.creditAccountId != 0 && t.creditAccountId != pending.creditAccountId,
      .pendingTransferHasDifferentCreditAccountId),
    (t.ledger != 0 && t.ledger != pending.ledger, .pendingTransferHasDifferentLedger),
    (t.code != 0 && t.code != pending.code, .pendingTransferHasDifferentCode)]

/-- Checks 49 and 50, with the amount a post moves or a void records. -/
def effectiveAmount (t pending : Transfer) (post : Bool) : Except CreateTransferResult ℕ :=
  if post then
    if t.amount == amountMax then .ok pending.amount
    else if t.amount > pending.amount then .error .exceedsPendingTransferAmount
    else .ok t.amount
  else if t.amount != 0 && t.amount != pending.amount then
    .error .pendingTransferHasDifferentAmount
  else .ok pending.amount

/-- Checks 51 and 52. -/
def priorResolution : Option PendingStatus → Option CreateTransferResult
  | some .posted => some .pendingTransferAlreadyPosted
  | some .voided => some .pendingTransferAlreadyVoided
  | some .expired => some .pendingTransferExpired
  | none => none

/-- Check 53, the lazy expiry backstop. -/
def lazilyExpired (pending : Transfer) (now : ℕ) : Bool :=
  pending.timeout != 0 && decide (expiryOf pending.timestamp pending.timeout ≤ now)

/-- The stored record of a resolution: inherited fields come from the pending. -/
def materialize (t pending : Transfer) (effective : ℕ) : Transfer :=
  { t with
    debitAccountId := pending.debitAccountId
    creditAccountId := pending.creditAccountId
    amount := effective
    ledger := pending.ledger
    code := if t.code != 0 then t.code else pending.code
    userData128 := if t.userData128 != 0 then t.userData128 else pending.userData128
    userData64 := if t.userData64 != 0 then t.userData64 else pending.userData64
    userData32 := if t.userData32 != 0 then t.userData32 else pending.userData32 }

/-- The reservation of `pending` taken out of the two pending buckets. -/
def releaseReservation (pending : Transfer) (debit credit : Account)
    (debitError creditError : InvariantError) : Except InvariantError (Account × Account) :=
  match checkedSub debit.debitsPending pending.amount with
  | none => .error debitError
  | some debitsPending =>
    match checkedSub credit.creditsPending pending.amount with
    | none => .error creditError
    | some creditsPending =>
      .ok ({ debit with debitsPending := debitsPending },
        { credit with creditsPending := creditsPending })

/-- The account part of `stage_resolution`: checks 54 to 57, the release of the
reservation, and the post or the reopening. -/
def resolutionMovement (t pending : Transfer) (post : Bool) (effective : ℕ)
    (importedTs : Option ℕ) (lastTs : ℕ) (debit credit : Account) :
    Except InvariantError (Except CreateTransferResult (Account × Account)) :=
  match importedTransferChecks importedTs lastTs debit.timestamp credit.timestamp t.timeout with
  | some code => .ok (.error code)
  | none => do
    let (debit, credit) ← releaseReservation pending debit credit
      .debitsPendingUnderflowOnResolve .creditsPendingUnderflowOnResolve
    if post then
      match checkedAdd u128Max debit.debitsPosted effective with
      | none => .ok (.error .overflowsDebitsPosted)
      | some debitsPosted =>
        match checkedAdd u128Max credit.creditsPosted effective with
        | none => .ok (.error .overflowsCreditsPosted)
        | some creditsPosted =>
          .ok (.ok ({ debit with debitsPosted := debitsPosted },
            { credit with creditsPosted := creditsPosted }))
    else .ok (.ok (reopenAccounts pending debit credit))

/-- Mutable state of one `createTransfers`: touched accounts, the ids of mutated
ones, pendings resolved by this call and expiry keys to delete. -/
structure ApplyState where
  working : U128 → Option Account
  dirty : Finset U128
  resolved : U128 → Option PendingStatus
  expiryRemovals : List ExpiryKey

namespace ApplyState

def default : ApplyState where
  working := fun _ => none
  dirty := ∅
  resolved := fun _ => none
  expiryRemovals := []

/-- Both accounts of a movement inserted into the working set and marked dirty. -/
def writeBack (state : ApplyState) (debit credit : Account) : ApplyState :=
  { state with
    working := put (put state.working debit.id debit) credit.id credit
    dirty := insert credit.id (insert debit.id state.dirty) }

def removeExpiry (state : ApplyState) (key : ExpiryKey) : ApplyState :=
  { state with expiryRemovals := state.expiryRemovals ++ [key] }

end ApplyState

/-- Read-through lookup: the first touch of a committed account caches it. -/
def loadAccount (db : Store) (id : U128) (state : ApplyState) : Option Account × ApplyState :=
  match state.working id with
  | some a => (some a, state)
  | none =>
    match db.accounts id with
    | some a => (some a, { state with working := put state.working id a })
    | none => (none, state)

/-- Load both accounts, run the body of a staging function on them, and write the
result back. -/
def stageMovement (db : Store) (t : Transfer)
    (movement : Account → Account → Except CreateTransferResult Movement) (state : ApplyState) :
    Except CreateTransferResult ℕ × ApplyState :=
  match loadAccount db t.debitAccountId state with
  | (none, state) => (.error .debitAccountNotFound, state)
  | (some debit, state) =>
    match loadAccount db t.creditAccountId state with
    | (none, state) => (.error .creditAccountNotFound, state)
    | (some credit, state) =>
      match movement debit credit with
      | .error code => (.error code, state)
      | .ok m => (.ok m.amount, state.writeBack m.debit m.credit)

def stageRegular (db : Store) (t : Transfer) (importedTs : Option ℕ) (lastTs : ℕ)
    (state : ApplyState) : Except CreateTransferResult ℕ × ApplyState :=
  stageMovement db t (regularMovement t importedTs lastTs) state

def stagePending (db : Store) (t : Transfer) (prospectiveTs : ℕ) (importedTs : Option ℕ)
    (lastTs : ℕ) (state : ApplyState) : Except CreateTransferResult ℕ × ApplyState :=
  stageMovement db t (pendingMovement t prospectiveTs importedTs lastTs) state

/-- Auto-void of one expiry-index entry. -/
def sweepOne (db : Store) (state : ApplyState) (key : ExpiryKey) :
    Except InvariantError ApplyState :=
  let pendingId := ExpiryKey.pendingId key
  if (state.resolved pendingId).isSome || (db.pendingStates pendingId).isSome then
    .ok (state.removeExpiry key)
  else
    match db.transfers pendingId with
    | none => .ok (state.removeExpiry key)
    | some pending =>
      match loadAccount db pending.debitAccountId state with
      | (none, _) => .error .expiredDebitAccountMissing
      | (some debit, state) =>
        match loadAccount db pending.creditAccountId state with
        | (none, _) => .error .expiredCreditAccountMissing
        | (some credit, state) => do
          let (debit, credit) ← releaseReservation pending debit credit
            .debitsPendingUnderflowOnExpiry .creditsPendingUnderflowOnExpiry
          let reopened := reopenAccounts pending debit credit
          let state := state.writeBack reopened.1 reopened.2
          let state := { state with resolved := put state.resolved pendingId .expired }
          .ok (state.removeExpiry key)

def sweepExpired (db : Store) (now : ℕ) (state : ApplyState) : Except InvariantError ApplyState :=
  (db.scanExpired now).foldlM (sweepOne db) state

section Backstop

/-! The lazy backstop of `stage_resolution` is a parameter up to `createTransfers`,
which runs with the engine's own `lazilyExpired`. -/

variable (backstop : Transfer → ℕ → Bool)

def stageResolution (db : Store) (t : Transfer) (pending : Option Transfer) (post : Bool)
    (now : ℕ) (importedTs : Option ℕ) (lastTs : ℕ) (state : ApplyState) :
    Except InvariantError (Except CreateTransferResult Transfer × ApplyState) :=
  match pending with
  | none => .ok (.error .pendingTransferNotFound, state)
  | some pending =>
    match pendingFieldChecks t pending with
    | some code => .ok (.error code, state)
    | none =>
      match effectiveAmount t pending post with
      | .error code => .ok (.error code, state)
      | .ok effective =>
        match priorResolution ((state.resolved pending.id).or (db.pendingStates pending.id)) with
        | some code => .ok (.error code, state)
        | none =>
          if backstop pending now then .ok (.error .pendingTransferExpired, state)
          else
            match loadAccount db pending.debitAccountId state with
            | (none, _) => .error .pendingDebitAccountMissing
            | (some debit, state) =>
              match loadAccount db pending.creditAccountId state with
              | (none, _) => .error .pendingCreditAccountMissing
              | (some credit, state) =>
                match resolutionMovement t pending post effective importedTs lastTs
                    debit credit with
                | .error e => .error e
                | .ok (.error code) => .ok (.error code, state)
                | .ok (.ok (debit, credit)) =>
                  let state := state.writeBack debit credit
                  let state := { state with
                    resolved := put state.resolved pending.id
                      (if post then .posted else .voided) }
                  let state := if pending.timeout != 0 then
                    state.removeExpiry
                      (expiryKey (expiryOf pending.timestamp pending.timeout) pending.id)
                    else state
                  .ok (.ok (materialize t pending effective), state)

/-- The mutable locals of one `createTransfers`. -/
structure TransferWork where
  ts : TimestampSource
  state : ApplyState
  staged : U128 → Option Transfer
  accepted : List Transfer
  failedIds : Finset U128

/-- The record a transfer would be stored as, before its timestamp is assigned. -/
def stageTransfer (db : Store) (batchImported : Bool) (now : ℕ) (w : TransferWork)
    (t : Transfer) : Except InvariantError (Except CreateTransferResult Transfer × ApplyState) :=
  let importedTs := if batchImported then some t.timestamp else none
  let lastTs := w.ts.last
  match classify t with
  | .regular =>
    let (outcome, state) := stageRegular db t importedTs lastTs w.state
    .ok (outcome.map fun amount => { t with amount := amount }, state)
  | .pendingReserve =>
    let prospectiveTs := importedTs.getD (w.ts.peek now)
    let (outcome, state) := stagePending db t prospectiveTs importedTs lastTs w.state
    .ok (outcome.map fun amount => { t with amount := amount }, state)
  | .post =>
    stageResolution backstop db t ((db.transfers t.pendingId).or (w.staged t.pendingId)) true now
      importedTs lastTs w.state
  | .void =>
    stageResolution backstop db t ((db.transfers t.pendingId).or (w.staged t.pendingId)) false now
      importedTs lastTs w.state

/-- Validate, classify and apply one transfer. -/
def processTransfer (db : Store) (batchImported : Bool) (now : ℕ) (w : TransferWork)
    (t : Transfer) : Except InvariantError (CreateTransferResult × TransferWork) :=
  match validateTransferPreExistence t batchImported now with
  | some code => .ok (code, w)
  | none =>
    match (db.transfers t.id).or (w.staged t.id) with
    | some existing => .ok (transferExistsResult t existing, w)
    | none =>
      if t.id ∈ w.failedIds ∨ t.id ∈ db.failed then .ok (.idAlreadyFailed, w)
      else
        match validateTransferPostExistence t with
        | some code => .ok (code, w)
        | none => do
          let (record, state) ← stageTransfer backstop db batchImported now w t
          match record with
          | .error code => .ok (code, { w with state := state })
          | .ok record =>
            let (timestamp, ts) :=
              if batchImported then (t.timestamp, w.ts.assignImported t.timestamp)
              else w.ts.next now
            let applied := { record with timestamp := timestamp }
            .ok (.created, { w with
              ts := ts
              state := state
              staged := put w.staged applied.id applied
              accepted := w.accepted ++ [applied] })

/-- A failed chain: the snapshots come back, `accepted` is truncated, and the
burned ids stay. -/
def TransferWork.rollback (w snapshot : TransferWork) : TransferWork where
  ts := ⟨snapshot.ts.last⟩
  state := snapshot.state
  staged := snapshot.staged
  accepted := w.accepted.take snapshot.accepted.length
  failedIds := w.failedIds

/-- The ids of a chain's items whose final code burns. -/
def burnedIds (codes : List (Transfer × CreateTransferResult)) : Finset U128 :=
  ((codes.filter fun p => transferBurnsId p.2).map fun p => p.1.id).toFinset

def transferOps (db : Store) (batchImported : Bool) (now : ℕ) :
    BatchOps InvariantError CreateTransferResult Transfer TransferWork where
  process := processTransfer backstop db batchImported now
  rollback := TransferWork.rollback
  finish w codes := { w with failedIds := w.failedIds ∪ burnedIds codes }
  settled r := r == .created || r == .exists_
  linkedFailed := .linkedEventFailed
  chainOpen := .linkedEventChainOpen

/-- The imported-ness of a batch is that of its first transfer. -/
def transfersImported (transfers : List Transfer) : Bool :=
  transfers.head?.any fun t => t.flags.contains .imported

def transferLinked (t : Transfer) : Bool := t.flags.contains .linked

def chainSegments {α : Type} (linked : α → Bool) (batch : List α) : List (Segment α) :=
  (chains (batch.map linked)).map fun c => ⟨c.slice batch, c.isOpen⟩

/-- Everything `createTransfers` does before its write batch. -/
def applyTransfersWith (db : Store) (now : ℕ) (transfers : List Transfer) :
    Except InvariantError (List CreateTransferResult × TransferWork) := do
  let state ← sweepExpired db now .default
  (transferOps backstop db (transfersImported transfers) now).runSegments
    (chainSegments transferLinked transfers)
    ⟨⟨db.getWatermark⟩, state, fun _ => none, [], ∅⟩

end Backstop

/-- A new timed pending gets an expiry-index entry. -/
def putExpiry (index : OrderedIndex ExpiryKey) (t : Transfer) : OrderedIndex ExpiryKey :=
  if t.flags.contains .pending && t.timeout != 0 then
    index.put (expiryKey (expiryOf t.timestamp t.timeout) t.id)
  else index

/-- The atomic write batch of `createTransfers`. The maps it iterates over write
each key once; index puts come before index deletes. -/
def commitTransfers (db : Store) (w : TransferWork) : Store where
  accounts id := if id ∈ w.state.dirty then (w.state.working id).or (db.accounts id)
    else db.accounts id
  transfers := w.accepted.foldl (fun m t => put m t.id t) db.transfers
  pendingStates id := (w.state.resolved id).or (db.pendingStates id)
  expiry := w.state.expiryRemovals.foldl OrderedIndex.delete (w.accepted.foldl putExpiry db.expiry)
  failed := db.failed ∪ w.failedIds
  watermark := if w.accepted.isEmpty then db.watermark else some w.ts.last

def createTransfersWith (backstop : Transfer → ℕ → Bool) (db : Store) (now : ℕ)
    (transfers : List Transfer) : Except InvariantError (List CreateTransferResult × Store) := do
  let (results, w) ← applyTransfersWith backstop db now transfers
  .ok (results, commitTransfers db w)

def applyTransfers (db : Store) (now : ℕ) (transfers : List Transfer) :
    Except InvariantError (List CreateTransferResult × TransferWork) :=
  applyTransfersWith lazilyExpired db now transfers

def createTransfers (db : Store) (now : ℕ) (transfers : List Transfer) :
    Except InvariantError (List CreateTransferResult × Store) :=
  createTransfersWith lazilyExpired db now transfers

/-- The mutable locals of one `createAccounts`. -/
structure AccountWork where
  ts : TimestampSource
  staged : U128 → Option Account
  accepted : List Account

def stageAccount (db : Store) (batchImported : Bool) (now : ℕ) (w : AccountWork)
    (spec : Account) : CreateAccountResult × AccountWork :=
  match validateAccountPreExistence spec batchImported now with
  | some code => (code, w)
  | none =>
    match (db.accounts spec.id).or (w.staged spec.id) with
    | some existing => (accountExistsResult spec existing, w)
    | none =>
      match validateAccountPostExistence spec with
      | some code => (code, w)
      | none =>
        if batchImported && decide (spec.timestamp ≤ w.ts.last) then
          (.importedEventTimestampMustNotRegress, w)
        else
          let (timestamp, ts) := if batchImported
            then (spec.timestamp, w.ts.assignImported spec.timestamp)
            else w.ts.next now
          let acct := { spec with timestamp := timestamp }
          (.created, {
            ts := ts
            staged := put w.staged acct.id acct
            accepted := w.accepted ++ [acct] })

def AccountWork.rollback (w snapshot : AccountWork) : AccountWork where
  ts := ⟨snapshot.ts.last⟩
  staged := snapshot.staged
  accepted := w.accepted.take snapshot.accepted.length

def accountOps (db : Store) (batchImported : Bool) (now : ℕ) :
    BatchOps Empty CreateAccountResult Account AccountWork where
  process w spec := .ok (stageAccount db batchImported now w spec)
  rollback := AccountWork.rollback
  finish w _ := w
  settled r := r == .created || r == .exists_
  linkedFailed := .linkedEventFailed
  chainOpen := .linkedEventChainOpen

def accountsImported (specs : List Account) : Bool :=
  specs.head?.any fun a => a.flags.contains .imported

def accountLinked (a : Account) : Bool := a.flags.contains .linked

/-- Everything `createAccounts` does before its write batch. -/
def applyAccounts (db : Store) (now : ℕ) (specs : List Account) :
    Except Empty (List CreateAccountResult × AccountWork) :=
  (accountOps db (accountsImported specs) now).runSegments (chainSegments accountLinked specs)
    ⟨⟨db.getWatermark⟩, fun _ => none, []⟩

def commitAccounts (db : Store) (w : AccountWork) : Store :=
  { db with
    accounts := w.accepted.foldl (fun m a => put m a.id a) db.accounts
    watermark := if w.accepted.isEmpty then db.watermark else some w.ts.last }

def createAccounts (db : Store) (now : ℕ) (specs : List Account) :
    Except Empty (List CreateAccountResult × Store) := do
  let (results, w) ← applyAccounts db now specs
  .ok (results, commitAccounts db w)

end BlueDB.Ledger
