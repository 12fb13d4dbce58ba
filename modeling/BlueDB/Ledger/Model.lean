import BlueDB.Lib.Machine

/-!
# Ledger data model

Accounts, transfers, the per-item result codes and the input validators in the
order in which the first failing check decides. Ids are `u128`; amounts, user
data and timestamps are natural numbers whose width shows up in the checked,
saturating and wrapping operations.
-/

namespace BlueDB.Ledger

/-- 128-bit identifiers of accounts and transfers. -/
abbrev U128 := Fin (2 ^ 128)

instance neZeroU128 : NeZero (2 ^ 128) := ⟨by decide⟩

def u128Max : ℕ := 2 ^ 128 - 1

def u64Max : ℕ := 2 ^ 64 - 1

/-- `u128::MAX` as an id. -/
def idMax : U128 := ⟨u128Max, by decide⟩

/-- The "full pending" amount of a post. -/
def amountMax : ℕ := u128Max

/-- Timestamps are capped at `2^63 - 1`. -/
def timestampMax : ℕ := 2 ^ 63 - 1

structure AccountFlags where
  bits : BitVec 16
deriving DecidableEq, Repr

namespace AccountFlags

def none : AccountFlags := ⟨0#16⟩
def linked : AccountFlags := ⟨bit 16 0⟩
def debitsMustNotExceedCredits : AccountFlags := ⟨bit 16 1⟩
def creditsMustNotExceedDebits : AccountFlags := ⟨bit 16 2⟩
def history : AccountFlags := ⟨bit 16 3⟩
def imported : AccountFlags := ⟨bit 16 4⟩
def closed : AccountFlags := ⟨bit 16 5⟩

/-- Every defined flag bit. -/
def defined : BitVec 16 := 0b111111#16

def contains (self other : AccountFlags) : Bool := bitsContain self.bits other.bits

def hasReservedBits (self : AccountFlags) : Bool := self.bits &&& ~~~defined != 0#16

def isMutuallyExclusiveViolation (self : AccountFlags) : Bool :=
  self.contains debitsMustNotExceedCredits && self.contains creditsMustNotExceedDebits

def without (self other : AccountFlags) : AccountFlags := ⟨bitsWithout self.bits other.bits⟩

def union (self other : AccountFlags) : AccountFlags := ⟨self.bits ||| other.bits⟩

@[simp] theorem contains_union_closed (f : AccountFlags) :
    (f.union closed).contains closed = true := by
  simp [contains, union, closed, bitsContain_or_bit]

@[simp] theorem contains_without_closed (f : AccountFlags) :
    (f.without closed).contains closed = false := by
  simp [contains, without, closed, bitsContain_without_bit]

/-- Closing and reopening touch no other flag. -/
structure SameLimits (f g : AccountFlags) : Prop where
  debits : g.contains debitsMustNotExceedCredits = f.contains debitsMustNotExceedCredits
  credits : g.contains creditsMustNotExceedDebits = f.contains creditsMustNotExceedDebits

theorem SameLimits.refl (f : AccountFlags) : SameLimits f f := ⟨rfl, rfl⟩

theorem sameLimits_union_closed (f : AccountFlags) : SameLimits f (f.union closed) := by
  constructor <;>
    simp [contains, union, closed, debitsMustNotExceedCredits, creditsMustNotExceedDebits,
      bitsContain_or_bit]

theorem sameLimits_without_closed (f : AccountFlags) : SameLimits f (f.without closed) := by
  constructor <;>
    simp [contains, without, closed, debitsMustNotExceedCredits, creditsMustNotExceedDebits,
      bitsContain_without_bit]

end AccountFlags

structure TransferFlags where
  bits : BitVec 16
deriving DecidableEq, Repr

namespace TransferFlags

def none : TransferFlags := ⟨0#16⟩
def linked : TransferFlags := ⟨bit 16 0⟩
def pending : TransferFlags := ⟨bit 16 1⟩
def postPendingTransfer : TransferFlags := ⟨bit 16 2⟩
def voidPendingTransfer : TransferFlags := ⟨bit 16 3⟩
def balancingDebit : TransferFlags := ⟨bit 16 4⟩
def balancingCredit : TransferFlags := ⟨bit 16 5⟩
def closingDebit : TransferFlags := ⟨bit 16 6⟩
def closingCredit : TransferFlags := ⟨bit 16 7⟩
def imported : TransferFlags := ⟨bit 16 8⟩

/-- Every defined flag bit. -/
def defined : BitVec 16 := 0b111111111#16

def contains (self other : TransferFlags) : Bool := bitsContain self.bits other.bits

def hasReservedBits (self : TransferFlags) : Bool := self.bits &&& ~~~defined != 0#16

def union (self other : TransferFlags) : TransferFlags := ⟨self.bits ||| other.bits⟩

def isClosing (self : TransferFlags) : Bool :=
  self.contains closingDebit || self.contains closingCredit

def isMutuallyExclusiveViolation (self : TransferFlags) : Bool :=
  let pending := self.contains pending
  let post := self.contains postPendingTransfer
  let void := self.contains voidPendingTransfer
  let phaseCount := ([pending, post, void].filter id).length
  let balancing := self.contains balancingDebit || self.contains balancingCredit
  if phaseCount > 1 then true
  else if (post || void) && (balancing || self.isClosing) then true
  else false

/-- A post or a void. -/
def isResolution (self : TransferFlags) : Bool :=
  self.contains postPendingTransfer || self.contains voidPendingTransfer

end TransferFlags

structure Account where
  id : U128
  debitsPending : ℕ
  debitsPosted : ℕ
  creditsPending : ℕ
  creditsPosted : ℕ
  userData128 : ℕ
  userData64 : ℕ
  userData32 : ℕ
  reserved : ℕ
  ledger : ℕ
  code : ℕ
  flags : AccountFlags
  timestamp : ℕ
deriving DecidableEq, Repr

/-- A create-input account with zero balances and no flags. -/
def Account.input (id : U128) (ledger : ℕ) : Account where
  id := id
  debitsPending := 0
  debitsPosted := 0
  creditsPending := 0
  creditsPosted := 0
  userData128 := 0
  userData64 := 0
  userData32 := 0
  reserved := 0
  ledger := ledger
  code := 0
  flags := .none
  timestamp := 0

structure Transfer where
  id : U128
  debitAccountId : U128
  creditAccountId : U128
  amount : ℕ
  pendingId : U128
  userData128 : ℕ
  userData64 : ℕ
  userData32 : ℕ
  ledger : ℕ
  code : ℕ
  flags : TransferFlags
  timeout : ℕ
  timestamp : ℕ
deriving DecidableEq, Repr

/-- A minimal posted transfer. -/
def Transfer.new (id debitAccountId creditAccountId : U128) (amount ledger : ℕ) : Transfer where
  id := id
  debitAccountId := debitAccountId
  creditAccountId := creditAccountId
  amount := amount
  pendingId := 0
  userData128 := 0
  userData64 := 0
  userData32 := 0
  ledger := ledger
  code := 0
  flags := .none
  timeout := 0
  timestamp := 0

inductive CreateAccountResult where
  | created
  | linkedEventFailed
  | linkedEventChainOpen
  | importedEventExpected
  | importedEventNotExpected
  | timestampMustBeZero
  | importedEventTimestampOutOfRange
  | importedEventTimestampMustNotAdvance
  | reservedField
  | reservedFlag
  | idMustNotBeZero
  | idMustNotBeIntMax
  | existsWithDifferentFlags
  | existsWithDifferentUserData128
  | existsWithDifferentUserData64
  | existsWithDifferentUserData32
  | existsWithDifferentLedger
  | existsWithDifferentCode
  | exists_
  | flagsAreMutuallyExclusive
  | debitsPendingMustBeZero
  | debitsPostedMustBeZero
  | creditsPendingMustBeZero
  | creditsPostedMustBeZero
  | ledgerMustNotBeZero
  | codeMustNotBeZero
  | importedEventTimestampMustNotRegress
deriving DecidableEq, Repr

inductive CreateTransferResult where
  | created
  | linkedEventFailed
  | linkedEventChainOpen
  | importedEventExpected
  | importedEventNotExpected
  | timestampMustBeZero
  | importedEventTimestampOutOfRange
  | importedEventTimestampMustNotAdvance
  | reservedFlag
  | idMustNotBeZero
  | idMustNotBeIntMax
  | existsWithDifferentFlags
  | existsWithDifferentPendingId
  | existsWithDifferentTimeout
  | existsWithDifferentDebitAccountId
  | existsWithDifferentCreditAccountId
  | existsWithDifferentAmount
  | existsWithDifferentUserData128
  | existsWithDifferentUserData64
  | existsWithDifferentUserData32
  | existsWithDifferentLedger
  | existsWithDifferentCode
  | exists_
  | idAlreadyFailed
  | flagsAreMutuallyExclusive
  | debitAccountIdMustNotBeZero
  | debitAccountIdMustNotBeIntMax
  | creditAccountIdMustNotBeZero
  | creditAccountIdMustNotBeIntMax
  | accountsMustBeDifferent
  | pendingIdMustBeZero
  | pendingIdMustNotBeZero
  | pendingIdMustNotBeIntMax
  | pendingIdMustBeDifferent
  | timeoutReservedForPendingTransfer
  | closingTransferMustBePending
  | ledgerMustNotBeZero
  | codeMustNotBeZero
  | debitAccountNotFound
  | creditAccountNotFound
  | accountsMustHaveTheSameLedger
  | transferMustHaveTheSameLedgerAsAccounts
  | pendingTransferNotFound
  | pendingTransferNotPending
  | pendingTransferHasDifferentDebitAccountId
  | pendingTransferHasDifferentCreditAccountId
  | pendingTransferHasDifferentLedger
  | pendingTransferHasDifferentCode
  | exceedsPendingTransferAmount
  | pendingTransferHasDifferentAmount
  | pendingTransferAlreadyPosted
  | pendingTransferAlreadyVoided
  | pendingTransferExpired
  | importedEventTimestampMustNotRegress
  | importedEventTimestampMustPostdateDebitAccount
  | importedEventTimestampMustPostdateCreditAccount
  | importedEventTimeoutMustBeZero
  | debitAccountAlreadyClosed
  | creditAccountAlreadyClosed
  | overflowsDebitsPending
  | overflowsCreditsPending
  | overflowsDebitsPosted
  | overflowsCreditsPosted
  | overflowsDebits
  | overflowsCredits
  | overflowsTimeout
  | exceedsCredits
  | exceedsDebits
deriving DecidableEq, Repr

/-- Resolution state of a pending transfer. -/
inductive PendingStatus where
  | posted
  | voided
  | expired
deriving DecidableEq, Repr

/-- How a validated transfer is applied. -/
inductive TransferOp where
  | regular
  | pendingReserve
  | post
  | void
deriving DecidableEq, Repr

def classify (t : Transfer) : TransferOp :=
  if t.flags.contains .postPendingTransfer then .post
  else if t.flags.contains .voidPendingTransfer then .void
  else if t.flags.contains .pending then .pendingReserve
  else .regular

/-- The transient codes: a retry of an id that failed with one of them is refused. -/
def transferBurnsId : CreateTransferResult → Bool
  | .debitAccountNotFound | .creditAccountNotFound | .pendingTransferNotFound
  | .exceedsCredits | .exceedsDebits
  | .debitAccountAlreadyClosed | .creditAccountAlreadyClosed => true
  | _ => false

/-- A contiguous run of batch events, `start` to `last` inclusive. -/
structure Chain where
  start : ℕ
  last : ℕ
  isOpen : Bool
deriving DecidableEq, Repr

/-- The loop of `chains` with the run that began at `start` read up to position `i`. -/
def chainsFrom (start i : ℕ) : List Bool → List Chain
  | [] => if start < i then [⟨start, i - 1, true⟩] else []
  | true :: rest => chainsFrom start (i + 1) rest
  | false :: rest => ⟨start, i, false⟩ :: chainsFrom (i + 1) (i + 1) rest

/-- Group a batch into chains from each event's `linked` flag. -/
def chains (linked : List Bool) : List Chain := chainsFrom 0 0 linked

/-- The events `start..=last` of a batch. -/
def Chain.slice {α : Type*} (c : Chain) (l : List α) : List α :=
  (l.drop c.start).take (c.last + 1 - c.start)

example : chains [false, true, true] = [⟨0, 0, false⟩, ⟨1, 2, true⟩] := rfl

def validateAccountPreExistence (a : Account) (batchImported : Bool) (now : ℕ) :
    Option CreateAccountResult :=
  let imported := a.flags.contains .imported
  firstFailing [
    (batchImported && !imported, .importedEventExpected),
    (!batchImported && imported, .importedEventNotExpected),
    (imported && (a.timestamp == 0 || decide (timestampMax < a.timestamp)),
      .importedEventTimestampOutOfRange),
    (imported && decide (now < a.timestamp), .importedEventTimestampMustNotAdvance),
    (!imported && a.timestamp != 0, .timestampMustBeZero),
    (a.reserved != 0, .reservedField),
    (a.flags.hasReservedBits, .reservedFlag),
    (a.id == 0, .idMustNotBeZero),
    (a.id == idMax, .idMustNotBeIntMax)]

def validateAccountPostExistence (a : Account) : Option CreateAccountResult :=
  firstFailing [
    (a.flags.isMutuallyExclusiveViolation, .flagsAreMutuallyExclusive),
    (a.debitsPending != 0, .debitsPendingMustBeZero),
    (a.debitsPosted != 0, .debitsPostedMustBeZero),
    (a.creditsPending != 0, .creditsPendingMustBeZero),
    (a.creditsPosted != 0, .creditsPostedMustBeZero),
    (a.ledger == 0, .ledgerMustNotBeZero),
    (a.code == 0, .codeMustNotBeZero)]

/-- Field-by-field comparison with the existing account of the same id. -/
def accountExistsResult (incoming existing : Account) : CreateAccountResult :=
  (firstFailing [
    (incoming.flags != existing.flags, CreateAccountResult.existsWithDifferentFlags),
    (incoming.userData128 != existing.userData128, .existsWithDifferentUserData128),
    (incoming.userData64 != existing.userData64, .existsWithDifferentUserData64),
    (incoming.userData32 != existing.userData32, .existsWithDifferentUserData32),
    (incoming.ledger != existing.ledger, .existsWithDifferentLedger),
    (incoming.code != existing.code, .existsWithDifferentCode)]).getD .exists_

def validateTransferPreExistence (t : Transfer) (batchImported : Bool) (now : ℕ) :
    Option CreateTransferResult :=
  let imported := t.flags.contains .imported
  firstFailing [
    (batchImported && !imported, .importedEventExpected),
    (!batchImported && imported, .importedEventNotExpected),
    (imported && (t.timestamp == 0 || decide (timestampMax < t.timestamp)),
      .importedEventTimestampOutOfRange),
    (imported && decide (now < t.timestamp), .importedEventTimestampMustNotAdvance),
    (!imported && t.timestamp != 0, .timestampMustBeZero),
    (t.flags.hasReservedBits, .reservedFlag),
    (t.id == 0, .idMustNotBeZero),
    (t.id == idMax, .idMustNotBeIntMax)]

def validateTransferPostExistence (t : Transfer) : Option CreateTransferResult :=
  let isResolution := t.flags.isResolution
  firstFailing [
    (t.flags.isMutuallyExclusiveViolation, .flagsAreMutuallyExclusive),
    (!isResolution && t.debitAccountId == 0, .debitAccountIdMustNotBeZero),
    (!isResolution && t.debitAccountId == idMax, .debitAccountIdMustNotBeIntMax),
    (!isResolution && t.creditAccountId == 0, .creditAccountIdMustNotBeZero),
    (!isResolution && t.creditAccountId == idMax, .creditAccountIdMustNotBeIntMax),
    (!isResolution && t.debitAccountId == t.creditAccountId, .accountsMustBeDifferent),
    (isResolution && t.pendingId == 0, .pendingIdMustNotBeZero),
    (isResolution && t.pendingId == idMax, .pendingIdMustNotBeIntMax),
    (isResolution && t.pendingId == t.id, .pendingIdMustBeDifferent),
    (!isResolution && t.pendingId != 0, .pendingIdMustBeZero),
    (!t.flags.contains .pending && t.timeout != 0, .timeoutReservedForPendingTransfer),
    (t.flags.isClosing && !t.flags.contains .pending, .closingTransferMustBePending),
    (!isResolution && t.ledger == 0, .ledgerMustNotBeZero),
    (!isResolution && t.code == 0, .codeMustNotBeZero)]

/-- A field differs; a zero field of a resolution is inherited and matches anything. -/
def differs {α : Type*} [DecidableEq α] (zero : α) (resolution : Bool) (inc ex : α) : Bool :=
  if resolution then inc != zero && inc != ex else inc != ex

/-- Field-by-field comparison with the existing transfer of the same id. -/
def transferExistsResult (incoming existing : Transfer) : CreateTransferResult :=
  let resolution := incoming.flags.isResolution
  let amountWildcard := if incoming.flags.contains .postPendingTransfer then amountMax else 0
  (firstFailing [
    (incoming.flags != existing.flags, CreateTransferResult.existsWithDifferentFlags),
    (incoming.pendingId != existing.pendingId, .existsWithDifferentPendingId),
    (incoming.timeout != existing.timeout, .existsWithDifferentTimeout),
    (differs 0 resolution incoming.debitAccountId existing.debitAccountId,
      .existsWithDifferentDebitAccountId),
    (differs 0 resolution incoming.creditAccountId existing.creditAccountId,
      .existsWithDifferentCreditAccountId),
    (differs amountWildcard resolution incoming.amount existing.amount,
      .existsWithDifferentAmount),
    (differs 0 resolution incoming.userData128 existing.userData128,
      .existsWithDifferentUserData128),
    (differs 0 resolution incoming.userData64 existing.userData64,
      .existsWithDifferentUserData64),
    (differs 0 resolution incoming.userData32 existing.userData32,
      .existsWithDifferentUserData32),
    (differs 0 resolution incoming.ledger existing.ledger, .existsWithDifferentLedger),
    (differs 0 resolution incoming.code existing.code, .existsWithDifferentCode)]).getD .exists_

end BlueDB.Ledger
