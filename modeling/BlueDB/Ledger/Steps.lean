import BlueDB.Ledger.Decisions

/-!
# The steps of the ledger

Everything a call can do to the book is one of six steps: open an account, post
a transfer, reserve, settle a reservation, expire one, or burn ids. A step
carries the guards that were checked before it, in terms of the records that it
writes, so that invariants of the ledger are proved once for each step.
-/

namespace BlueDB.Ledger

theorem classify_eq_regular {t : Transfer} :
    classify t = .regular ↔
      t.flags.isResolution = false ∧ t.flags.contains .pending = false := by
  unfold classify TransferFlags.isResolution
  cases t.flags.contains .postPendingTransfer <;> cases t.flags.contains .voidPendingTransfer <;>
    cases t.flags.contains .pending <;> simp

theorem classify_eq_pendingReserve {t : Transfer} :
    classify t = .pendingReserve ↔
      t.flags.isResolution = false ∧ t.flags.contains .pending = true := by
  unfold classify TransferFlags.isResolution
  cases t.flags.contains .postPendingTransfer <;> cases t.flags.contains .voidPendingTransfer <;>
    cases t.flags.contains .pending <;> simp

/-- How a resolution with the given verdict is classified. -/
def TransferOp.ofPost (post : Bool) : TransferOp := if post then .post else .void

theorem isResolution_of_classify {t : Transfer} {post : Bool}
    (h : classify t = TransferOp.ofPost post) : t.flags.isResolution = true := by
  revert h
  unfold classify TransferFlags.isResolution TransferOp.ofPost
  cases post <;> cases t.flags.contains .postPendingTransfer <;>
    cases t.flags.contains .voidPendingTransfer <;> cases t.flags.contains .pending <;> simp

theorem TransferFlags.not_pending_of_isResolution {f : TransferFlags}
    (hx : f.isMutuallyExclusiveViolation = false) (hr : f.isResolution = true) :
    f.contains .pending = false := by
  revert hx hr
  unfold isMutuallyExclusiveViolation isResolution
  cases f.contains .pending <;> cases f.contains .postPendingTransfer <;>
    cases f.contains .voidPendingTransfer <;> simp

/-- What the post-existence checks guarantee of an admitted transfer. -/
structure WellFormed (t : Transfer) : Prop where
  exclusive : t.flags.isMutuallyExclusiveViolation = false
  distinct : t.flags.isResolution = false → t.debitAccountId ≠ t.creditAccountId
  timed : t.timeout ≠ 0 → t.flags.contains .pending = true
  closing : t.flags.isClosing = true → t.flags.contains .pending = true

theorem wellFormed_of_validate {t : Transfer} (h : validateTransferPostExistence t = none) :
    WellFormed t := by
  unfold validateTransferPostExistence at h
  simp only [firstFailing_eq_none, List.forall_mem_cons, Bool.and_eq_false_iff,
    Bool.not_eq_false', beq_eq_false_iff_ne, bne_eq_false_iff_eq] at h
  obtain ⟨hx, -, -, -, -, hdistinct, -, -, -, -, htimed, hclosing, -⟩ := h
  refine ⟨hx, ?_, ?_, ?_⟩
  · intro hr
    rcases hdistinct with h | h
    · simp [hr] at h
    · exact h
  · intro ht
    rcases htimed with h | h
    · exact h
    · exact absurd h ht
  · intro hc
    rcases hclosing with h | h
    · simp [hc] at h
    · exact h

/-- A timestamp assigned under a watermark: it advances, or both have saturated. -/
structure Stamped (watermark timestamp : ℕ) : Prop where
  advances : watermark < u64Max → watermark < timestamp
  saturated : u64Max ≤ watermark → u64Max ≤ timestamp

theorem Stamped.of_lt {watermark timestamp : ℕ} (h : watermark < timestamp) :
    Stamped watermark timestamp :=
  ⟨fun _ => h, fun hs => hs.trans h.le⟩

theorem stamped_peek (watermark now : ℕ) :
    Stamped watermark (TimestampSource.peek ⟨watermark⟩ now) := by
  unfold TimestampSource.peek saturatingAdd
  constructor
  · intro h
    dsimp only
    omega
  · intro h
    dsimp only
    omega

theorem stamped_assigned {batchImported : Bool} {now watermark timestamp : ℕ}
    (h : batchImported = true → watermark < timestamp) :
    Stamped watermark (assignedTimestamp batchImported now watermark timestamp) := by
  cases batchImported with
  | true => exact Stamped.of_lt (h rfl)
  | false => exact stamped_peek watermark now

/-- What holds of every record before it is filed. -/
structure Files (s : Store) (r : Transfer) : Prop where
  fresh : s.transfers r.id = none
  notFailed : r.id ∉ s.failed
  stamped : Stamped s.getWatermark r.timestamp
  wellFormed : WellFormed r

structure Between (s : Store) (r : Transfer) (debit credit : Account) : Prop where
  debitAccount : s.accounts r.debitAccountId = some debit
  creditAccount : s.accounts r.creditAccountId = some credit

/-- Neither account is closed. -/
structure BothOpen (debit credit : Account) : Prop where
  debitOpen : debit.flags.contains .closed = false
  creditOpen : credit.flags.contains .closed = false

/-- The effect of posting `r` at once. -/
def moveEffect (r : Transfer) (debit credit : Account) : Effect where
  debit := { debit with debitsPosted := debit.debitsPosted + r.amount }
  credit := { credit with creditsPosted := credit.creditsPosted + r.amount }
  record := r
  resolved := none

structure Moves (s : Store) (r : Transfer) (debit credit : Account) : Prop
    extends Files s r, Between s r debit credit, BothOpen debit credit where
  kind : classify r = .regular
  within : WithinLimits (moveEffect r debit credit).debit (moveEffect r debit credit).credit

/-- The effect of reserving `r`, without the closing of its accounts. -/
def reservedAccounts (r : Transfer) (debit credit : Account) : Account × Account :=
  ({ debit with debitsPending := debit.debitsPending + r.amount },
    { credit with creditsPending := credit.creditsPending + r.amount })

def reserveEffect (r : Transfer) (debit credit : Account) : Effect :=
  let reserved := reservedAccounts r debit credit
  let closed := closeAccounts r reserved.1 reserved.2
  ⟨closed.1, closed.2, r, none⟩

structure Reserves (now : ℕ) (s : Store) (r : Transfer) (debit credit : Account) : Prop
    extends Files s r, Between s r debit credit, BothOpen debit credit where
  kind : classify r = .pendingReserve
  within : WithinLimits (reservedAccounts r debit credit).1 (reservedAccounts r debit credit).2
  expiry : r.timeout ≠ 0 → now < r.timestamp + r.timeout * nanosPerSecond ∧
    r.timestamp + r.timeout * nanosPerSecond ≤ timestampMax

/-- The effect of posting or voiding `pending` with the record `r`. -/
def settleEffect (r pending : Transfer) (post : Bool) (debit credit : Account) : Effect :=
  let settled := settledAccounts pending post r.amount debit credit
  ⟨settled.1, settled.2, r, some (pending, PendingStatus.ofPost post)⟩

/-- A stored pending without a pending state, together with its two accounts. -/
structure Outstanding (s : Store) (pending : Transfer) (debit credit : Account) : Prop
    extends Between s pending debit credit where
  stored : s.transfers pending.id = some pending
  reserve : pending.flags.contains .pending = true
  unresolved : s.pendingStates pending.id = none
  debitReserved : pending.amount ≤ debit.debitsPending
  creditReserved : pending.amount ≤ credit.creditsPending

structure Settles (s : Store) (r pending : Transfer) (post : Bool) (debit credit : Account) : Prop
    extends Files s r, Outstanding s pending debit credit where
  kind : classify r = TransferOp.ofPost post
  sameDebit : r.debitAccountId = pending.debitAccountId
  sameCredit : r.creditAccountId = pending.creditAccountId
  amount : r.amount ≤ pending.amount
  voidAmount : post = false → r.amount = pending.amount
  names : r.pendingId = pending.id

/-- An account as it is opened. -/
structure Opens (s : Store) (a : Account) : Prop where
  fresh : s.accounts a.id = none
  stamped : Stamped s.getWatermark a.timestamp
  debitsPending : a.debitsPending = 0
  debitsPosted : a.debitsPosted = 0
  creditsPending : a.creditsPending = 0
  creditsPosted : a.creditsPosted = 0

def Book.open (b : Book) (a : Account) : Book :=
  ⟨b.store.openAccount a, b.log ++ [.account a]⟩

def Book.file (b : Book) (e : Effect) : Book := ⟨b.store.enact e, b.log ++ [.transfer e.record]⟩

/-- The store after the auto-void of a lapsed pending. -/
def Store.expire (s : Store) (pending : Transfer) (debit credit : Account) : Store :=
  let released := settledAccounts pending false pending.amount debit credit
  ((s.putAccounts released.1 released.2).resolve pending.id .expired).dropPending pending

/-- One step of the ledger within a call that read the clock as `now`. -/
inductive Step (now : ℕ) (b : Book) : Book → Prop
  | opened {a : Account} (h : Opens b.store a) : Step now b (b.open a)
  | moved {r : Transfer} {debit credit : Account} (h : Moves b.store r debit credit) :
      Step now b (b.file (moveEffect r debit credit))
  | reserved {r : Transfer} {debit credit : Account} (h : Reserves now b.store r debit credit) :
      Step now b (b.file (reserveEffect r debit credit))
  | settled {r pending : Transfer} {post : Bool} {debit credit : Account}
      (h : Settles b.store r pending post debit credit) :
      Step now b (b.file (settleEffect r pending post debit credit))
  | expired {pending : Transfer} {debit credit : Account}
      (h : Outstanding b.store pending debit credit) (timed : pending.timeout ≠ 0)
      (due : expiryOf pending.timestamp pending.timeout ≤ now) :
      Step now b { b with store := b.store.expire pending debit credit }
  | burned {ids : Finset U128} (h : ∀ id ∈ ids, b.store.transfers id = none) :
      Step now b { b with store := b.store.burn ids }

/-- Any number of steps. -/
abbrev Steps (now : ℕ) : Book → Book → Prop := Relation.ReflTransGen (Step now)

section

variable {backstop : Transfer → ℕ → Bool} {batchImported : Bool} {now : ℕ} {b b' : Book}
  {t : Transfer}

theorem WellFormed.of_movement (h : WellFormed t) (amount timestamp : ℕ) :
    WellFormed { t with amount := amount, timestamp := timestamp } :=
  ⟨h.exclusive, h.distinct, h.timed, h.closing⟩

theorem step_of_regular (hfresh : b.store.transfers t.id = none) (hfailed : t.id ∉ b.store.failed)
    (hw : WellFormed t) (hkind : classify t = .regular) {m : Movement}
    (hm : decideMovement b.store t (regularMovement t
      (if batchImported then some t.timestamp else none) b.store.getWatermark) = .ok m) :
    Step now b (b.accept (assignedTimestamp batchImported now b.store.getWatermark t.timestamp)
      (m.effect t)) := by
  obtain ⟨debit, credit, hd, hc, hmove⟩ := decideMovement_eq_ok.mp hm
  obtain ⟨hchecked, -, hdebit, hcredit, hwithin⟩ := regularMovement_eq_ok hmove
  have hstamp : batchImported = true → b.store.getWatermark < t.timestamp := by
    rintro rfl
    exact (hchecked.imported t.timestamp rfl).1
  have hmoves : Moves b.store
      { t with
        amount := m.amount
        timestamp := assignedTimestamp batchImported now b.store.getWatermark t.timestamp }
      debit credit := by
    refine ⟨⟨hfresh, hfailed, stamped_assigned hstamp, hw.of_movement _ _⟩, ⟨hd, hc⟩,
      ⟨hchecked.debitOpen, hchecked.creditOpen⟩, hkind, ?_⟩
    rw [hdebit, hcredit] at hwithin
    exact hwithin
  have hstep : Step now b _ := Step.moved hmoves
  simpa only [Book.accept, Book.file, Movement.effect, moveEffect, hdebit, hcredit] using hstep

theorem step_of_reserve (hfresh : b.store.transfers t.id = none) (hfailed : t.id ∉ b.store.failed)
    (hw : WellFormed t) (hkind : classify t = .pendingReserve) {m : Movement}
    (hm : decideMovement b.store t (pendingMovement t
      ((if batchImported then some t.timestamp else none).getD
        (TimestampSource.peek ⟨b.store.getWatermark⟩ now))
      (if batchImported then some t.timestamp else none) b.store.getWatermark) = .ok m) :
    Step now b (b.accept (assignedTimestamp batchImported now b.store.getWatermark t.timestamp)
      (m.effect t)) := by
  obtain ⟨debit, credit, hd, hc, hmove⟩ := decideMovement_eq_ok.mp hm
  obtain ⟨hchecked, htimeout, -, _, _, rfl, rfl, hclosed, hwithin⟩ := pendingMovement_eq_ok hmove
  have hstamp : batchImported = true → b.store.getWatermark < t.timestamp := by
    rintro rfl
    exact (hchecked.imported t.timestamp rfl).1
  have hexpiry : t.timeout ≠ 0 →
      now < assignedTimestamp batchImported now b.store.getWatermark t.timestamp +
        t.timeout * nanosPerSecond ∧
      assignedTimestamp batchImported now b.store.getWatermark t.timestamp +
        t.timeout * nanosPerSecond ≤ timestampMax := by
    intro ht
    cases batchImported with
    | true => exact absurd (hchecked.imported t.timestamp rfl).2 ht
    | false =>
      have hle := (timeoutCheck_eq_none htimeout ht).2
      have hnow : now ≤ TimestampSource.peek ⟨b.store.getWatermark⟩ now := le_max_left _ _
      have hpos : 0 < t.timeout * nanosPerSecond := by
        unfold nanosPerSecond
        omega
      simp only [Bool.false_eq_true, if_false, Option.getD_none] at hle
      simp only [assignedTimestamp, Bool.false_eq_true, if_false]
      omega
  have hreserves : Reserves now b.store
      { t with
        amount := m.amount
        timestamp := assignedTimestamp batchImported now b.store.getWatermark t.timestamp }
      debit credit :=
    ⟨⟨hfresh, hfailed, stamped_assigned hstamp, hw.of_movement _ _⟩, ⟨hd, hc⟩,
      ⟨hchecked.debitOpen, hchecked.creditOpen⟩, hkind, hwithin, hexpiry⟩
  have hstep := Step.reserved hreserves
  have hpair := Prod.mk.inj hclosed
  simpa only [Book.accept, Book.file, Movement.effect, reserveEffect, reservedAccounts,
    closeAccounts, hpair.1, hpair.2] using hstep

theorem step_of_resolution (hkeyed : ∀ id p, b.store.transfers id = some p → p.id = id)
    (hfresh : b.store.transfers t.id = none) (hfailed : t.id ∉ b.store.failed)
    (hw : WellFormed t) {post : Bool} (hkind : classify t = TransferOp.ofPost post) {e : Effect}
    (he : decideResolution backstop b.store t post now
      (if batchImported then some t.timestamp else none) b.store.getWatermark = .ok (.ok e)) :
    Step now b (b.accept (assignedTimestamp batchImported now b.store.getWatermark t.timestamp)
      e) := by
  obtain ⟨pending, debit, credit, effective, hr, rfl⟩ := decideResolution_eq_ok he
  obtain ⟨hle, hvoid, -, -⟩ := effectiveAmount_eq_ok hr.amount
  have hstamp : batchImported = true → b.store.getWatermark < t.timestamp := by
    rintro rfl
    exact (hr.imported t.timestamp rfl).1
  have hstored : b.store.transfers pending.id = some pending := by
    rw [hkeyed _ _ hr.stored]
    exact hr.stored
  have hwell : WellFormed
      { materialize t pending effective with
        timestamp := assignedTimestamp batchImported now b.store.getWatermark t.timestamp } := by
    refine ⟨hw.exclusive, ?_, hw.timed, hw.closing⟩
    intro hres
    have := isResolution_of_classify hkind
    exact absurd (this.symm.trans hres) (by simp)
  have hsettles : Settles b.store
      { materialize t pending effective with
        timestamp := assignedTimestamp batchImported now b.store.getWatermark t.timestamp }
      pending post debit credit :=
    ⟨⟨hfresh, hfailed, stamped_assigned hstamp, hwell⟩,
      ⟨⟨hr.debitAccount, hr.creditAccount⟩, hstored, hr.names.reserve, hr.unresolved,
        hr.debitReserved, hr.creditReserved⟩, hkind, rfl, rfl, hle, hvoid,
      (hkeyed _ _ hr.stored).symm⟩
  exact Step.settled hsettles

theorem step_of_decide (hkeyed : ∀ id p, b.store.transfers id = some p → p.id = id)
    (hfresh : b.store.transfers t.id = none) (hfailed : t.id ∉ b.store.failed)
    (hpost : validateTransferPostExistence t = none) {e : Effect}
    (h : decideTransfer backstop batchImported now b.store t = .ok (.ok e)) :
    Step now b (b.accept (assignedTimestamp batchImported now b.store.getWatermark t.timestamp)
      e) := by
  have hw := wellFormed_of_validate hpost
  unfold decideTransfer at h
  dsimp only at h
  cases hkind : classify t with
  | regular =>
    simp only [hkind, Except.ok.injEq, map_eq_ok] at h
    obtain ⟨m, hm, rfl⟩ := h
    exact step_of_regular hfresh hfailed hw hkind hm
  | pendingReserve =>
    simp only [hkind, Except.ok.injEq, map_eq_ok] at h
    obtain ⟨m, hm, rfl⟩ := h
    exact step_of_reserve hfresh hfailed hw hkind hm
  | post =>
    simp only [hkind] at h
    have hpost : classify t = TransferOp.ofPost true := hkind
    exact step_of_resolution hkeyed hfresh hfailed hw hpost h
  | void =>
    simp only [hkind] at h
    have hvoid : classify t = TransferOp.ofPost false := hkind
    exact step_of_resolution hkeyed hfresh hfailed hw hvoid h

theorem Book.account_cases {spec : Account} {r : CreateAccountResult}
    (h : b.account batchImported now spec = (r, b')) :
    (r ≠ .created ∧ b' = b) ∨
    (r = .created ∧ ∃ timestamp, Opens b.store { spec with timestamp := timestamp } ∧
      b' = b.open { spec with timestamp := timestamp }) := by
  unfold Book.account at h
  split at h
  · rename_i code hpre
    cases h
    refine Or.inl ⟨?_, rfl⟩
    rintro rfl
    simpa using mem_of_firstFailing_eq_some hpre
  split at h
  · rename_i existing hstored
    cases h
    refine Or.inl ⟨?_, rfl⟩
    unfold accountExistsResult
    intro hcreated
    rw [Option.getD_eq_iff] at hcreated
    rcases hcreated with hcreated | ⟨-, hcreated⟩
    · simpa using mem_of_firstFailing_eq_some hcreated
    · simp at hcreated
  rename_i hfresh
  split at h
  · rename_i code hpost
    cases h
    refine Or.inl ⟨?_, rfl⟩
    rintro rfl
    simpa using mem_of_firstFailing_eq_some hpost
  rename_i hpost
  split_ifs at h with hreg
  · cases h
    exact Or.inl ⟨by simp, rfl⟩
  · cases h
    simp only [validateAccountPostExistence, firstFailing_eq_none, List.forall_mem_cons,
      bne_eq_false_iff_eq] at hpost
    obtain ⟨-, hdp, hdpost, hcp, hcpost, -⟩ := hpost
    have hstamp : batchImported = true → b.store.getWatermark < spec.timestamp := by
      rintro rfl
      simpa using hreg
    exact Or.inr ⟨rfl, assignedTimestamp batchImported now b.store.getWatermark spec.timestamp,
      ⟨hfresh, stamped_assigned hstamp, hdp, hdpost, hcp, hcpost⟩, rfl⟩

end

end BlueDB.Ledger
