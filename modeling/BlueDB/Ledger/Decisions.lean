import BlueDB.Ledger.Book

/-!
# What one event can do

One inversion lemma for each decision of the book: the guards that were passed
and the records that were written. Everything later is derived from these.
-/

namespace BlueDB.Ledger

theorem decideMovement_eq_ok {s : Store} {t : Transfer}
    {movement : Account → Account → Except CreateTransferResult Movement} {m : Movement} :
    decideMovement s t movement = .ok m ↔ ∃ debit credit,
      s.accounts t.debitAccountId = some debit ∧ s.accounts t.creditAccountId = some credit ∧
      movement debit credit = .ok m := by
  unfold decideMovement
  cases hd : s.accounts t.debitAccountId with
  | none => simp
  | some debit =>
    cases hc : s.accounts t.creditAccountId with
    | none => simp
    | some credit => simp

/-- The checks shared by regular transfers and reservations, all passed. -/
structure MovementChecked (t : Transfer) (importedTs : Option ℕ) (lastTs : ℕ)
    (debit credit : Account) : Prop where
  imported : ∀ its, importedTs = some its → lastTs < its ∧ t.timeout = 0
  debitOpen : debit.flags.contains .closed = false
  creditOpen : credit.flags.contains .closed = false

theorem importedTransferChecks_eq_none {importedTs : Option ℕ} {lastTs debitTs creditTs timeout : ℕ}
    (h : importedTransferChecks importedTs lastTs debitTs creditTs timeout = none) :
    ∀ its, importedTs = some its → lastTs < its ∧ timeout = 0 := by
  rintro its rfl
  simp only [importedTransferChecks, Option.bind_some, firstFailing_eq_none] at h
  have hlast := h (_, _) (List.mem_cons_self)
  have htimeout := h (timeout != 0, .importedEventTimeoutMustBeZero) (by simp)
  constructor
  · simpa using hlast
  · simpa using htimeout

theorem movementChecks_eq_none {t : Transfer} {importedTs : Option ℕ} {lastTs : ℕ}
    {debit credit : Account} (h : movementChecks t importedTs lastTs debit credit = none) :
    MovementChecked t importedTs lastTs debit credit := by
  simp only [movementChecks, Option.or_eq_none_iff] at h
  obtain ⟨-, himp, hclosed⟩ := h
  rw [firstFailing_eq_none] at hclosed
  refine ⟨importedTransferChecks_eq_none himp, ?_, ?_⟩
  · exact hclosed (_, _) List.mem_cons_self
  · exact hclosed (credit.flags.contains .closed, .creditAccountAlreadyClosed) (by simp)

/-- The accounts after a movement fit their types and their balance limits. -/
structure WithinLimits (debit credit : Account) : Prop where
  debits : debit.debitsPending + debit.debitsPosted ≤ u128Max
  credits : credit.creditsPending + credit.creditsPosted ≤ u128Max
  debitLimit : debit.flags.contains .debitsMustNotExceedCredits = true →
    debit.debitsPosted + debit.debitsPending ≤ debit.creditsPosted
  creditLimit : credit.flags.contains .creditsMustNotExceedDebits = true →
    credit.creditsPosted + credit.creditsPending ≤ credit.debitsPosted

theorem withinLimits_of_checks {debit credit : Account} (ht : totalChecks debit credit = none)
    (hb : balanceChecks debit credit = none) : WithinLimits debit credit := by
  simp only [totalChecks, firstFailing_eq_none, List.forall_mem_cons, Option.isNone_eq_false_iff,
    Option.isSome_iff_exists, checkedAdd_eq_some] at ht
  obtain ⟨⟨_, hd, -⟩, ⟨_, hc, -⟩, -⟩ := ht
  simp only [balanceChecks, firstFailing_eq_none, List.forall_mem_cons, Bool.and_eq_false_iff,
    decide_eq_false_iff_not, not_lt] at hb
  obtain ⟨hbd, hbc, -⟩ := hb
  refine ⟨hd, hc, ?_, ?_⟩
  · intro hflag
    rcases hbd with hbd | hbd
    · simp [hflag] at hbd
    · rwa [wrappingAdd_of_le (by omega)] at hbd
  · intro hflag
    rcases hbc with hbc | hbc
    · simp [hflag] at hbc
    · rwa [wrappingAdd_of_le (by omega)] at hbc

theorem regularMovement_eq_ok {t : Transfer} {importedTs : Option ℕ} {lastTs : ℕ}
    {debit credit : Account} {m : Movement}
    (h : regularMovement t importedTs lastTs debit credit = .ok m) :
    MovementChecked t importedTs lastTs debit credit ∧
      m.amount = balancingAmount t debit credit ∧
      m.debit = { debit with debitsPosted := debit.debitsPosted + m.amount } ∧
      m.credit = { credit with creditsPosted := credit.creditsPosted + m.amount } ∧
      WithinLimits m.debit m.credit := by
  unfold regularMovement at h
  split at h
  · simp at h
  rename_i hchecks
  dsimp only at h
  split at h
  · simp at h
  rename_i dp hdp
  split at h
  · simp at h
  rename_i cp hcp
  split at h
  · simp at h
  rename_i htotals
  simp only [Except.ok.injEq] at h
  subst h
  rw [Option.or_eq_none_iff] at htotals
  obtain ⟨-, rfl⟩ := checkedAdd_eq_some.mp hdp
  obtain ⟨-, rfl⟩ := checkedAdd_eq_some.mp hcp
  exact ⟨movementChecks_eq_none hchecks, rfl, rfl, rfl,
    withinLimits_of_checks htotals.1 htotals.2⟩

theorem timeoutCheck_eq_none {t : Transfer} {prospectiveTs : ℕ}
    (h : timeoutCheck t prospectiveTs = none) (ht : t.timeout ≠ 0) :
    expiryOf prospectiveTs t.timeout = prospectiveTs + t.timeout * nanosPerSecond ∧
      prospectiveTs + t.timeout * nanosPerSecond ≤ timestampMax := by
  unfold timeoutCheck at h
  rw [if_pos (by simpa using ht)] at h
  split at h
  · rename_i e he
    rw [Option.bind_eq_some_iff] at he
    obtain ⟨n, hmul, hadd⟩ := he
    obtain ⟨hm, rfl⟩ := checkedMul_eq_some.mp hmul
    obtain ⟨ha, rfl⟩ := checkedAdd_eq_some.mp hadd
    split_ifs at h with hle
    refine ⟨?_, hle⟩
    rw [expiryOf, saturatingMul_of_le hm, saturatingAdd_of_le ha]
  · simp at h

theorem pendingMovement_eq_ok {t : Transfer} {prospectiveTs : ℕ} {importedTs : Option ℕ}
    {lastTs : ℕ} {debit credit : Account} {m : Movement}
    (h : pendingMovement t prospectiveTs importedTs lastTs debit credit = .ok m) :
    MovementChecked t importedTs lastTs debit credit ∧ timeoutCheck t prospectiveTs = none ∧
      m.amount = balancingAmount t debit credit ∧
      ∃ debit' credit',
        debit' = { debit with debitsPending := debit.debitsPending + m.amount } ∧
        credit' = { credit with creditsPending := credit.creditsPending + m.amount } ∧
        (m.debit, m.credit) = closeAccounts t debit' credit' ∧ WithinLimits debit' credit' := by
  unfold pendingMovement at h
  split at h
  · simp at h
  rename_i hchecks
  dsimp only at h
  split at h
  · simp at h
  rename_i dp hdp
  split at h
  · simp at h
  rename_i cp hcp
  split at h
  · simp at h
  rename_i htotals
  simp only [Except.ok.injEq] at h
  subst h
  rw [Option.or_eq_none_iff, Option.or_eq_none_iff] at htotals
  obtain ⟨-, rfl⟩ := checkedAdd_eq_some.mp hdp
  obtain ⟨-, rfl⟩ := checkedAdd_eq_some.mp hcp
  exact ⟨movementChecks_eq_none hchecks, htotals.2.1, rfl, _, _, rfl, rfl, rfl,
    withinLimits_of_checks htotals.1 htotals.2.2⟩

theorem releaseReservation_eq_ok {pending : Transfer} {debit credit : Account}
    {debitError creditError : InvariantError} {p : Account × Account} :
    releaseReservation pending debit credit debitError creditError = .ok p ↔
      pending.amount ≤ debit.debitsPending ∧ pending.amount ≤ credit.creditsPending ∧
      p = ({ debit with debitsPending := debit.debitsPending - pending.amount },
        { credit with creditsPending := credit.creditsPending - pending.amount }) := by
  unfold releaseReservation checkedSub
  by_cases hd : pending.amount ≤ debit.debitsPending
  · by_cases hc : pending.amount ≤ credit.creditsPending
    · simp [hd, hc, eq_comm]
    · simp [hd, hc]
  · simp [hd]

/-- The amount of a resolution never exceeds the reserved one. -/
theorem effectiveAmount_eq_ok {t pending : Transfer} {post : Bool} {effective : ℕ}
    (h : effectiveAmount t pending post = .ok effective) :
    effective ≤ pending.amount ∧ (post = false → effective = pending.amount) ∧
      (post = true → effective = if t.amount = amountMax then pending.amount else t.amount) ∧
      (post = false → t.amount = 0 ∨ t.amount = pending.amount) := by
  unfold effectiveAmount at h
  cases post with
  | true =>
    simp only [if_true, beq_iff_eq] at h
    split_ifs at h with hmax hgt
    · simp only [Except.ok.injEq] at h
      simp [← h, hmax]
    · simp only [Except.ok.injEq] at h
      subst h
      refine ⟨by omega, by simp, ?_, by simp⟩
      intro _
      rw [if_neg hmax]
  | false =>
    simp only [Bool.false_eq_true, if_false] at h
    split_ifs at h with hne
    simp only [Except.ok.injEq] at h
    subst h
    refine ⟨le_refl _, by simp, by simp, ?_⟩
    intro _
    by_contra hcon
    push Not at hcon
    exact hne (by simp [hcon.1, hcon.2])

theorem priorResolution_eq_none {status : Option PendingStatus} :
    priorResolution status = none ↔ status = none := by
  cases status with
  | none => simp [priorResolution]
  | some status => cases status <;> simp [priorResolution]

/-- The fields a resolution names agree with the pending. -/
structure NamesPending (t pending : Transfer) : Prop where
  reserve : pending.flags.contains .pending = true
  debit : t.debitAccountId = 0 ∨ t.debitAccountId = pending.debitAccountId
  credit : t.creditAccountId = 0 ∨ t.creditAccountId = pending.creditAccountId
  ledger : t.ledger = 0 ∨ t.ledger = pending.ledger
  code : t.code = 0 ∨ t.code = pending.code

theorem pendingFieldChecks_eq_none {t pending : Transfer}
    (h : pendingFieldChecks t pending = none) : NamesPending t pending := by
  simp only [pendingFieldChecks, firstFailing_eq_none, List.forall_mem_cons,
    Bool.and_eq_false_iff, bne_eq_false_iff_eq, Bool.not_eq_false'] at h
  obtain ⟨hp, hd, hc, hl, hcode, -⟩ := h
  exact ⟨hp, hd, hc, hl, hcode⟩

/-- The two accounts of a resolved pending: the reservation is gone, and it was
posted, or the accounts it had closed are open again. -/
def settledAccounts (pending : Transfer) (post : Bool) (effective : ℕ)
    (debit credit : Account) : Account × Account :=
  if post then
    ({ debit with
        debitsPending := debit.debitsPending - pending.amount
        debitsPosted := debit.debitsPosted + effective },
      { credit with
        creditsPending := credit.creditsPending - pending.amount
        creditsPosted := credit.creditsPosted + effective })
  else
    reopenAccounts pending { debit with debitsPending := debit.debitsPending - pending.amount }
      { credit with creditsPending := credit.creditsPending - pending.amount }

theorem resolutionMovement_eq_ok {t pending : Transfer} {post : Bool} {effective : ℕ}
    {importedTs : Option ℕ} {lastTs : ℕ} {debit credit : Account} {p : Account × Account}
    (h : resolutionMovement t pending post effective importedTs lastTs debit credit = .ok (.ok p)) :
    (∀ its, importedTs = some its → lastTs < its ∧ t.timeout = 0) ∧
      pending.amount ≤ debit.debitsPending ∧ pending.amount ≤ credit.creditsPending ∧
      p = settledAccounts pending post effective debit credit := by
  unfold resolutionMovement at h
  split at h
  · simp at h
  rename_i himp
  rw [bind_eq_ok] at h
  obtain ⟨q, hq, h⟩ := h
  obtain ⟨hd, hc, rfl⟩ := releaseReservation_eq_ok.mp hq
  refine ⟨importedTransferChecks_eq_none himp, hd, hc, ?_⟩
  dsimp only at h
  unfold settledAccounts
  split_ifs at h ⊢ with hpost
  · split at h
    · simp at h
    rename_i dp hdp
    split at h
    · simp at h
    rename_i cp hcp
    simp only [Except.ok.injEq] at h
    obtain ⟨-, rfl⟩ := checkedAdd_eq_some.mp hdp
    obtain ⟨-, rfl⟩ := checkedAdd_eq_some.mp hcp
    exact h.symm
  · simpa using h.symm

/-- A resolution that can release its reservation never aborts the call. -/
theorem exists_resolutionMovement {t pending : Transfer} {debit credit : Account}
    (hd : pending.amount ≤ debit.debitsPending) (hc : pending.amount ≤ credit.creditsPending)
    (post : Bool) (effective : ℕ) (importedTs : Option ℕ) (lastTs : ℕ) :
    ∃ outcome, resolutionMovement t pending post effective importedTs lastTs debit credit =
      .ok outcome := by
  unfold resolutionMovement
  split
  · exact ⟨_, rfl⟩
  · rw [releaseReservation_eq_ok.mpr ⟨hd, hc, rfl⟩]
    simp only [bind, Except.bind]
    split_ifs
    · split
      · exact ⟨_, rfl⟩
      · split <;> exact ⟨_, rfl⟩
    · exact ⟨_, rfl⟩

/-- What an accepted resolution found: the pending it settles and its accounts. -/
structure Resolves (backstop : Transfer → ℕ → Bool) (s : Store) (t : Transfer) (post : Bool)
    (now : ℕ) (importedTs : Option ℕ) (pending : Transfer) (debit credit : Account)
    (effective : ℕ) : Prop where
  stored : s.transfers t.pendingId = some pending
  names : NamesPending t pending
  amount : effectiveAmount t pending post = .ok effective
  unresolved : s.pendingStates pending.id = none
  notLapsed : backstop pending now = false
  debitAccount : s.accounts pending.debitAccountId = some debit
  creditAccount : s.accounts pending.creditAccountId = some credit
  imported : ∀ its, importedTs = some its → s.getWatermark < its ∧ t.timeout = 0
  debitReserved : pending.amount ≤ debit.debitsPending
  creditReserved : pending.amount ≤ credit.creditsPending

def PendingStatus.ofPost (post : Bool) : PendingStatus := if post then .posted else .voided

theorem decideResolution_eq_ok {backstop : Transfer → ℕ → Bool} {s : Store} {t : Transfer}
    {post : Bool} {now : ℕ} {importedTs : Option ℕ} {e : Effect}
    (h : decideResolution backstop s t post now importedTs s.getWatermark = .ok (.ok e)) :
    ∃ pending debit credit effective,
      Resolves backstop s t post now importedTs pending debit credit effective ∧
      e = ⟨(settledAccounts pending post effective debit credit).1,
        (settledAccounts pending post effective debit credit).2,
        materialize t pending effective, some (pending, PendingStatus.ofPost post)⟩ := by
  unfold decideResolution at h
  split at h
  · simp at h
  rename_i pending hpending
  split at h
  · simp at h
  rename_i hfields
  split at h
  · simp at h
  rename_i effective hamount
  split at h
  · simp at h
  rename_i hprior
  by_cases hb : backstop pending now = true
  · simp [hb] at h
  rw [if_neg hb] at h
  split at h
  · simp at h
  rename_i debit hdebit
  split at h
  · simp at h
  rename_i credit hcredit
  split at h
  · simp at h
  · simp at h
  · rename_i debit' credit' hmove
    simp only [Except.ok.injEq] at h
    obtain ⟨himp, hd, hc, heq⟩ := resolutionMovement_eq_ok hmove
    refine ⟨pending, debit, credit, effective, ⟨hpending, pendingFieldChecks_eq_none hfields,
      hamount, priorResolution_eq_none.mp hprior, by simpa using hb, hdebit, hcredit, himp, hd,
      hc⟩, ?_⟩
    rw [← h, ← heq]
    rfl

/-- The codes of a refusal that does not come from the imported-timestamp checks. -/
def refusalCodes : List CreateTransferResult :=
  [.debitAccountNotFound, .creditAccountNotFound, .accountsMustHaveTheSameLedger,
    .transferMustHaveTheSameLedgerAsAccounts, .pendingTransferNotFound,
    .pendingTransferNotPending, .pendingTransferHasDifferentDebitAccountId,
    .pendingTransferHasDifferentCreditAccountId, .pendingTransferHasDifferentLedger,
    .pendingTransferHasDifferentCode, .exceedsPendingTransferAmount,
    .pendingTransferHasDifferentAmount, .pendingTransferAlreadyPosted,
    .pendingTransferAlreadyVoided, .pendingTransferExpired, .debitAccountAlreadyClosed,
    .creditAccountAlreadyClosed, .overflowsDebitsPending, .overflowsCreditsPending,
    .overflowsDebitsPosted, .overflowsCreditsPosted, .overflowsDebits, .overflowsCredits,
    .overflowsTimeout, .exceedsCredits, .exceedsDebits]

/-- Why an admissible transfer was refused: by the imported-timestamp checks
against two stored accounts, or with another code of the staging functions. -/
inductive Refused (s : Store) (importedTs : Option ℕ) (code : CreateTransferResult) : Prop
  | imported {debitId creditId : U128} {debit credit : Account} {timeout : ℕ}
      (debitAccount : s.accounts debitId = some debit)
      (creditAccount : s.accounts creditId = some credit)
      (check : importedTransferChecks importedTs s.getWatermark debit.timestamp credit.timestamp
        timeout = some code)
  | other (code_mem : code ∈ refusalCodes)

theorem mem_refusalCodes_of_firstFailing {checks : List (Bool × CreateTransferResult)}
    {code : CreateTransferResult} (h : firstFailing checks = some code)
    (hc : ∀ c ∈ checks.map Prod.snd, c ∈ refusalCodes) : code ∈ refusalCodes :=
  hc code (mem_of_firstFailing_eq_some h)

theorem totalChecks_code {debit credit : Account} {code : CreateTransferResult}
    (h : totalChecks debit credit = some code) : code ∈ refusalCodes :=
  mem_refusalCodes_of_firstFailing h (by simp [refusalCodes])

theorem balanceChecks_code {debit credit : Account} {code : CreateTransferResult}
    (h : balanceChecks debit credit = some code) : code ∈ refusalCodes :=
  mem_refusalCodes_of_firstFailing h (by simp [refusalCodes])

theorem timeoutCheck_code {t : Transfer} {prospectiveTs : ℕ} {code : CreateTransferResult}
    (h : timeoutCheck t prospectiveTs = some code) : code ∈ refusalCodes := by
  have hcode : code = .overflowsTimeout := by
    unfold timeoutCheck at h
    split_ifs at h
    split at h
    · split_ifs at h
      exact (Option.some.inj h).symm
    · exact (Option.some.inj h).symm
  simp [hcode, refusalCodes]

theorem movementChecks_code {t : Transfer} {importedTs : Option ℕ} {lastTs : ℕ}
    {debit credit : Account} {code : CreateTransferResult}
    (h : movementChecks t importedTs lastTs debit credit = some code) :
    importedTransferChecks importedTs lastTs debit.timestamp credit.timestamp t.timeout =
      some code ∨ code ∈ refusalCodes := by
  unfold movementChecks at h
  rw [Option.or_eq_some_iff, Option.or_eq_some_iff] at h
  rcases h with h | ⟨-, h | ⟨-, h⟩⟩
  · exact Or.inr (mem_refusalCodes_of_firstFailing h (by simp [refusalCodes]))
  · exact Or.inl h
  · exact Or.inr (mem_refusalCodes_of_firstFailing h (by simp [refusalCodes]))

theorem regularMovement_eq_error {t : Transfer} {importedTs : Option ℕ} {lastTs : ℕ}
    {debit credit : Account} {code : CreateTransferResult}
    (h : regularMovement t importedTs lastTs debit credit = .error code) :
    importedTransferChecks importedTs lastTs debit.timestamp credit.timestamp t.timeout =
      some code ∨ code ∈ refusalCodes := by
  unfold regularMovement at h
  split at h
  · rename_i hm
    simp only [Except.error.injEq] at h
    exact movementChecks_code (h ▸ hm)
  dsimp only at h
  right
  split at h
  · simp only [Except.error.injEq] at h
    simp [← h, refusalCodes]
  split at h
  · simp only [Except.error.injEq] at h
    simp [← h, refusalCodes]
  split at h
  · rename_i hc
    simp only [Except.error.injEq] at h
    rw [Option.or_eq_some_iff, h] at hc
    rcases hc with hc | ⟨-, hc⟩
    · exact totalChecks_code hc
    · exact balanceChecks_code hc
  · simp at h

theorem pendingMovement_eq_error {t : Transfer} {prospectiveTs : ℕ} {importedTs : Option ℕ}
    {lastTs : ℕ} {debit credit : Account} {code : CreateTransferResult}
    (h : pendingMovement t prospectiveTs importedTs lastTs debit credit = .error code) :
    importedTransferChecks importedTs lastTs debit.timestamp credit.timestamp t.timeout =
      some code ∨ code ∈ refusalCodes := by
  unfold pendingMovement at h
  split at h
  · rename_i hm
    simp only [Except.error.injEq] at h
    exact movementChecks_code (h ▸ hm)
  dsimp only at h
  right
  split at h
  · simp only [Except.error.injEq] at h
    simp [← h, refusalCodes]
  split at h
  · simp only [Except.error.injEq] at h
    simp [← h, refusalCodes]
  split at h
  · rename_i hc
    simp only [Except.error.injEq] at h
    rw [Option.or_eq_some_iff, Option.or_eq_some_iff, h] at hc
    rcases hc with hc | ⟨-, hc | ⟨-, hc⟩⟩
    · exact totalChecks_code hc
    · exact timeoutCheck_code hc
    · exact balanceChecks_code hc
  · simp at h

theorem decideMovement_eq_error {s : Store} {t : Transfer} {importedTs : Option ℕ}
    {movement : Account → Account → Except CreateTransferResult Movement}
    {code : CreateTransferResult}
    (hm : ∀ debit credit, movement debit credit = .error code →
      importedTransferChecks importedTs s.getWatermark debit.timestamp credit.timestamp
        t.timeout = some code ∨ code ∈ refusalCodes)
    (h : decideMovement s t movement = .error code) : Refused s importedTs code := by
  unfold decideMovement at h
  split at h
  · simp only [Except.error.injEq] at h
    exact .other (by simp [← h, refusalCodes])
  rename_i debit hd
  split at h
  · simp only [Except.error.injEq] at h
    exact .other (by simp [← h, refusalCodes])
  rename_i credit hc
  rcases hm debit credit h with hi | ho
  · exact .imported hd hc hi
  · exact .other ho

theorem resolutionMovement_eq_error {t pending : Transfer} {post : Bool} {effective : ℕ}
    {importedTs : Option ℕ} {lastTs : ℕ} {debit credit : Account} {code : CreateTransferResult}
    (h : resolutionMovement t pending post effective importedTs lastTs debit credit =
      .ok (.error code)) :
    importedTransferChecks importedTs lastTs debit.timestamp credit.timestamp t.timeout =
      some code ∨ code ∈ refusalCodes := by
  unfold resolutionMovement at h
  split at h
  · rename_i hm
    simp only [Except.ok.injEq, Except.error.injEq] at h
    exact Or.inl (h ▸ hm)
  rw [bind_eq_ok] at h
  obtain ⟨q, -, h⟩ := h
  dsimp only at h
  right
  split_ifs at h
  · split at h
    · simp only [Except.ok.injEq, Except.error.injEq] at h
      simp [← h, refusalCodes]
    split at h
    · simp only [Except.ok.injEq, Except.error.injEq] at h
      simp [← h, refusalCodes]
    · simp at h
  · simp at h

theorem decideResolution_eq_error {backstop : Transfer → ℕ → Bool} {s : Store} {t : Transfer}
    {post : Bool} {now : ℕ} {importedTs : Option ℕ} {code : CreateTransferResult}
    (h : decideResolution backstop s t post now importedTs s.getWatermark = .ok (.error code)) :
    Refused s importedTs code := by
  unfold decideResolution at h
  split at h
  · simp only [Except.ok.injEq, Except.error.injEq] at h
    exact .other (by simp [← h, refusalCodes])
  rename_i pending hpending
  split at h
  · rename_i hf
    simp only [Except.ok.injEq, Except.error.injEq] at h
    exact .other (mem_refusalCodes_of_firstFailing (h ▸ hf) (by simp [refusalCodes]))
  split at h
  · rename_i ha
    simp only [Except.ok.injEq, Except.error.injEq] at h
    subst h
    unfold effectiveAmount at ha
    split_ifs at ha
    · exact .other (by simp [← Except.error.inj ha, refusalCodes])
    · exact .other (by simp [← Except.error.inj ha, refusalCodes])
  split at h
  · rename_i hp
    simp only [Except.ok.injEq, Except.error.injEq] at h
    subst h
    unfold priorResolution at hp
    split at hp
    · exact .other (by simp [← Option.some.inj hp, refusalCodes])
    · exact .other (by simp [← Option.some.inj hp, refusalCodes])
    · exact .other (by simp [← Option.some.inj hp, refusalCodes])
    · simp at hp
  by_cases hb : backstop pending now = true
  · rw [if_pos hb] at h
    simp only [Except.ok.injEq, Except.error.injEq] at h
    exact .other (by simp [← h, refusalCodes])
  rw [if_neg hb] at h
  split at h
  · simp at h
  rename_i debit hd
  split at h
  · simp at h
  rename_i credit hc
  split at h
  · simp at h
  · rename_i hm
    simp only [Except.ok.injEq, Except.error.injEq] at h
    subst h
    rcases resolutionMovement_eq_error hm with hi | ho
    · exact .imported hd hc hi
    · exact .other ho
  · simp at h

theorem decideTransfer_eq_error {backstop : Transfer → ℕ → Bool} {batchImported : Bool} {now : ℕ}
    {s : Store} {t : Transfer} {code : CreateTransferResult}
    (h : decideTransfer backstop batchImported now s t = .ok (.error code)) :
    Refused s (if batchImported then some t.timestamp else none) code := by
  unfold decideTransfer at h
  dsimp only at h
  split at h
  · simp only [Except.ok.injEq, map_eq_error] at h
    exact decideMovement_eq_error (fun _ _ => regularMovement_eq_error) h
  · simp only [Except.ok.injEq, map_eq_error] at h
    exact decideMovement_eq_error (fun _ _ => pendingMovement_eq_error) h
  · exact decideResolution_eq_error h
  · exact decideResolution_eq_error h

theorem decideTransfer_record {backstop : Transfer → ℕ → Bool} {batchImported : Bool} {now : ℕ}
    {s : Store} {t : Transfer} {e : Effect}
    (h : decideTransfer backstop batchImported now s t = .ok (.ok e)) :
    e.record.id = t.id ∧ ∀ pending status, e.resolved = some (pending, status) →
      s.transfers t.pendingId = some pending := by
  unfold decideTransfer at h
  dsimp only at h
  split at h
  · simp only [Except.ok.injEq, map_eq_ok] at h
    obtain ⟨m, -, rfl⟩ := h
    simp [Movement.effect]
  · simp only [Except.ok.injEq, map_eq_ok] at h
    obtain ⟨m, -, rfl⟩ := h
    simp [Movement.effect]
  all_goals
    obtain ⟨pending, debit, credit, effective, hr, rfl⟩ := decideResolution_eq_ok h
    refine ⟨rfl, ?_⟩
    rintro p status hp
    simp only [Option.some.injEq, Prod.mk.injEq] at hp
    rw [← hp.1]
    exact hr.stored

/-- The outcomes of one transfer against the book, with the checks before each. -/
inductive Verdict (backstop : Transfer → ℕ → Bool) (batchImported : Bool) (now : ℕ) (b : Book)
    (t : Transfer) : CreateTransferResult → Book → Prop
  | malformed {code : CreateTransferResult}
      (pre : validateTransferPreExistence t batchImported now = some code) :
      Verdict backstop batchImported now b t code b
  | known {existing : Transfer} (pre : validateTransferPreExistence t batchImported now = none)
      (stored : b.store.transfers t.id = some existing) :
      Verdict backstop batchImported now b t (transferExistsResult t existing) b
  | burned (pre : validateTransferPreExistence t batchImported now = none)
      (fresh : b.store.transfers t.id = none) (failed : t.id ∈ b.store.failed) :
      Verdict backstop batchImported now b t .idAlreadyFailed b
  | illFormed {code : CreateTransferResult}
      (pre : validateTransferPreExistence t batchImported now = none)
      (fresh : b.store.transfers t.id = none) (notFailed : t.id ∉ b.store.failed)
      (post : validateTransferPostExistence t = some code) :
      Verdict backstop batchImported now b t code b
  | refused {code : CreateTransferResult}
      (pre : validateTransferPreExistence t batchImported now = none)
      (fresh : b.store.transfers t.id = none) (notFailed : t.id ∉ b.store.failed)
      (post : validateTransferPostExistence t = none)
      (decided : decideTransfer backstop batchImported now b.store t = .ok (.error code)) :
      Verdict backstop batchImported now b t code b
  | created {e : Effect}
      (pre : validateTransferPreExistence t batchImported now = none)
      (fresh : b.store.transfers t.id = none) (notFailed : t.id ∉ b.store.failed)
      (post : validateTransferPostExistence t = none)
      (decided : decideTransfer backstop batchImported now b.store t = .ok (.ok e)) :
      Verdict backstop batchImported now b t .created
        (b.accept (assignedTimestamp batchImported now b.store.getWatermark t.timestamp) e)

theorem Book.transfer_verdict {backstop : Transfer → ℕ → Bool} {batchImported : Bool} {now : ℕ}
    {b b' : Book} {t : Transfer} {r : CreateTransferResult}
    (h : b.transfer backstop batchImported now t = .ok (r, b')) :
    Verdict backstop batchImported now b t r b' := by
  unfold Book.transfer at h
  split at h
  · rename_i hpre
    cases h
    exact .malformed hpre
  rename_i hpre
  split at h
  · rename_i hstored
    cases h
    exact .known hpre hstored
  rename_i hfresh
  split_ifs at h with hfailed
  · cases h
    exact .burned hpre hfresh hfailed
  split at h
  · rename_i hpost
    cases h
    exact .illFormed hpre hfresh hfailed hpost
  rename_i hpost
  split at h
  · cases h
  · rename_i hdec
    cases h
    exact .refused hpre hfresh hfailed hpost hdec
  · rename_i hdec
    cases h
    exact .created hpre hfresh hfailed hpost hdec

theorem Book.exists_transfer {backstop : Transfer → ℕ → Bool} {batchImported : Bool} {now : ℕ}
    {b : Book} {t : Transfer}
    (h : validateTransferPostExistence t = none →
      ∃ outcome, decideTransfer backstop batchImported now b.store t = .ok outcome) :
    ∃ r b', b.transfer backstop batchImported now t = .ok (r, b') := by
  unfold Book.transfer
  split
  · exact ⟨_, _, rfl⟩
  split
  · exact ⟨_, _, rfl⟩
  split_ifs
  · exact ⟨_, _, rfl⟩
  split
  · exact ⟨_, _, rfl⟩
  rename_i hpost
  obtain ⟨outcome, houtcome⟩ := h hpost
  rw [houtcome]
  cases outcome with
  | error code => exact ⟨_, _, rfl⟩
  | ok e => exact ⟨_, _, rfl⟩

end BlueDB.Ledger
