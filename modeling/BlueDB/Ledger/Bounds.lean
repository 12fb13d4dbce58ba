import BlueDB.Ledger.Runs

/-!
# Sums of balances

What is posted and what is reserved on one side of an account fit the type
together. The guard runs only on the side that a movement increases; nothing else
lets a sum grow, since a resolution posts no more than it releases. So wherever
the engine adds two balances without a check, the sum is the plain one.
-/

namespace BlueDB.Ledger

/-- Pending and posted balances fit the type together, on both sides. -/
structure Bounded (a : Account) : Prop where
  debits : a.debitsPending + a.debitsPosted ≤ u128Max
  credits : a.creditsPending + a.creditsPosted ≤ u128Max

def AllBounded (s : Store) : Prop := ∀ id a, s.accounts id = some a → Bounded a

variable {s : Store}

theorem AllBounded.empty : AllBounded .empty := by
  intro id a h
  simp [Store.empty] at h

/-- A movement increases one side of each account, and that side was checked; a resolution
posts no more than it releases. -/
theorem kept_bounded : KeptByMovements Bounded where
  opened hdn hdp hcn hcp := ⟨by simp [hdn, hdp], by simp [hcn, hcp]⟩
  close h := ⟨h.debits, h.credits⟩
  reopen h := ⟨h.debits, h.credits⟩
  moved hd hc hw := ⟨⟨hw.debits, hd.credits⟩, ⟨hc.debits, hw.credits⟩⟩
  reserved hd hc hw := ⟨⟨hw.debits, hd.credits⟩, ⟨hc.debits, hw.credits⟩⟩
  debited h hamount heff := by
    have hdebits := h.debits
    refine ⟨?_, h.credits⟩
    dsimp only
    omega
  credited h hamount heff := by
    have hcredits := h.credits
    refine ⟨h.debits, ?_⟩
    dsimp only
    omega

theorem AllBounded.step {now : ℕ} {b b' : Book} (h : AllBounded b.store) (hs : Step now b b') :
    AllBounded b'.store := kept_bounded.step h hs

theorem AllBounded.steps {now : ℕ} {b b' : Book} (h : AllBounded b.store)
    (hs : Steps now b b') : AllBounded b'.store := by
  induction hs with
  | refl => exact h
  | tail _ hstep ih => exact ih.step hstep

theorem Reachable.bounded (h : Reachable s) : AllBounded s := by
  obtain ⟨log, hlog⟩ := reachable_iff_history.mp h
  exact hlog.invariant (P := fun b => AllBounded b.store) .empty fun _ hb hs => hb.step hs

/-- Checks 62 and 63. -/
def postedOverflows : List CreateTransferResult := [.overflowsDebitsPosted, .overflowsCreditsPosted]

/-- What is posted was reserved before, so the posted balances have room for it. -/
theorem resolutionMovement_not_overflow {t pending : Transfer} {effective : ℕ}
    {importedTs : Option ℕ} {lastTs : ℕ} {debit credit : Account} {code : CreateTransferResult}
    (hd : Bounded debit) (hc : Bounded credit) (hdr : pending.amount ≤ debit.debitsPending)
    (hcr : pending.amount ≤ credit.creditsPending) (heff : effective ≤ pending.amount)
    (h : resolutionMovement t pending true effective importedTs lastTs debit credit =
      .ok (.error code)) : code ∉ postedOverflows := by
  have hdebits := hd.debits
  have hcredits := hc.credits
  unfold resolutionMovement at h
  split at h
  · rename_i hcheck
    cases h
    unfold importedTransferChecks at hcheck
    obtain ⟨its, -, hcheck⟩ := Option.bind_eq_some_iff.mp hcheck
    have hmem := mem_of_firstFailing_eq_some hcheck
    simp only [List.map_cons, List.map_nil, List.mem_cons, List.not_mem_nil, or_false] at hmem
    rcases hmem with rfl | rfl | rfl | rfl <;> decide
  · rw [releaseReservation_eq_ok.mpr ⟨hdr, hcr, rfl⟩] at h
    simp only [bind, Except.bind, if_pos] at h
    have hfitsDebit : debit.debitsPosted + effective ≤ u128Max := by omega
    have hfitsCredit : credit.creditsPosted + effective ≤ u128Max := by omega
    rw [checkedAdd, if_pos hfitsDebit, checkedAdd, if_pos hfitsCredit] at h
    cases h

theorem Inv.decideResolution_not_overflow (h : Inv s) (hb : AllBounded s)
    {backstop : Transfer → ℕ → Bool} {t : Transfer} {now : ℕ} {importedTs : Option ℕ}
    {lastTs : ℕ} {code : CreateTransferResult}
    (hdec : Ledger.decideResolution backstop s t true now importedTs lastTs = .ok (.error code)) :
    code ∉ postedOverflows := by
  unfold Ledger.decideResolution at hdec
  split at hdec
  · cases hdec
    decide
  rename_i pending hpending
  split at hdec
  · rename_i hcheck
    cases hdec
    have hmem := mem_of_firstFailing_eq_some hcheck
    simp only [List.map_cons, List.map_nil, List.mem_cons, List.not_mem_nil, or_false] at hmem
    rcases hmem with rfl | rfl | rfl | rfl | rfl <;> decide
  rename_i hfields
  split at hdec
  · rename_i hamount
    cases hdec
    unfold effectiveAmount at hamount
    split_ifs at hamount <;> cases hamount <;> decide
  rename_i effective hamount
  split at hdec
  · rename_i hprior
    cases hdec
    unfold priorResolution at hprior
    split at hprior <;> cases hprior <;> decide
  rename_i hprior
  by_cases hlapsed : backstop pending now = true
  · rw [if_pos hlapsed] at hdec
    cases hdec
    decide
  rw [if_neg hlapsed] at hdec
  obtain ⟨debit, credit, ho⟩ := h.outstanding (h.sound.stored hpending)
    (pendingFieldChecks_eq_none hfields).reserve (priorResolution_eq_none.mp hprior)
  rw [ho.debitAccount, ho.creditAccount] at hdec
  dsimp only at hdec
  split at hdec
  · cases hdec
  · rename_i hmove
    cases hdec
    exact resolutionMovement_not_overflow (hb _ _ ho.debitAccount) (hb _ _ ho.creditAccount)
      ho.debitReserved ho.creditReserved (effectiveAmount_eq_ok hamount).1 hmove
  · cases hdec

theorem Verdict.not_overflow {backstop : Transfer → ℕ → Bool} {batchImported : Bool} {now : ℕ}
    {b b' : Book} {t : Transfer} {r : CreateTransferResult} (h : Inv b.store)
    (hb : AllBounded b.store) (hpost : classify t = .post)
    (hv : Verdict backstop batchImported now b t r b') : r ∉ postedOverflows := by
  cases hv with
  | malformed hpre =>
    have hmem := mem_of_firstFailing_eq_some hpre
    simp only [List.map_cons, List.map_nil, List.mem_cons, List.not_mem_nil, or_false] at hmem
    rintro hover
    simp only [postedOverflows, List.mem_cons, List.not_mem_nil, or_false] at hover
    rcases hover with rfl | rfl <;> simp at hmem
  | @known existing _ _ =>
    have hall : ∀ c ∈ existsCodes, c ∉ postedOverflows := by decide
    exact hall _ (transferExistsResult_mem t existing)
  | burned _ _ _ => decide
  | illFormed _ _ _ hill =>
    have hmem := mem_of_firstFailing_eq_some hill
    rintro hover
    simp only [postedOverflows, List.mem_cons, List.not_mem_nil, or_false] at hover
    rcases hover with rfl | rfl <;> simp at hmem
  | refused _ _ _ _ hdec =>
    unfold decideTransfer at hdec
    rw [hpost] at hdec
    exact h.decideResolution_not_overflow hb hdec
  | created _ _ _ _ _ => decide

theorem Inv.createTransfers_not_overflow {s' : Store} (h : Inv s) (hb : AllBounded s) {now : ℕ}
    {batch : List Transfer} {results : List CreateTransferResult}
    (hc : createTransfers s now batch = .ok (results, s')) :
    ∀ p ∈ batch.zip results, classify p.1 = .post → p.2 ∉ postedOverflows := by
  obtain ⟨swept, b', -, hcall⟩ := h.transferCall [] hc
  intro p hp hpost
  rcases hcall.answers p hp with hmem | ⟨b₁, b₂, hinv, hsteps, htransfer⟩
  · have hall : ∀ c ∈ [CreateTransferResult.created, .exists_, .linkedEventFailed,
        .linkedEventChainOpen], c ∉ postedOverflows := by decide
    exact hall _ hmem
  · have hswept : AllBounded (Book.mk swept []).store :=
      AllBounded.steps (b := ⟨s, []⟩) hb hcall.sweepSteps
    exact (Book.transfer_verdict htransfer).not_overflow hinv (hswept.steps hsteps) hpost

/-- Checks 62 to 65 of `stage_regular`, with the accounts they let through. -/
def regularTotals (t : Transfer) (debit credit : Account) :
    Except CreateTransferResult Movement :=
  let amount := balancingAmount t debit credit
  match checkedAdd u128Max debit.debitsPosted amount with
  | none => .error .overflowsDebitsPosted
  | some debitsPosted =>
    match checkedAdd u128Max credit.creditsPosted amount with
    | none => .error .overflowsCreditsPosted
    | some creditsPosted =>
      let debit := { debit with debitsPosted := debitsPosted }
      let credit := { credit with creditsPosted := creditsPosted }
      match totalChecks debit credit with
      | some code => .error code
      | none => .ok ⟨amount, debit, credit⟩

/-- Checks 60, 61, 64 and 65 of `stage_pending`, with the accounts they let through. -/
def pendingTotals (t : Transfer) (debit credit : Account) :
    Except CreateTransferResult Movement :=
  let amount := balancingAmount t debit credit
  match checkedAdd u128Max debit.debitsPending amount with
  | none => .error .overflowsDebitsPending
  | some debitsPending =>
    match checkedAdd u128Max credit.creditsPending amount with
    | none => .error .overflowsCreditsPending
    | some creditsPending =>
      let debit := { debit with debitsPending := debitsPending }
      let credit := { credit with creditsPending := creditsPending }
      match totalChecks debit credit with
      | some code => .error code
      | none => .ok ⟨amount, debit, credit⟩

theorem regularMovement_eq_totals {t : Transfer} {importedTs : Option ℕ} {lastTs : ℕ}
    {debit credit : Account} (h : movementChecks t importedTs lastTs debit credit = none) :
    regularMovement t importedTs lastTs debit credit = (regularTotals t debit credit >>= fun m =>
      match balanceChecks m.debit m.credit with
      | some code => .error code
      | none => .ok m) := by
  unfold regularMovement regularTotals
  rw [h]
  dsimp only
  cases checkedAdd u128Max debit.debitsPosted _ with
  | none => rfl
  | some _ =>
    cases checkedAdd u128Max credit.creditsPosted _ with
    | none => rfl
    | some _ =>
      dsimp only
      cases totalChecks _ _ <;> rfl

theorem pendingMovement_eq_totals {t : Transfer} {prospectiveTs : ℕ} {importedTs : Option ℕ}
    {lastTs : ℕ} {debit credit : Account}
    (h : movementChecks t importedTs lastTs debit credit = none) :
    pendingMovement t prospectiveTs importedTs lastTs debit credit =
      (pendingTotals t debit credit >>= fun m =>
        match (timeoutCheck t prospectiveTs).or (balanceChecks m.debit m.credit) with
        | some code => .error code
        | none =>
          let closed := closeAccounts t m.debit m.credit
          .ok ⟨m.amount, closed.1, closed.2⟩) := by
  unfold pendingMovement pendingTotals
  rw [h]
  dsimp only
  cases checkedAdd u128Max debit.debitsPending _ with
  | none => rfl
  | some _ =>
    cases checkedAdd u128Max credit.creditsPending _ with
    | none => rfl
    | some _ =>
      dsimp only
      cases totalChecks _ _ <;> rfl

/-- The two sums of the balance checks, on the side of each account that they read. -/
structure SumsFit (debit credit : Account) : Prop where
  debit : debit.debitsPosted + debit.debitsPending ≤ u128Max
  credit : credit.creditsPosted + credit.creditsPending ≤ u128Max

theorem sumsFit_of_totalChecks {debit credit : Account} (h : totalChecks debit credit = none) :
    SumsFit debit credit := by
  simp only [totalChecks, firstFailing_eq_none, List.forall_mem_cons, Option.isNone_eq_false_iff,
    Option.isSome_iff_exists, checkedAdd_eq_some] at h
  obtain ⟨⟨_, hd, -⟩, ⟨_, hc, -⟩, -⟩ := h
  exact ⟨by omega, by omega⟩

theorem SumsFit.of_bounded {debit credit : Account} (hd : Bounded debit) (hc : Bounded credit) :
    SumsFit debit credit := by
  have hdebits := hd.debits
  have hcredits := hc.credits
  exact ⟨by omega, by omega⟩

theorem sumsFit_of_regularTotals {t : Transfer} {debit credit : Account} {m : Movement}
    (h : regularTotals t debit credit = .ok m) : SumsFit m.debit m.credit := by
  unfold regularTotals at h
  dsimp only at h
  split at h
  · cases h
  split at h
  · cases h
  split at h
  · cases h
  rename_i htotals
  cases h
  exact sumsFit_of_totalChecks htotals

theorem sumsFit_of_pendingTotals {t : Transfer} {debit credit : Account} {m : Movement}
    (h : pendingTotals t debit credit = .ok m) : SumsFit m.debit m.credit := by
  unfold pendingTotals at h
  dsimp only at h
  split at h
  · cases h
  split at h
  · cases h
  split at h
  · cases h
  rename_i htotals
  cases h
  exact sumsFit_of_totalChecks htotals

/-- The accounts that the staging of `t` loads in the state `w` of a call. -/
def Loads (db : Store) (t : Transfer) (w : TransferWork) (debit credit : Account) : Prop :=
  ∃ state state', loadAccount db t.debitAccountId w.state = (some debit, state) ∧
    loadAccount db t.creditAccountId state = (some credit, state')

theorem Refines.loads {log : List Entry} {b : Book} {t : Transfer} {w : TransferWork}
    {debit credit : Account} (h : Refines s log w b) (hl : Loads s t w debit credit) :
    b.store.accounts t.debitAccountId = some debit ∧
      b.store.accounts t.creditAccountId = some credit := by
  obtain ⟨state, state', hd, hc⟩ := hl
  obtain ⟨_, hd', hview⟩ := ApplyState.loadAccount_view h.coherent t.debitAccountId
  rw [hd] at hd'
  obtain ⟨hdebit, rfl⟩ := Prod.mk.inj hd'
  obtain ⟨_, hc', -⟩ := ApplyState.loadAccount_view hview.coherent t.creditAccountId
  rw [hc] at hc'
  rw [h.accounts]
  refine ⟨hdebit.symm, ?_⟩
  rw [← hview.accounts]
  exact (Prod.mk.inj hc').1.symm

theorem Inv.handled_bounded (h : Inv s) (hb : AllBounded s) {now : ℕ} {batch : List Transfer}
    {state : ApplyState} (hsweep : sweepExpired s now .default = .ok state) :
    ∀ p ∈ (transferOps lazilyExpired s (transfersImported batch) now).handled
        (chainSegments transferLinked batch) (.start s state),
      ∃ b, Refines s [] p.2 b ∧ AllBounded b.store := by
  obtain ⟨swept, hswept, hsteps, -⟩ := exists_sweep now [] h
  obtain ⟨state', hstate, hR⟩ := (sweepExpired_refines h.wellKeyed [] now).ok_right hswept
  rw [hsweep] at hstate
  cases hstate
  have hQ : ∀ {b b' : Book}, Inv b.store → AllBounded b.store → Step now b b' →
      AllBounded b'.store := fun _ hb hs => hb.step hs
  have hstart : Inv (Book.mk swept []).store ∧ AllBounded (Book.mk swept []).store :=
    ⟨h.steps hsteps, AllBounded.steps (b := ⟨s, []⟩) hb hsteps⟩
  intro p hp
  rw [chainSegments_eq] at hp
  obtain ⟨b, hR', -, hb'⟩ := (transferOps_simulates s [] lazilyExpired (transfersImported batch)
    now).handled (bookTransferOps_keeps hQ lazilyExpired (transfersImported batch))
    (bookTransferOps_exact lazilyExpired (transfersImported batch) now)
    (bookTransferOps_finish hQ)
    (fun seg hseg => segments_items_ne_nil transferLinked hseg) hR hstart p hp
  exact ⟨b, hR', hb'⟩

/-- On a reachable store all sums of balances fit the type. In every call on it,
the accounts that an item loads are bounded, so the saturating sums of
`balancingAmount` are plain sums; the accounts that reach the balance checks have
plain sums too; and no post is answered with an overflow of a posted balance. -/
theorem sums_exact (h : Reachable s) :
    AllBounded s ∧
    (∀ now batch state, sweepExpired s now .default = .ok state →
      ∀ p ∈ (transferOps lazilyExpired s (transfersImported batch) now).handled
          (chainSegments transferLinked batch) (.start s state),
        ∀ debit credit, Loads s p.1 p.2 debit credit →
          Bounded debit ∧ Bounded credit ∧
          saturatingAdd u128Max debit.debitsPosted debit.debitsPending =
            debit.debitsPosted + debit.debitsPending ∧
          saturatingAdd u128Max credit.creditsPosted credit.creditsPending =
            credit.creditsPosted + credit.creditsPending ∧
          (∀ m, regularTotals p.1 debit credit = .ok m → SumsFit m.debit m.credit) ∧
          (∀ m, pendingTotals p.1 debit credit = .ok m → SumsFit m.debit m.credit)) ∧
    ∀ now batch results s', createTransfers s now batch = .ok (results, s') →
      ∀ p ∈ batch.zip results, classify p.1 = .post → p.2 ∉ postedOverflows := by
  refine ⟨h.bounded, ?_, ?_⟩
  · intro now batch state hsweep p hp debit credit hl
    obtain ⟨b, hR, hb⟩ := h.inv.handled_bounded h.bounded hsweep p hp
    obtain ⟨hdebit, hcredit⟩ := hR.loads hl
    have hd := hb _ _ hdebit
    have hc := hb _ _ hcredit
    have hfit := SumsFit.of_bounded hd hc
    exact ⟨hd, hc, saturatingAdd_of_le hfit.debit, saturatingAdd_of_le hfit.credit,
      fun m hm => sumsFit_of_regularTotals hm, fun m hm => sumsFit_of_pendingTotals hm⟩
  · intro now batch results s' hc
    exact h.inv.createTransfers_not_overflow h.bounded hc

theorem sums_exact_sampleReserved : Bounded sampleDebtor :=
  (sums_exact sampleReserved_reachable).1 _ _ sampleReserved_debtor

end BlueDB.Ledger
