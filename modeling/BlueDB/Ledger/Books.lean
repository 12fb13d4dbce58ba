import BlueDB.Ledger.Runs

/-!
# The books of a reachable ledger

In every state that any sequence of calls can reach, the balances are the
turnovers of the stored transfers, both sides of the ledger have the same total,
limited accounts are within their limits, and the next call succeeds.
-/

namespace BlueDB.Ledger

open Finset

def totalOf (s : Store) (balance : Account → ℕ) : ℕ := ∑ id, (s.accounts id).elim 0 balance

/-- Over a store whose transfers refer to stored accounts, the totals of a debit
and a credit balance that are turnovers of one journal agree. -/
theorem totalOf_eq_totalOf {s : Store} {j : Journal U128 U128} {debit credit : Account → ℕ}
    (hd : ∀ id a, s.accounts id = some a → debit a = j.debits id)
    (hc : ∀ id a, s.accounts id = some a → credit a = j.credits id)
    (hj : ∀ i p, j i = some p → (s.accounts p.debit).isSome = true ∧
      (s.accounts p.credit).isSome = true) :
    totalOf s debit = totalOf s credit := by
  have hside : ∀ (side : Posting U128 → U128) (balance : Account → ℕ),
      (∀ id a, s.accounts id = some a → balance a = j.turnover side id) →
      (∀ i p, j i = some p → (s.accounts (side p)).isSome = true) →
      totalOf s balance = ∑ id, j.turnover side id := by
    intro side balance hb hs
    apply sum_congr rfl
    intro id _
    cases ha : s.accounts id with
    | some a => exact hb id a ha
    | none =>
      refine (Journal.turnover_of_unused side j ?_).symm
      rintro i p hp rfl
      have hsome := hs i p hp
      rw [ha] at hsome
      simp at hsome
  have hdebits := hside Posting.debit debit hd fun i p hp => (hj i p hp).1
  have hcredits := hside Posting.credit credit hc fun i p hp => (hj i p hp).2
  rw [hdebits, hcredits]
  exact j.sum_debits_eq_sum_credits (fun _ _ _ => mem_univ _) (fun _ _ _ => mem_univ _)

theorem Sound.settled_accounts {s : Store} (h : Sound s) (i : U128) (p : Posting U128)
    (hp : settledJournal s i = some p) :
    (s.accounts p.debit).isSome = true ∧ (s.accounts p.credit).isSome = true := by
  obtain ⟨t, ht, rfl⟩ := settledJournal_eq_some hp
  exact ⟨h.debitAccount i t ht, h.creditAccount i t ht⟩

theorem Sound.outstanding_accounts {s : Store} (h : Sound s) (i : U128) (p : Posting U128)
    (hp : outstandingJournal s i = some p) :
    (s.accounts p.debit).isSome = true ∧ (s.accounts p.credit).isSome = true := by
  obtain ⟨t, ht, rfl⟩ := outstandingJournal_eq_some hp
  exact ⟨h.debitAccount i t ht, h.creditAccount i t ht⟩

/-- The books equal the fold of the stored transfers, and so balance. -/
theorem reachable_books {s : Store} (h : Reachable s) :
    (∀ id a, s.accounts id = some a →
      a.debitsPosted = (settledJournal s).debits id ∧
      a.creditsPosted = (settledJournal s).credits id ∧
      a.debitsPending = (outstandingJournal s).debits id ∧
      a.creditsPending = (outstandingJournal s).credits id) ∧
    totalOf s Account.debitsPosted = totalOf s Account.creditsPosted ∧
    totalOf s Account.debitsPending = totalOf s Account.creditsPending := by
  have hinv := h.inv
  refine ⟨?_, ?_, ?_⟩
  · intro id a ha
    have hb := hinv.balanced id a ha
    exact ⟨hb.debitsPosted, hb.creditsPosted, hb.debitsPending, hb.creditsPending⟩
  · exact totalOf_eq_totalOf (fun id a ha => (hinv.balanced id a ha).debitsPosted)
      (fun id a ha => (hinv.balanced id a ha).creditsPosted) hinv.sound.settled_accounts
  · exact totalOf_eq_totalOf (fun id a ha => (hinv.balanced id a ha).debitsPending)
      (fun id a ha => (hinv.balanced id a ha).creditsPending) hinv.sound.outstanding_accounts

theorem reachable_books_sample :
    (settledJournal sampleReserved.store).credits 1 = 50 ∧
      (outstandingJournal sampleReserved.store).debits 1 = 30 ∧
      totalOf sampleReserved.store Account.debitsPosted =
        totalOf sampleReserved.store Account.creditsPosted := by
  have hbooks := reachable_books sampleReserved_reachable
  obtain ⟨-, hcredits, hpending, -⟩ := hbooks.1 1 sampleDebtor sampleReserved_debtor
  exact ⟨hcredits.symm, hpending.symm, hbooks.2.1⟩

theorem reachable_within_limits {s : Store} (h : Reachable s) {id : U128} {a : Account}
    (ha : s.accounts id = some a) :
    (a.flags.contains .debitsMustNotExceedCredits = true →
      a.debitsPosted + a.debitsPending ≤ a.creditsPosted) ∧
    (a.flags.contains .creditsMustNotExceedDebits = true →
      a.creditsPosted + a.creditsPending ≤ a.debitsPosted) := by
  have hl := h.inv.limited id a ha
  exact ⟨hl.debits, hl.credits⟩

theorem reachable_within_limits_sample :
    sampleReserved.store.accounts 1 = some sampleDebtor ∧
      sampleDebtor.flags.contains .debitsMustNotExceedCredits = true ∧
      sampleDebtor.debitsPosted + sampleDebtor.debitsPending ≤ sampleDebtor.creditsPosted :=
  ⟨sampleReserved_debtor, rfl,
    (reachable_within_limits sampleReserved_reachable sampleReserved_debtor).1 rfl⟩

/-- No call from a reachable state can abort, whatever the batch and the clock. -/
theorem createTransfers_never_aborts {s : Store} (h : Reachable s) (now : ℕ)
    (batch : List Transfer) :
    ∃ results s', createTransfers s now batch = .ok (results, s') ∧
      results.length = batch.length ∧ Reachable s' := by
  obtain ⟨swept, results, w, hw, hcall⟩ := exists_transferCall lazilyExpired h.inv [] now batch
  have hok : createTransfers s now batch = .ok (results, commitTransfers s w) :=
    createTransfersWith_eq_ok.mpr ⟨w, hw, rfl⟩
  exact ⟨results, commitTransfers s w, hok, hcall.length, h.tail (.transfers hok)⟩

theorem createTransfers_never_aborts_sample :
    ∃ results s', createTransfers sampleReserved.store 2000000000
        [sampleTransfer 102 0 0 30 .postPendingTransfer] = .ok (results, s') ∧
      results.length = 1 ∧ Reachable s' :=
  createTransfers_never_aborts sampleReserved_reachable 2000000000 _

end BlueDB.Ledger
