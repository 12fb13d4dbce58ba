import BlueDB.Ledger.Soundness
import BlueDB.Lib.Journal

/-!
# Balances are journal turnovers

The stored transfers form two journals: what has been posted, and what is still
reserved. The four balances of an account are its turnovers in them, and limited
accounts stay within their limits. Every step keeps both.
-/

namespace BlueDB.Ledger

/-- The posting a transfer record stands for. -/
def posting (t : Transfer) : Posting U128 := ⟨t.debitAccountId, t.creditAccountId, t.amount⟩

def Transfer.posts (t : Transfer) : Bool := classify t == .regular || classify t == .post

def settledJournal (s : Store) : Journal U128 U128 := fun id =>
  (s.transfers id).bind fun t => if t.posts then some (posting t) else none

/-- The postings of all reservations without a pending state. -/
def outstandingJournal (s : Store) : Journal U128 U128 := fun id =>
  (s.transfers id).bind fun t =>
    if t.flags.contains .pending = true ∧ s.pendingStates id = none then some (posting t) else none

/-- The balances of account `id` agree with the journals. -/
structure Books (s : Store) (id : U128) (a : Account) : Prop where
  debitsPosted : a.debitsPosted = (settledJournal s).debits id
  creditsPosted : a.creditsPosted = (settledJournal s).credits id
  debitsPending : a.debitsPending = (outstandingJournal s).debits id
  creditsPending : a.creditsPending = (outstandingJournal s).credits id

def Balanced (s : Store) : Prop := ∀ id a, s.accounts id = some a → Books s id a

/-- The balance limits of an account hold. -/
structure Limited (a : Account) : Prop where
  debits : a.flags.contains .debitsMustNotExceedCredits = true →
    a.debitsPosted + a.debitsPending ≤ a.creditsPosted
  credits : a.flags.contains .creditsMustNotExceedDebits = true →
    a.creditsPosted + a.creditsPending ≤ a.debitsPosted

def AllLimited (s : Store) : Prop := ∀ id a, s.accounts id = some a → Limited a

variable {s : Store}

theorem Balanced.empty : Balanced .empty := by
  intro id a h
  simp [Store.empty] at h

theorem AllLimited.empty : AllLimited .empty := by
  intro id a h
  simp [Store.empty] at h

theorem Books.of_journals {s' : Store} {id : U128} {a : Account} (h : Books s id a)
    (hs : settledJournal s' = settledJournal s)
    (ho : outstandingJournal s' = outstandingJournal s) : Books s' id a := by
  constructor
  · rw [hs]
    exact h.debitsPosted
  · rw [hs]
    exact h.creditsPosted
  · rw [ho]
    exact h.debitsPending
  · rw [ho]
    exact h.creditsPending

/-- To prove something of every account after two were written, prove it of the
two and of all the others. -/
theorem forall_put_put {m : U128 → Option Account} {debit credit : Account}
    {P : U128 → Account → Prop} (hd : P debit.id debit) (hc : P credit.id credit)
    (ho : ∀ k a, m k = some a → k ≠ debit.id → k ≠ credit.id → P k a) :
    ∀ k a, put (put m debit.id debit) credit.id credit k = some a → P k a := by
  intro k a h
  simp only [put_apply] at h
  split_ifs at h with hkc hkd
  · rw [← Option.some.inj h, hkc]
    exact hc
  · rw [← Option.some.inj h, hkd]
    exact hd
  · exact ho k a h hkd hkc

theorem settledJournal_enact (e : Effect) :
    settledJournal (s.enact e) = Function.update (settledJournal s) e.record.id
      (if e.record.posts then some (posting e.record) else none) := by
  funext id
  simp only [settledJournal, Store.enact_transfers, put_apply, Function.update_apply]
  split_ifs with hid <;> simp_all

theorem settledJournal_eq_some {id : U128} {p : Posting U128} (h : settledJournal s id = some p) :
    ∃ t, s.transfers id = some t ∧ p = posting t := by
  simp only [settledJournal, Option.bind_eq_some_iff] at h
  obtain ⟨t, ht, hp⟩ := h
  split_ifs at hp
  exact ⟨t, ht, (Option.some.inj hp).symm⟩

theorem outstandingJournal_eq_some {id : U128} {p : Posting U128}
    (h : outstandingJournal s id = some p) : ∃ t, s.transfers id = some t ∧ p = posting t := by
  simp only [outstandingJournal, Option.bind_eq_some_iff] at h
  obtain ⟨t, ht, hp⟩ := h
  split_ifs at hp
  exact ⟨t, ht, (Option.some.inj hp).symm⟩

theorem settledJournal_of_fresh {id : U128} (h : s.transfers id = none) :
    settledJournal s id = none := by
  simp [settledJournal, h]

theorem outstandingJournal_of_fresh {id : U128} (h : s.transfers id = none) :
    outstandingJournal s id = none := by
  simp [outstandingJournal, h]

theorem settledJournal_enact_of_not_posts {e : Effect} (hfresh : s.transfers e.record.id = none)
    (hp : e.record.posts = false) : settledJournal (s.enact e) = settledJournal s := by
  rw [settledJournal_enact, hp, Function.update_eq_self_iff, settledJournal_of_fresh hfresh]
  rfl

theorem outstandingJournal_enact_of_unresolved (h : Sound s) {e : Effect}
    (hfresh : s.transfers e.record.id = none) (hres : e.resolved = none) :
    outstandingJournal (s.enact e) = Function.update (outstandingJournal s) e.record.id
      (if e.record.flags.contains .pending then some (posting e.record) else none) := by
  have hstate := h.pendingStates_of_fresh hfresh
  funext id
  simp only [outstandingJournal, Store.enact_transfers, Store.enact_pendingStates, hres,
    recordResolution, put_apply, Function.update_apply]
  split_ifs with hid <;> simp_all

theorem outstandingJournal_enact_of_resolved {e : Effect}
    (hfresh : s.transfers e.record.id = none) {pending : Transfer} {status : PendingStatus}
    (hres : e.resolved = some (pending, status))
    (hp : e.record.flags.contains .pending = false) :
    outstandingJournal (s.enact e) = Function.update (outstandingJournal s) pending.id none := by
  funext id
  simp only [outstandingJournal, Store.enact_transfers, Store.enact_pendingStates, hres,
    recordResolution, put_apply, Function.update_apply]
  by_cases hid : id = e.record.id
  · subst hid
    simp [hp, hfresh]
  · by_cases hpid : id = pending.id
    · simp [hpid]
    · simp [hid, hpid]

theorem settledJournal_expire (pending : Transfer) (debit credit : Account) :
    settledJournal (s.expire pending debit credit) = settledJournal s := by
  funext id
  simp [settledJournal]

theorem outstandingJournal_expire (pending : Transfer) (debit credit : Account) :
    outstandingJournal (s.expire pending debit credit) =
      Function.update (outstandingJournal s) pending.id none := by
  funext id
  simp only [outstandingJournal, Store.expire_transfers, Store.expire_pendingStates, put_apply,
    Function.update_apply]
  by_cases hid : id = pending.id <;> simp [hid]

theorem Outstanding.journal {pending : Transfer} {debit credit : Account}
    (h : Outstanding s pending debit credit) :
    outstandingJournal s pending.id = some (posting pending) := by
  simp [outstandingJournal, h.stored, h.reserve, h.unresolved]

/-- The two accounts of a transfer before and after a step: `posted` is added to
the posted balances and `pend` applied to the pending ones. -/
structure AccountsRebooked (debit credit debit' credit' : Account) (posted : ℕ) (pend : ℕ → ℕ) :
    Prop where
  debitsPosted : debit'.debitsPosted = debit.debitsPosted + posted
  debitsPending : debit'.debitsPending = pend debit.debitsPending
  debitCreditsPosted : debit'.creditsPosted = debit.creditsPosted
  debitCreditsPending : debit'.creditsPending = debit.creditsPending
  creditsPosted : credit'.creditsPosted = credit.creditsPosted + posted
  creditsPending : credit'.creditsPending = pend credit.creditsPending
  creditDebitsPosted : credit'.debitsPosted = credit.debitsPosted
  creditDebitsPending : credit'.debitsPending = credit.debitsPending

/-- The same change, seen in the journals. -/
structure JournalsRebooked (s s' : Store) (debitId creditId : U128) (posted : ℕ) (pend : ℕ → ℕ) :
    Prop where
  debitsPosted : ∀ k, (settledJournal s').debits k =
    (settledJournal s).debits k + if debitId = k then posted else 0
  creditsPosted : ∀ k, (settledJournal s').credits k =
    (settledJournal s).credits k + if creditId = k then posted else 0
  debitsPending : ∀ k, (outstandingJournal s').debits k =
    if debitId = k then pend ((outstandingJournal s).debits k) else (outstandingJournal s).debits k
  creditsPending : ∀ k, (outstandingJournal s').credits k =
    if creditId = k then pend ((outstandingJournal s).credits k)
    else (outstandingJournal s).credits k

theorem Balanced.rebook (h : Balanced s) {s' : Store} {debitId creditId : U128}
    {debit credit debit' credit' : Account} {posted : ℕ} {pend : ℕ → ℕ}
    (hdebit : s.accounts debitId = some debit) (hcredit : s.accounts creditId = some credit)
    (hne : debitId ≠ creditId) (hd : debit'.id = debitId) (hc : credit'.id = creditId)
    (haccounts : s'.accounts = put (put s.accounts debit'.id debit') credit'.id credit')
    (ha : AccountsRebooked debit credit debit' credit' posted pend)
    (hj : JournalsRebooked s s' debitId creditId posted pend) : Balanced s' := by
  have hbd := h debitId debit hdebit
  have hbc := h creditId credit hcredit
  unfold Balanced
  rw [haccounts]
  apply forall_put_put
  · rw [hd]
    constructor
    · rw [hj.debitsPosted, if_pos rfl, ← hbd.debitsPosted, ha.debitsPosted]
    · rw [hj.creditsPosted, if_neg hne.symm, ← hbd.creditsPosted, ha.debitCreditsPosted, add_zero]
    · rw [hj.debitsPending, if_pos rfl, ← hbd.debitsPending, ha.debitsPending]
    · rw [hj.creditsPending, if_neg hne.symm, ← hbd.creditsPending, ha.debitCreditsPending]
  · rw [hc]
    constructor
    · rw [hj.debitsPosted, if_neg hne, ← hbc.debitsPosted, ha.creditDebitsPosted, add_zero]
    · rw [hj.creditsPosted, if_pos rfl, ← hbc.creditsPosted, ha.creditsPosted]
    · rw [hj.debitsPending, if_neg hne, ← hbc.debitsPending, ha.creditDebitsPending]
    · rw [hj.creditsPending, if_pos rfl, ← hbc.creditsPending, ha.creditsPending]
  · intro k a hk hkd hkc
    have hbk := h k a hk
    have hkd : debitId ≠ k := fun heq => hkd (heq.symm.trans hd.symm)
    have hkc : creditId ≠ k := fun heq => hkc (heq.symm.trans hc.symm)
    constructor
    · rw [hj.debitsPosted, if_neg hkd, ← hbk.debitsPosted, add_zero]
    · rw [hj.creditsPosted, if_neg hkc, ← hbk.creditsPosted, add_zero]
    · rw [hj.debitsPending, if_neg hkd, ← hbk.debitsPending]
    · rw [hj.creditsPending, if_neg hkc, ← hbk.creditsPending]

theorem JournalsRebooked.of_settled {s' : Store} {id : U128} {p : Posting U128} (pend : ℕ → ℕ)
    (hfresh : settledJournal s id = none)
    (hs : settledJournal s' = Function.update (settledJournal s) id (some p))
    (hd : ∀ k, (outstandingJournal s').debits k = if p.debit = k then
      pend ((outstandingJournal s).debits k) else (outstandingJournal s).debits k)
    (hc : ∀ k, (outstandingJournal s').credits k = if p.credit = k then
      pend ((outstandingJournal s).credits k) else (outstandingJournal s).credits k) :
    JournalsRebooked s s' p.debit p.credit p.amount pend := by
  refine ⟨?_, ?_, hd, hc⟩
  · intro k
    rw [hs, Journal.debits_file _ hfresh]
  · intro k
    rw [hs, Journal.credits_file _ hfresh]

theorem JournalsRebooked.of_unsettled {s' : Store} {debitId creditId : U128} (pend : ℕ → ℕ)
    (hs : settledJournal s' = settledJournal s)
    (hd : ∀ k, (outstandingJournal s').debits k = if debitId = k then
      pend ((outstandingJournal s).debits k) else (outstandingJournal s).debits k)
    (hc : ∀ k, (outstandingJournal s').credits k = if creditId = k then
      pend ((outstandingJournal s).credits k) else (outstandingJournal s).credits k) :
    JournalsRebooked s s' debitId creditId 0 pend := by
  refine ⟨?_, ?_, hd, hc⟩
  · intro k
    simp [hs]
  · intro k
    simp [hs]

theorem outstanding_struck {s' : Store} {pending : Transfer}
    (hp : outstandingJournal s pending.id = some (posting pending))
    (ho : outstandingJournal s' = Function.update (outstandingJournal s) pending.id none) :
    (∀ k, (outstandingJournal s').debits k = if pending.debitAccountId = k then
      (outstandingJournal s).debits k - pending.amount else (outstandingJournal s).debits k) ∧
    (∀ k, (outstandingJournal s').credits k = if pending.creditAccountId = k then
      (outstandingJournal s).credits k - pending.amount
      else (outstandingJournal s).credits k) := by
  constructor
  · intro k
    rw [ho, Journal.debits_strike _ hp]
    by_cases hk : pending.debitAccountId = k <;> simp [posting, hk]
  · intro k
    rw [ho, Journal.credits_strike _ hp]
    by_cases hk : pending.creditAccountId = k <;> simp [posting, hk]

theorem Balanced.moved (hsound : Sound s) (h : Balanced s) {r : Transfer} {debit credit : Account}
    (hm : Moves s r debit credit) : Balanced (s.enact (moveEffect r debit credit)) := by
  have hkind := classify_eq_regular.mp hm.kind
  have he := hm.enactable hsound
  have hposts : r.posts = true := by simp [Transfer.posts, hm.kind]
  have hs : settledJournal (s.enact (moveEffect r debit credit)) =
      Function.update (settledJournal s) r.id (some (posting r)) := by
    rw [settledJournal_enact]
    simp [moveEffect, hposts]
  have ho : outstandingJournal (s.enact (moveEffect r debit credit)) = outstandingJournal s := by
    rw [outstandingJournal_enact_of_unresolved hsound he.fresh rfl, Function.update_eq_self_iff,
      outstandingJournal_of_fresh he.fresh]
    simp [moveEffect, hkind.2]
  have hd : ∀ k, (outstandingJournal (s.enact (moveEffect r debit credit))).debits k =
      if (posting r).debit = k then (outstandingJournal s).debits k + 0
      else (outstandingJournal s).debits k := by
    intro k
    rw [ho, add_zero, ite_self]
  have hc : ∀ k, (outstandingJournal (s.enact (moveEffect r debit credit))).credits k =
      if (posting r).credit = k then (outstandingJournal s).credits k + 0
      else (outstandingJournal s).credits k := by
    intro k
    rw [ho, add_zero, ite_self]
  have hj := JournalsRebooked.of_settled (· + 0) (settledJournal_of_fresh hm.fresh) hs hd hc
  have ha : AccountsRebooked debit credit (moveEffect r debit credit).debit
      (moveEffect r debit credit).credit r.amount (· + 0) :=
    ⟨rfl, rfl, rfl, rfl, rfl, rfl, rfl, rfl⟩
  exact h.rebook hm.debitAccount hm.creditAccount he.filed.distinct he.debitId he.creditId
    (Store.enact_accounts s _) ha hj

theorem closeAccounts_rebooked {debit credit debit' credit' : Account} {posted : ℕ}
    {pend : ℕ → ℕ} (h : AccountsRebooked debit credit debit' credit' posted pend) (t : Transfer) :
    AccountsRebooked debit credit (closeAccounts t debit' credit').1
      (closeAccounts t debit' credit').2 posted pend := by
  obtain ⟨h₁, h₂, h₃, h₄, h₅, h₆, h₇, h₈⟩ := h
  unfold closeAccounts
  dsimp only
  constructor <;> split_ifs <;> assumption

theorem Balanced.reserved {now : ℕ} (hsound : Sound s) (h : Balanced s) {r : Transfer}
    {debit credit : Account} (hr : Reserves now s r debit credit) :
    Balanced (s.enact (reserveEffect r debit credit)) := by
  have hkind := classify_eq_pendingReserve.mp hr.kind
  have he := hr.enactable hsound
  have hposts : r.posts = false := by simp [Transfer.posts, hr.kind]
  have hs : settledJournal (s.enact (reserveEffect r debit credit)) = settledJournal s :=
    settledJournal_enact_of_not_posts he.fresh hposts
  have ho : outstandingJournal (s.enact (reserveEffect r debit credit)) =
      Function.update (outstandingJournal s) r.id (some (posting r)) := by
    rw [outstandingJournal_enact_of_unresolved hsound he.fresh rfl]
    simp [reserveEffect, hkind.2]
  have hfresh := outstandingJournal_of_fresh hr.fresh
  have hreserved : AccountsRebooked debit credit (reservedAccounts r debit credit).1
      (reservedAccounts r debit credit).2 0 (· + r.amount) :=
    ⟨rfl, rfl, rfl, rfl, rfl, rfl, rfl, rfl⟩
  refine h.rebook hr.debitAccount hr.creditAccount he.filed.distinct he.debitId he.creditId
    (Store.enact_accounts s _) (closeAccounts_rebooked hreserved r)
    (JournalsRebooked.of_unsettled (· + r.amount) hs ?_ ?_)
  · intro k
    rw [ho, Journal.debits_file _ hfresh]
    by_cases hk : r.debitAccountId = k <;> simp [posting, hk]
  · intro k
    rw [ho, Journal.credits_file _ hfresh]
    by_cases hk : r.creditAccountId = k <;> simp [posting, hk]

theorem settledAccounts_post_rebooked (pending : Transfer) (effective : ℕ)
    (debit credit : Account) :
    AccountsRebooked debit credit (settledAccounts pending true effective debit credit).1
      (settledAccounts pending true effective debit credit).2 effective (· - pending.amount) :=
  ⟨rfl, rfl, rfl, rfl, rfl, rfl, rfl, rfl⟩

theorem settledAccounts_release_rebooked (pending : Transfer) (effective : ℕ)
    (debit credit : Account) :
    AccountsRebooked debit credit (settledAccounts pending false effective debit credit).1
      (settledAccounts pending false effective debit credit).2 0 (· - pending.amount) := by
  simp only [settledAccounts, Bool.false_eq_true, if_false]
  unfold reopenAccounts
  constructor <;> dsimp only <;> split_ifs <;> rfl

theorem Balanced.settled (hsound : Sound s) (h : Balanced s) {r pending : Transfer} {post : Bool}
    {debit credit : Account} (hs : Settles s r pending post debit credit) :
    Balanced (s.enact (settleEffect r pending post debit credit)) := by
  have he := hs.enactable hsound
  have hnotPending : r.flags.contains .pending = false :=
    TransferFlags.not_pending_of_isResolution hs.wellFormed.exclusive
      (isResolution_of_classify hs.kind)
  have hpending := hs.toOutstanding.journal
  have ho := outstandingJournal_enact_of_resolved he.fresh rfl hnotPending
  obtain ⟨hd, hc⟩ := outstanding_struck hpending ho
  have hne := (hsound.filed _ _ hs.stored).distinct
  have hdid : (settleEffect r pending post debit credit).debit.id = pending.debitAccountId :=
    he.debitId.trans hs.sameDebit
  have hcid : (settleEffect r pending post debit credit).credit.id = pending.creditAccountId :=
    he.creditId.trans hs.sameCredit
  cases post with
  | true =>
    have hposts : r.posts = true := by simp [Transfer.posts, hs.kind, TransferOp.ofPost]
    have hsettled : settledJournal (s.enact (settleEffect r pending true debit credit)) =
        Function.update (settledJournal s) r.id (some (posting r)) := by
      rw [settledJournal_enact]
      simp [settleEffect, hposts]
    rw [← hs.sameDebit] at hd
    rw [← hs.sameCredit] at hc
    have hj := JournalsRebooked.of_settled (· - pending.amount)
      (settledJournal_of_fresh hs.fresh) hsettled hd hc
    simp only [posting, hs.sameDebit, hs.sameCredit] at hj
    exact h.rebook hs.debitAccount hs.creditAccount hne hdid hcid (Store.enact_accounts s _)
      (settledAccounts_post_rebooked pending r.amount debit credit) hj
  | false =>
    have hposts : r.posts = false := by simp [Transfer.posts, hs.kind, TransferOp.ofPost]
    have hsettled : settledJournal (s.enact (settleEffect r pending false debit credit)) =
        settledJournal s :=
      settledJournal_enact_of_not_posts he.fresh hposts
    exact h.rebook hs.debitAccount hs.creditAccount hne hdid hcid (Store.enact_accounts s _)
      (settledAccounts_release_rebooked pending r.amount debit credit)
      (JournalsRebooked.of_unsettled (· - pending.amount) hsettled hd hc)

theorem Balanced.expired (hsound : Sound s) (h : Balanced s) {pending : Transfer}
    {debit credit : Account} (ho : Outstanding s pending debit credit) :
    Balanced (s.expire pending debit credit) := by
  obtain ⟨hd, hc⟩ := outstanding_struck ho.journal
    (outstandingJournal_expire pending debit credit)
  have hids := settledAccounts_ids pending false pending.amount debit credit
  exact h.rebook ho.debitAccount ho.creditAccount (hsound.filed _ _ ho.stored).distinct
    (hids.1.trans (hsound.accountKeys _ _ ho.debitAccount))
    (hids.2.trans (hsound.accountKeys _ _ ho.creditAccount)) Store.expire_accounts
    (settledAccounts_release_rebooked pending pending.amount debit credit)
    (JournalsRebooked.of_unsettled (· - pending.amount)
      (settledJournal_expire pending debit credit) hd hc)

theorem Balanced.opened (hsound : Sound s) (h : Balanced s) {a : Account} (ha : Opens s a) :
    Balanced (s.openAccount a) := by
  have hdebit : ∀ k t, s.transfers k = some t → t.debitAccountId ≠ a.id := by
    intro k t ht heq
    have hsome := hsound.debitAccount k t ht
    rw [heq, ha.fresh] at hsome
    simp at hsome
  have hcredit : ∀ k t, s.transfers k = some t → t.creditAccountId ≠ a.id := by
    intro k t ht heq
    have hsome := hsound.creditAccount k t ht
    rw [heq, ha.fresh] at hsome
    simp at hsome
  intro id a' ha'
  simp only [Store.openAccount, put_apply] at ha'
  split_ifs at ha' with hid
  · have heq : a = a' := Option.some.inj ha'
    subst heq hid
    constructor
    · rw [ha.debitsPosted]
      refine (Journal.turnover_of_unused _ _ ?_).symm
      intro k p hp
      obtain ⟨t, ht, rfl⟩ := settledJournal_eq_some hp
      exact hdebit k t ht
    · rw [ha.creditsPosted]
      refine (Journal.turnover_of_unused _ _ ?_).symm
      intro k p hp
      obtain ⟨t, ht, rfl⟩ := settledJournal_eq_some hp
      exact hcredit k t ht
    · rw [ha.debitsPending]
      refine (Journal.turnover_of_unused _ _ ?_).symm
      intro k p hp
      obtain ⟨t, ht, rfl⟩ := outstandingJournal_eq_some hp
      exact hdebit k t ht
    · rw [ha.creditsPending]
      refine (Journal.turnover_of_unused _ _ ?_).symm
      intro k p hp
      obtain ⟨t, ht, rfl⟩ := outstandingJournal_eq_some hp
      exact hcredit k t ht
  · have hbooks := h id a' ha'
    exact hbooks.of_journals rfl rfl

theorem Balanced.step {now : ℕ} {b b' : Book} (hsound : Sound b.store) (h : Balanced b.store)
    (hs : Step now b b') : Balanced b'.store := by
  cases hs with
  | opened ha => exact h.opened hsound ha
  | moved hm => exact h.moved hsound hm
  | reserved hr => exact h.reserved hsound hr
  | settled hset => exact h.settled hsound hset
  | expired ho _ _ => exact h.expired hsound ho
  | burned _ =>
    intro id a ha
    have hbooks := h id a ha
    exact hbooks.of_journals rfl rfl

theorem Limited.of_flags {a a' : Account} (h : Limited a)
    (hf : AccountFlags.SameLimits a.flags a'.flags) (hdp : a'.debitsPosted = a.debitsPosted)
    (hdn : a'.debitsPending = a.debitsPending) (hcp : a'.creditsPosted = a.creditsPosted)
    (hcn : a'.creditsPending = a.creditsPending) : Limited a' := by
  constructor
  · intro hflag
    rw [hf.debits] at hflag
    rw [hdp, hdn, hcp]
    exact h.debits hflag
  · intro hflag
    rw [hf.credits] at hflag
    rw [hcp, hcn, hdp]
    exact h.credits hflag

/-- A property of accounts that holds of new ones and that movements keep. -/
structure KeptByMovements (P : Account → Prop) : Prop where
  opened {a : Account} : a.debitsPending = 0 → a.debitsPosted = 0 → a.creditsPending = 0 →
    a.creditsPosted = 0 → P a
  close {a : Account} : P a → P { a with flags := a.flags.union .closed }
  reopen {a : Account} : P a → P { a with flags := a.flags.without .closed }
  moved {r : Transfer} {debit credit : Account} : P debit → P credit →
    WithinLimits (moveEffect r debit credit).debit (moveEffect r debit credit).credit →
      P (moveEffect r debit credit).debit ∧ P (moveEffect r debit credit).credit
  reserved {r : Transfer} {debit credit : Account} : P debit → P credit →
    WithinLimits (reservedAccounts r debit credit).1 (reservedAccounts r debit credit).2 →
      P (reservedAccounts r debit credit).1 ∧ P (reservedAccounts r debit credit).2
  debited {a : Account} {amount effective : ℕ} : P a → amount ≤ a.debitsPending →
    effective ≤ amount → P { a with
      debitsPending := a.debitsPending - amount
      debitsPosted := a.debitsPosted + effective }
  credited {a : Account} {amount effective : ℕ} : P a → amount ≤ a.creditsPending →
    effective ≤ amount → P { a with
      creditsPending := a.creditsPending - amount
      creditsPosted := a.creditsPosted + effective }

namespace KeptByMovements

variable {P : Account → Prop} (hP : KeptByMovements P) {debit credit : Account}
include hP

theorem closeAccounts (hd : P debit) (hc : P credit) (t : Transfer) :
    P (closeAccounts t debit credit).1 ∧ P (closeAccounts t debit credit).2 := by
  unfold Ledger.closeAccounts
  dsimp only
  constructor
  · split_ifs
    · exact hP.close hd
    · exact hd
  · split_ifs
    · exact hP.close hc
    · exact hc

theorem reopenAccounts (hd : P debit) (hc : P credit) (t : Transfer) :
    P (reopenAccounts t debit credit).1 ∧ P (reopenAccounts t debit credit).2 := by
  unfold Ledger.reopenAccounts
  dsimp only
  constructor
  · split_ifs
    · exact hP.reopen hd
    · exact hd
  · split_ifs
    · exact hP.reopen hc
    · exact hc

theorem settled {pending : Transfer} (hd : P debit) (hc : P credit)
    (hdr : pending.amount ≤ debit.debitsPending) (hcr : pending.amount ≤ credit.creditsPending)
    {effective : ℕ} (heff : effective ≤ pending.amount) (post : Bool) :
    P (settledAccounts pending post effective debit credit).1 ∧
      P (settledAccounts pending post effective debit credit).2 := by
  unfold settledAccounts
  cases post with
  | true =>
    rw [if_pos rfl]
    exact ⟨hP.debited hd hdr heff, hP.credited hc hcr heff⟩
  | false =>
    rw [if_neg (by simp)]
    have hd' := hP.debited hd hdr (Nat.zero_le pending.amount)
    have hc' := hP.credited hc hcr (Nat.zero_le pending.amount)
    exact hP.reopenAccounts hd' hc' pending

omit hP in
theorem rebook (h : ∀ id a, s.accounts id = some a → P a)
    {s' : Store} (haccounts : s'.accounts = put (put s.accounts debit.id debit) credit.id credit)
    (hp : P debit ∧ P credit) : ∀ id a, s'.accounts id = some a → P a := by
  rw [haccounts]
  exact forall_put_put hp.1 hp.2 (fun k a ha _ _ => h k a ha)

theorem step {now : ℕ} {b b' : Book} (h : ∀ id a, b.store.accounts id = some a → P a)
    (hs : Step now b b') : ∀ id a, b'.store.accounts id = some a → P a := by
  cases hs with
  | opened ha =>
    intro id a ha'
    simp only [Book.open, Store.openAccount, put_apply] at ha'
    split_ifs at ha'
    · obtain rfl := Option.some.inj ha'
      exact hP.opened ha.debitsPending ha.debitsPosted ha.creditsPending ha.creditsPosted
    · exact h id a ha'
  | moved hm =>
    exact rebook h (Store.enact_accounts _ _)
      (hP.moved (h _ _ hm.debitAccount) (h _ _ hm.creditAccount) hm.within)
  | reserved hr =>
    obtain ⟨hd, hc⟩ := hP.reserved (h _ _ hr.debitAccount) (h _ _ hr.creditAccount) hr.within
    exact rebook h (Store.enact_accounts _ _) (hP.closeAccounts hd hc _)
  | settled hset =>
    exact rebook h (Store.enact_accounts _ _)
      (hP.settled (h _ _ hset.debitAccount) (h _ _ hset.creditAccount) hset.debitReserved
        hset.creditReserved hset.amount _)
  | expired ho _ _ =>
    exact rebook h Store.expire_accounts
      (hP.settled (h _ _ ho.debitAccount) (h _ _ ho.creditAccount) ho.debitReserved
        ho.creditReserved le_rfl _)
  | burned _ => exact h

end KeptByMovements

/-- Releasing a reservation and posting no more than it never breaches a limit. -/
theorem kept_limited : KeptByMovements Limited where
  opened hdn hdp hcn hcp := ⟨fun _ => by simp [hdn, hdp], fun _ => by simp [hcn, hcp]⟩
  close h := h.of_flags (AccountFlags.sameLimits_union_closed _) rfl rfl rfl rfl
  reopen h := h.of_flags (AccountFlags.sameLimits_without_closed _) rfl rfl rfl rfl
  moved {r debit credit} hd hc hw := by
    refine ⟨⟨hw.debitLimit, ?_⟩, ⟨?_, hw.creditLimit⟩⟩
    · intro hflag
      have := hd.credits hflag
      simp only [moveEffect]
      omega
    · intro hflag
      have := hc.debits hflag
      simp only [moveEffect]
      omega
  reserved hd hc hw := ⟨⟨hw.debitLimit, hd.credits⟩, ⟨hc.debits, hw.creditLimit⟩⟩
  debited h hamount heff := by
    constructor
    · intro hflag
      have := h.debits hflag
      dsimp only
      omega
    · intro hflag
      have := h.credits hflag
      dsimp only
      omega
  credited h hamount heff := by
    constructor
    · intro hflag
      have := h.debits hflag
      dsimp only
      omega
    · intro hflag
      have := h.credits hflag
      dsimp only
      omega

theorem AllLimited.step {now : ℕ} {b b' : Book} (h : AllLimited b.store) (hs : Step now b b') :
    AllLimited b'.store := kept_limited.step h hs

end BlueDB.Ledger
