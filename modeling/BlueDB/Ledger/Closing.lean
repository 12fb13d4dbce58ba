import BlueDB.Ledger.Timestamps

/-!
# Closed accounts

An account is closed by its creator or by one closing pending that is unresolved
or posted, and never by two at once: a closing pending is accepted only between
open accounts. Clearing the flag when such a pending is voided or expires
therefore never reopens an account that something else keeps closed.
-/

namespace BlueDB.Ledger

def CreatedClosed (log : List Entry) (id : U128) : Prop :=
  ∃ a, Entry.account a ∈ log ∧ a.id = id ∧ a.flags.contains .closed = true

def Closes (t : Transfer) (id : U128) : Prop :=
  (t.flags.contains .closingDebit = true ∧ t.debitAccountId = id) ∨
  (t.flags.contains .closingCredit = true ∧ t.creditAccountId = id)

/-- An accepted closing pending of the account that is unresolved or posted. -/
structure Closer (s : Store) (t : Transfer) (id : U128) : Prop where
  stored : s.transfers t.id = some t
  reserve : t.flags.contains .pending = true
  closes : Closes t id
  live : s.pendingStates t.id = none ∨ s.pendingStates t.id = some .posted

structure Closing (b : Book) : Prop where
  closed : ∀ id a, b.store.accounts id = some a →
    (a.flags.contains .closed = true ↔ CreatedClosed b.log id ∨ ∃ t, Closer b.store t id)
  unique : ∀ id t t', Closer b.store t id → Closer b.store t' id → t = t'
  creator : ∀ id t, CreatedClosed b.log id → ¬ Closer b.store t id

theorem Closing.empty : Closing ⟨.empty, []⟩ := by
  refine ⟨?_, ?_, ?_⟩
  · intro id a ha
    simp [Store.empty] at ha
  · intro id t t' h
    have := h.stored
    simp [Store.empty] at this
  · rintro id t ⟨a, ha, -⟩
    simp at ha

theorem createdClosed_append_transfer {log : List Entry} {r : Transfer} {id : U128} :
    CreatedClosed (log ++ [.transfer r]) id ↔ CreatedClosed log id := by
  simp [CreatedClosed]

section

variable {b b' : Book} {s s' : Store}

theorem Closer.account (hsound : Sound s) {t : Transfer} {id : U128} (h : Closer s t id) :
    (s.accounts id).isSome = true := by
  rcases h.closes with ⟨-, rfl⟩ | ⟨-, rfl⟩
  · exact hsound.debitAccount _ _ h.stored
  · exact hsound.creditAccount _ _ h.stored

theorem Closing.of_open (h : Closing b) {id : U128} {a : Account}
    (ha : b.store.accounts id = some a) (hopen : a.flags.contains .closed = false) :
    ¬ CreatedClosed b.log id ∧ ∀ t, ¬ Closer b.store t id := by
  have hiff := h.closed id a ha
  constructor
  · intro hc
    have := hiff.mpr (Or.inl hc)
    rw [hopen] at this
    simp at this
  · intro t ht
    have := hiff.mpr (Or.inr ⟨t, ht⟩)
    rw [hopen] at this
    simp at this

theorem Closing.of_same (h : Closing b)
    (hlog : ∀ id, CreatedClosed b'.log id ↔ CreatedClosed b.log id)
    (hcloser : ∀ t id, Closer b'.store t id ↔ Closer b.store t id)
    (hflags : ∀ id a', b'.store.accounts id = some a' → ∃ a, b.store.accounts id = some a ∧
      a'.flags.contains .closed = a.flags.contains .closed) : Closing b' := by
  refine ⟨?_, ?_, ?_⟩
  · intro id a' ha'
    obtain ⟨a, ha, hf⟩ := hflags id a' ha'
    simp only [hf, hlog, hcloser]
    exact h.closed id a ha
  · intro id t t' ht ht'
    exact h.unique id t t' ((hcloser t id).mp ht) ((hcloser t' id).mp ht')
  · intro id t hc ht
    exact h.creator id t ((hlog id).mp hc) ((hcloser t id).mp ht)

theorem flags_of_put {debit credit debit' credit' : Account}
    (haccounts : s'.accounts = put (put s.accounts debit'.id debit') credit'.id credit')
    (hd : s.accounts debit'.id = some debit)
    (hdf : debit'.flags.contains .closed = debit.flags.contains .closed)
    (hc : s.accounts credit'.id = some credit)
    (hcf : credit'.flags.contains .closed = credit.flags.contains .closed) :
    ∀ id a', s'.accounts id = some a' → ∃ a, s.accounts id = some a ∧
      a'.flags.contains .closed = a.flags.contains .closed := by
  rw [haccounts]
  exact forall_put_put ⟨debit, hd, hdf⟩ ⟨credit, hc, hcf⟩ (fun k a ha _ _ => ⟨a, ha, rfl⟩)

/-- Filing a record that closes nothing, and resolving nothing but by a post,
leaves the closers alone. -/
theorem closer_enact_iff {e : Effect} (he : Enactable s e)
    (hp : e.record.flags.contains .pending = false)
    (hres : ∀ pending status, e.resolved = some (pending, status) →
      s.pendingStates pending.id = none ∧ status = .posted) (t : Transfer) (id : U128) :
    Closer (s.enact e) t id ↔ Closer s t id := by
  have hlive : ∀ k, (recordResolution s.pendingStates e.resolved k = none ∨
      recordResolution s.pendingStates e.resolved k = some .posted) ↔
      (s.pendingStates k = none ∨ s.pendingStates k = some .posted) := by
    intro k
    rcases recordResolution_apply s.pendingStates e.resolved k with
      heq | ⟨pending, status, hr, rfl, heq⟩
    · rw [heq]
    · obtain ⟨hnone, rfl⟩ := hres pending status hr
      rw [heq, hnone]
      simp
  constructor
  · intro h
    have hstored := h.stored
    rw [Store.enact_transfers, put_apply] at hstored
    split_ifs at hstored with hid
    · rw [Option.some.inj hstored, h.reserve] at hp
      simp at hp
    · refine ⟨hstored, h.reserve, h.closes, (hlive t.id).mp ?_⟩
      have hl := h.live
      rwa [Store.enact_pendingStates] at hl
  · intro h
    have hne : t.id ≠ e.record.id := by
      intro hid
      have hstored := h.stored
      rw [hid, he.fresh] at hstored
      simp at hstored
    refine ⟨?_, h.reserve, h.closes, ?_⟩
    · rw [Store.enact_transfers, put_of_ne hne]
      exact h.stored
    · rw [Store.enact_pendingStates]
      exact (hlive t.id).mpr h.live

theorem Closing.moved (hsound : Sound b.store) (h : Closing b) {r : Transfer}
    {debit credit : Account} (hm : Moves b.store r debit credit) :
    Closing (b.file (moveEffect r debit credit)) := by
  have he := hm.enactable hsound
  have hd : b.store.accounts (moveEffect r debit credit).debit.id = some debit := by
    rw [he.debitId]
    exact hm.debitAccount
  have hc : b.store.accounts (moveEffect r debit credit).credit.id = some credit := by
    rw [he.creditId]
    exact hm.creditAccount
  refine h.of_same (fun _ => createdClosed_append_transfer) ?_
    (flags_of_put (Store.enact_accounts _ _) hd rfl hc rfl)
  refine closer_enact_iff he (classify_eq_regular.mp hm.kind).2 ?_
  intro pending status hres
  simp [moveEffect] at hres

theorem Closing.posted (hsound : Sound b.store) (h : Closing b) {r pending : Transfer}
    {debit credit : Account} (hs : Settles b.store r pending true debit credit) :
    Closing (b.file (settleEffect r pending true debit credit)) := by
  have he := hs.enactable hsound
  have hd : b.store.accounts (settleEffect r pending true debit credit).debit.id = some debit := by
    rw [he.debitId]
    exact hs.sameDebit ▸ hs.debitAccount
  have hc : b.store.accounts (settleEffect r pending true debit credit).credit.id =
      some credit := by
    rw [he.creditId]
    exact hs.sameCredit ▸ hs.creditAccount
  refine h.of_same (fun _ => createdClosed_append_transfer) ?_
    (flags_of_put (Store.enact_accounts _ _) hd rfl hc rfl)
  refine closer_enact_iff he (TransferFlags.not_pending_of_isResolution
    hs.wellFormed.exclusive (isResolution_of_classify hs.kind)) ?_
  intro p status hres
  simp only [settleEffect, Option.some.injEq, Prod.mk.injEq] at hres
  obtain ⟨rfl, rfl⟩ := hres
  exact ⟨hs.unresolved, rfl⟩

theorem Closing.opened (hsound : Sound b.store) (hch : Chronicle b) (h : Closing b) {a : Account}
    (ha : Opens b.store a) : Closing (b.open a) := by
  have hcloser : ∀ t id, Closer (b.open a).store t id ↔ Closer b.store t id := by
    intro t id
    exact ⟨fun hc => { hc with }, fun hc => { hc with }⟩
  have hlog : ∀ id, CreatedClosed (b.open a).log id ↔
      CreatedClosed b.log id ∨ (a.id = id ∧ a.flags.contains .closed = true) := by
    intro id
    simp only [CreatedClosed, Book.open, List.mem_append, List.mem_singleton,
      Entry.account.injEq]
    constructor
    · rintro ⟨a', hmem | rfl, hrest⟩
      · exact Or.inl ⟨a', hmem, hrest⟩
      · exact Or.inr hrest
    · rintro (⟨a', hmem, hrest⟩ | hrest)
      · exact ⟨a', Or.inl hmem, hrest⟩
      · exact ⟨a, Or.inr rfl, hrest⟩
  have hfresh : ∀ t, ¬ Closer b.store t a.id := by
    intro t ht
    have hsome := ht.account hsound
    rw [ha.fresh] at hsome
    simp at hsome
  have hnew : ¬ CreatedClosed b.log a.id := by
    rintro ⟨a', hmem, hid, -⟩
    have hsome := hch.opened a' hmem
    rw [hid, ha.fresh] at hsome
    simp at hsome
  refine ⟨?_, ?_, ?_⟩
  · intro id a' ha'
    simp only [hlog, hcloser]
    simp only [Book.open, Store.openAccount, put_apply] at ha'
    split_ifs at ha' with hid
    · have heq := Option.some.inj ha'
      subst heq hid
      constructor
      · intro hclosed
        exact Or.inl (Or.inr ⟨rfl, hclosed⟩)
      · rintro ((hc | ⟨-, hclosed⟩) | ⟨t, ht⟩)
        · exact absurd hc hnew
        · exact hclosed
        · exact absurd ht (hfresh t)
    · rw [h.closed id a' ha']
      constructor
      · rintro (hc | ht)
        · exact Or.inl (Or.inl hc)
        · exact Or.inr ht
      · rintro ((hc | ⟨heq, -⟩) | ht)
        · exact Or.inl hc
        · exact absurd heq.symm hid
        · exact Or.inr ht
  · intro id t t' ht ht'
    exact h.unique id t t' ((hcloser t id).mp ht) ((hcloser t' id).mp ht')
  · intro id t hc ht
    rcases (hlog id).mp hc with hc | ⟨rfl, -⟩
    · exact h.creator id t hc ((hcloser t id).mp ht)
    · exact hfresh t ((hcloser t _).mp ht)

theorem closer_reserve_iff (hsound : Sound s) {now : ℕ} {r : Transfer} {debit credit : Account}
    (hr : Reserves now s r debit credit) (t : Transfer) (id : U128) :
    Closer (s.enact (reserveEffect r debit credit)) t id ↔
      (t = r ∧ Closes r id) ∨ Closer s t id := by
  have hstates : (s.enact (reserveEffect r debit credit)).pendingStates = s.pendingStates :=
    Store.enact_pendingStates _ _
  have htransfers : (s.enact (reserveEffect r debit credit)).transfers = put s.transfers r.id r :=
    Store.enact_transfers _ _
  constructor
  · intro h
    have hstored := h.stored
    have hlive := h.live
    rw [htransfers, put_apply] at hstored
    rw [hstates] at hlive
    split_ifs at hstored with hid
    · have heq : t = r := (Option.some.inj hstored).symm
      exact Or.inl ⟨heq, heq ▸ h.closes⟩
    · exact Or.inr ⟨hstored, h.reserve, h.closes, hlive⟩
  · rintro (⟨rfl, hcloses⟩ | h)
    · refine ⟨?_, (classify_eq_pendingReserve.mp hr.kind).2, hcloses, Or.inl ?_⟩
      · rw [htransfers, put_self]
      · rw [hstates]
        exact hsound.pendingStates_of_fresh hr.fresh
    · have hne : t.id ≠ r.id := by
        intro hid
        have hstored := h.stored
        rw [hid, hr.fresh] at hstored
        simp at hstored
      refine ⟨?_, h.reserve, h.closes, ?_⟩
      · rw [htransfers, put_of_ne hne]
        exact h.stored
      · rw [hstates]
        exact h.live

theorem closeAccounts_closed (t : Transfer) (debit credit : Account) :
    (closeAccounts t debit credit).1.flags.contains .closed =
        (debit.flags.contains .closed || t.flags.contains .closingDebit) ∧
      (closeAccounts t debit credit).2.flags.contains .closed =
        (credit.flags.contains .closed || t.flags.contains .closingCredit) := by
  unfold closeAccounts
  constructor
  · dsimp only
    split_ifs with h <;> simp [h]
  · dsimp only
    split_ifs with h <;> simp [h]

theorem Closing.reserved {now : ℕ} (hsound : Sound b.store) (h : Closing b) {r : Transfer}
    {debit credit : Account} (hr : Reserves now b.store r debit credit) :
    Closing (b.file (reserveEffect r debit credit)) := by
  have he := hr.enactable hsound
  have hne : r.debitAccountId ≠ r.creditAccountId := he.filed.distinct
  obtain ⟨hnd, hncd⟩ := h.of_open hr.debitAccount hr.debitOpen
  obtain ⟨hnc, hncc⟩ := h.of_open hr.creditAccount hr.creditOpen
  have hcloser := closer_reserve_iff hsound hr
  obtain ⟨hdflag, hcflag⟩ := closeAccounts_closed r (reservedAccounts r debit credit).1
    (reservedAccounts r debit credit).2
  have hopen : ∀ id, Closes r id → ¬ CreatedClosed b.log id ∧ ∀ t, ¬ Closer b.store t id := by
    rintro id (⟨-, rfl⟩ | ⟨-, rfl⟩)
    · exact ⟨hnd, hncd⟩
    · exact ⟨hnc, hncc⟩
  refine ⟨?_, ?_, ?_⟩
  · change ∀ id a, (b.store.enact (reserveEffect r debit credit)).accounts id = some a → _
    rw [Store.enact_accounts]
    simp only [Book.file, createdClosed_append_transfer, hcloser]
    apply forall_put_put
    · rw [he.debitId]
      change _ ↔ CreatedClosed b.log r.debitAccountId ∨
        ∃ t, (t = r ∧ Closes r r.debitAccountId) ∨ Closer b.store t r.debitAccountId
      have hflag : (reserveEffect r debit credit).debit.flags.contains .closed =
          r.flags.contains .closingDebit := by
        rw [reserveEffect, hdflag]
        simp [reservedAccounts, hr.debitOpen]
      rw [hflag]
      constructor
      · intro hclosing
        exact Or.inr ⟨r, Or.inl ⟨rfl, Or.inl ⟨hclosing, rfl⟩⟩⟩
      · rintro (hc | ⟨t, ⟨rfl, ⟨hclosing, -⟩ | ⟨-, heq⟩⟩ | ht⟩)
        · exact absurd hc hnd
        · exact hclosing
        · exact absurd heq.symm hne
        · exact absurd ht (hncd t)
    · rw [he.creditId]
      change _ ↔ CreatedClosed b.log r.creditAccountId ∨
        ∃ t, (t = r ∧ Closes r r.creditAccountId) ∨ Closer b.store t r.creditAccountId
      have hflag : (reserveEffect r debit credit).credit.flags.contains .closed =
          r.flags.contains .closingCredit := by
        rw [reserveEffect, hcflag]
        simp [reservedAccounts, hr.creditOpen]
      rw [hflag]
      constructor
      · intro hclosing
        exact Or.inr ⟨r, Or.inl ⟨rfl, Or.inr ⟨hclosing, rfl⟩⟩⟩
      · rintro (hc | ⟨t, ⟨rfl, ⟨-, heq⟩ | ⟨hclosing, -⟩⟩ | ht⟩)
        · exact absurd hc hnc
        · exact absurd heq hne
        · exact hclosing
        · exact absurd ht (hncc t)
    · intro k a ha hkd hkc
      rw [he.debitId] at hkd
      rw [he.creditId] at hkc
      rw [h.closed k a ha]
      constructor
      · rintro (hc | ⟨t, ht⟩)
        · exact Or.inl hc
        · exact Or.inr ⟨t, Or.inr ht⟩
      · rintro (hc | ⟨t, ⟨rfl, ⟨-, heq⟩ | ⟨-, heq⟩⟩ | ht⟩)
        · exact Or.inl hc
        · exact absurd heq.symm hkd
        · exact absurd heq.symm hkc
        · exact Or.inr ⟨t, ht⟩
  · intro id t t' ht ht'
    rcases (hcloser t id).mp ht with ⟨rfl, hcloses⟩ | hold
    · rcases (hcloser t' id).mp ht' with ⟨rfl, -⟩ | hold'
      · rfl
      · exact absurd hold' ((hopen id hcloses).2 t')
    · rcases (hcloser t' id).mp ht' with ⟨rfl, hcloses⟩ | hold'
      · exact absurd hold ((hopen id hcloses).2 t)
      · exact h.unique id t t' hold hold'
  · intro id t hc ht
    rw [Book.file, createdClosed_append_transfer] at hc
    rcases (hcloser t id).mp ht with ⟨rfl, hcloses⟩ | ht
    · exact (hopen id hcloses).1 hc
    · exact h.creator id t hc ht

theorem settledAccounts_closed (pending : Transfer) (effective : ℕ) (debit credit : Account) :
    (settledAccounts pending false effective debit credit).1.flags.contains .closed =
        (debit.flags.contains .closed && !pending.flags.contains .closingDebit) ∧
      (settledAccounts pending false effective debit credit).2.flags.contains .closed =
        (credit.flags.contains .closed && !pending.flags.contains .closingCredit) := by
  simp only [settledAccounts, Bool.false_eq_true, if_false]
  unfold reopenAccounts
  constructor
  · dsimp only
    split_ifs with h <;> simp [h]
  · dsimp only
    split_ifs with h <;> simp [h]

theorem Closing.released (hsound : Sound b.store) (h : Closing b) {pending : Transfer}
    (effective : ℕ) {debit credit : Account} (ho : Outstanding b.store pending debit credit)
    (hlog : ∀ id, CreatedClosed b'.log id ↔ CreatedClosed b.log id)
    (haccounts : b'.store.accounts =
      put (put b.store.accounts (settledAccounts pending false effective debit credit).1.id
        (settledAccounts pending false effective debit credit).1)
        (settledAccounts pending false effective debit credit).2.id
        (settledAccounts pending false effective debit credit).2)
    (hcloser : ∀ t id, Closer b'.store t id ↔ Closer b.store t id ∧ t ≠ pending) : Closing b' := by
  have hids := settledAccounts_ids pending false effective debit credit
  have hdid := hids.1.trans (hsound.accountKeys _ _ ho.debitAccount)
  have hcid := hids.2.trans (hsound.accountKeys _ _ ho.creditAccount)
  have hne := (hsound.filed _ _ ho.stored).distinct
  obtain ⟨hdflag, hcflag⟩ := settledAccounts_closed pending effective debit credit
  have hself : ∀ id, Closes pending id → Closer b.store pending id :=
    fun id hc => ⟨ho.stored, ho.reserve, hc, Or.inl ho.unresolved⟩
  -- one account whose flag is cleared exactly if the pending closes it
  have hone : ∀ id a, b.store.accounts id = some a → ∀ closing : Bool,
      (closing = true ↔ Closes pending id) →
      ((a.flags.contains .closed && !closing) = true ↔
        CreatedClosed b.log id ∨ ∃ t, Closer b.store t id ∧ t ≠ pending) := by
    intro id a ha closing hclosing
    have hiff := h.closed id a ha
    rw [Bool.and_eq_true, Bool.not_eq_true', hiff]
    cases closing with
    | true =>
      have hcl := hself id (hclosing.mp rfl)
      constructor
      · rintro ⟨-, hfalse⟩
        simp at hfalse
      · rintro (hc | ⟨t, ht, hnep⟩)
        · exact absurd hcl (h.creator id pending hc)
        · exact absurd (h.unique id t pending ht hcl) hnep
    | false =>
      have hnot : ¬ Closes pending id := fun hc => by simpa using hclosing.mpr hc
      constructor
      · rintro ⟨hc | ⟨t, ht⟩, -⟩
        · exact Or.inl hc
        · refine Or.inr ⟨t, ht, ?_⟩
          rintro rfl
          exact hnot ht.closes
      · rintro (hc | ⟨t, ht, -⟩)
        · exact ⟨Or.inl hc, rfl⟩
        · exact ⟨Or.inr ⟨t, ht⟩, rfl⟩
  refine ⟨?_, ?_, ?_⟩
  · rw [haccounts]
    simp only [hlog, hcloser]
    apply forall_put_put
    · rw [hdid, hdflag]
      refine hone _ _ ho.debitAccount _ ?_
      constructor
      · intro hc
        exact Or.inl ⟨hc, rfl⟩
      · rintro (⟨hc, -⟩ | ⟨-, heq⟩)
        · exact hc
        · exact absurd heq.symm hne
    · rw [hcid, hcflag]
      refine hone _ _ ho.creditAccount _ ?_
      constructor
      · intro hc
        exact Or.inr ⟨hc, rfl⟩
      · rintro (⟨-, heq⟩ | ⟨hc, -⟩)
        · exact absurd heq hne
        · exact hc
    · intro k a ha hkd hkc
      rw [hdid] at hkd
      rw [hcid] at hkc
      have hk := hone k a ha false ?_
      · simpa using hk
      · constructor
        · intro hfalse
          simp at hfalse
        · rintro (⟨-, heq⟩ | ⟨-, heq⟩)
          · exact absurd heq.symm hkd
          · exact absurd heq.symm hkc
  · intro id t t' ht ht'
    exact h.unique id t t' ((hcloser t id).mp ht).1 ((hcloser t' id).mp ht').1
  · intro id t hc ht
    exact h.creator id t ((hlog id).mp hc) ((hcloser t id).mp ht).1

/-- A reserve that is resolved closes no account any more. -/
theorem closer_resolved_iff {s' : Store} {pending : Transfer} {state : PendingStatus}
    (hstate : state ≠ .posted) (hstates : s'.pendingStates = put s.pendingStates pending.id state)
    (hstored : s.transfers pending.id = some pending)
    (htransfers : ∀ t : Transfer, t.flags.contains .pending = true →
      (s'.transfers t.id = some t ↔ s.transfers t.id = some t)) (t : Transfer) (id : U128) :
    Closer s' t id ↔ Closer s t id ∧ t ≠ pending := by
  constructor
  · intro h
    have hlive := h.live
    rw [hstates, put_apply] at hlive
    split_ifs at hlive with hpid
    · simp [hstate] at hlive
    · refine ⟨⟨(htransfers t h.reserve).mp h.stored, h.reserve, h.closes, hlive⟩, ?_⟩
      rintro rfl
      exact hpid rfl
  · rintro ⟨h, hne⟩
    have hpid : t.id ≠ pending.id := by
      intro hid
      have htaken := h.stored
      rw [hid, hstored] at htaken
      exact hne (Option.some.inj htaken).symm
    refine ⟨(htransfers t h.reserve).mpr h.stored, h.reserve, h.closes, ?_⟩
    rw [hstates, put_of_ne hpid]
    exact h.live

theorem closer_void_iff {r pending : Transfer} {debit credit : Account}
    (hs : Settles s r pending false debit credit) (t : Transfer) (id : U128) :
    Closer (s.enact (settleEffect r pending false debit credit)) t id ↔
      Closer s t id ∧ t ≠ pending := by
  have hnotPending : r.flags.contains .pending = false :=
    TransferFlags.not_pending_of_isResolution hs.wellFormed.exclusive
      (isResolution_of_classify hs.kind)
  have hstates : (s.enact (settleEffect r pending false debit credit)).pendingStates =
      put s.pendingStates pending.id .voided := Store.enact_pendingStates _ _
  refine closer_resolved_iff (by decide) hstates hs.stored ?_ t id
  intro t hreserve
  rw [Store.enact_transfers, put_apply]
  split_ifs with hid
  · refine iff_of_false ?_ ?_
    · intro h
      obtain rfl := Option.some.inj h
      cases hnotPending.symm.trans hreserve
    · intro h
      rw [hid] at h
      cases hs.fresh.symm.trans h
  · exact Iff.rfl

theorem closer_expire_iff {pending : Transfer} {debit credit : Account}
    (ho : Outstanding s pending debit credit) (t : Transfer) (id : U128) :
    Closer (s.expire pending debit credit) t id ↔ Closer s t id ∧ t ≠ pending := by
  refine closer_resolved_iff (by decide) (Store.expire_pendingStates ..) ho.stored ?_ t id
  intro t _
  rw [Store.expire_transfers]

theorem Closing.step {now : ℕ} (hinv : Inv b.store) (hch : Chronicle b) (h : Closing b)
    (hs : Step now b b') : Closing b' := by
  have hsound := hinv.sound
  cases hs with
  | opened ha => exact h.opened hsound hch ha
  | moved hm => exact h.moved hsound hm
  | reserved hr => exact h.reserved hsound hr
  | @settled r pending post debit credit hset =>
    cases post with
    | true => exact h.posted hsound hset
    | false =>
      exact h.released hsound r.amount hset.toOutstanding (fun _ => createdClosed_append_transfer)
        (Store.enact_accounts _ _) (closer_void_iff hset)
  | expired ho _ _ =>
    exact h.released hsound _ ho (fun _ => Iff.rfl) Store.expire_accounts (closer_expire_iff ho)
  | burned _ =>
    refine h.of_same (fun _ => Iff.rfl) ?_ (fun id a ha => ⟨a, ha, rfl⟩)
    intro t id
    exact ⟨fun hc => { hc with }, fun hc => { hc with }⟩

end

theorem History.closing {log : List Entry} {s : Store} (h : History log s) :
    Closing ⟨s, log⟩ := by
  have hboth : Chronicle ⟨s, log⟩ ∧ Closing ⟨s, log⟩ :=
    h.invariant (P := fun b => Chronicle b ∧ Closing b) ⟨.empty, .empty⟩
      fun hinv hc hs => ⟨hc.1.step hinv hs, hc.2.step hinv hc.1 hs⟩
  exact hboth.2

/-- An account is closed exactly by its creator or by one live closing pending, and
whatever keeps it closed does so until it is itself voided or expires. -/
theorem history_closed_accounts {log : List Entry} {s : Store} (h : History log s) :
    (∀ id a, s.accounts id = some a →
      (a.flags.contains .closed = true ↔ CreatedClosed log id ∨ ∃ t, Closer s t id)) ∧
    (∀ id t t', Closer s t id → Closer s t' id → t = t') ∧
    (∀ id t, CreatedClosed log id → ¬ Closer s t id) ∧
    ∀ s' id a', Calls s s' → s'.accounts id = some a' →
      (CreatedClosed log id ∨ ∃ t, Closer s t id ∧
        s'.pendingStates t.id ≠ some .voided ∧ s'.pendingStates t.id ≠ some .expired) →
      a'.flags.contains .closed = true := by
  have hclosing := h.closing
  refine ⟨hclosing.closed, hclosing.unique, hclosing.creator, ?_⟩
  intro s' id a' hcalls ha' hcause
  obtain ⟨rest, hhist, hkept⟩ := h.calls hcalls
  apply (hhist.closing.closed id a' ha').mpr
  rcases hcause with ⟨a, hmem, ha⟩ | ⟨t, ht, hvoided, hexpired⟩
  · exact Or.inl ⟨a, List.mem_append_left _ hmem, ha⟩
  · refine Or.inr ⟨t, hkept _ _ ht.stored, ht.reserve, ht.closes, ?_⟩
    cases hstate : s'.pendingStates t.id with
    | none => exact Or.inl rfl
    | some status =>
      cases status with
      | posted => exact Or.inr rfl
      | voided => exact absurd hstate hvoided
      | expired => exact absurd hstate hexpired

/-- A pending that closes account 2. -/
def sampleClosed : Book :=
  sampleReserved.callTransfers 30
    [sampleTransfer 104 2 1 0 (.union .pending .closingDebit)]

def Entry.closed : Entry → Bool
  | .account a => a.flags.contains .closed
  | .transfer _ => false

theorem history_closed_accounts_sample :
    (sampleClosed.store.accounts 2).map (fun a => a.flags.contains .closed) = some true ∧
      ¬ CreatedClosed sampleClosed.log 2 ∧ ∃ t, Closer sampleClosed.store t 2 := by
  have hflag : (sampleClosed.store.accounts 2).map (fun a => a.flags.contains .closed) =
      some true := by decide +kernel
  have hcreated : ¬ CreatedClosed sampleClosed.log 2 := by
    rintro ⟨a, hmem, hid, hclosed⟩
    have hall : ∀ e ∈ sampleClosed.log, e.closed = false := by decide +kernel
    have hopen : a.flags.contains .closed = false := hall _ hmem
    rw [hopen] at hclosed
    simp at hclosed
  obtain ⟨a, ha, hclosed⟩ := Option.map_eq_some_iff.mp hflag
  have hcause := ((history_closed_accounts (sampleReserved_history.callTransfers 30 _)).1 2 a
    ha).mp hclosed
  exact ⟨hflag, hcreated, hcause.resolve_left hcreated⟩

end BlueDB.Ledger
