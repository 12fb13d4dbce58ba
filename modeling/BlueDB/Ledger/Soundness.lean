import BlueDB.Ledger.Steps

/-!
# Structural invariants

Records lie under their own ids, transfers refer to stored accounts, pending
states belong to stored reservations, burned ids have no transfer, and the
expiry index holds exactly the timed reservations that are still unresolved.
Every step keeps all of this.
-/

namespace BlueDB.Ledger

/-- What holds of every stored transfer record. -/
structure Filed (t : Transfer) : Prop where
  wellFormed : WellFormed t
  distinct : t.debitAccountId ≠ t.creditAccountId
  expiry : t.timeout ≠ 0 → t.timestamp + t.timeout * nanosPerSecond ≤ timestampMax

/-- The index key of a timed pending. -/
def pendingKey (t : Transfer) : ExpiryKey := expiryKey (expiryOf t.timestamp t.timeout) t.id

@[simp] theorem pendingId_pendingKey (t : Transfer) :
    ExpiryKey.pendingId (pendingKey t) = t.id := rfl

@[simp] theorem expiresAt_pendingKey (t : Transfer) :
    ExpiryKey.expiresAt (pendingKey t) = expiryOf t.timestamp t.timeout := rfl

theorem Filed.expiryOf_eq {t : Transfer} (h : Filed t) (ht : t.timeout ≠ 0) :
    expiryOf t.timestamp t.timeout = t.timestamp + t.timeout * nanosPerSecond := by
  have hle := h.expiry ht
  have hmax : timestampMax ≤ u64Max := by decide
  have hmul : t.timeout * nanosPerSecond ≤ u64Max := by omega
  rw [expiryOf, saturatingMul_of_le hmul, saturatingAdd_of_le (by omega)]

/-- A stored timed pending that nothing has resolved yet. -/
structure TimedPending (s : Store) (t : Transfer) : Prop where
  stored : s.transfers t.id = some t
  reserve : t.flags.contains .pending = true
  timed : t.timeout ≠ 0
  unresolved : s.pendingStates t.id = none

structure Sound (s : Store) : Prop where
  accountKeys : ∀ id a, s.accounts id = some a → a.id = id
  transferKeys : ∀ id t, s.transfers id = some t → t.id = id
  filed : ∀ id t, s.transfers id = some t → Filed t
  debitAccount : ∀ id t, s.transfers id = some t → (s.accounts t.debitAccountId).isSome = true
  creditAccount : ∀ id t, s.transfers id = some t → (s.accounts t.creditAccountId).isSome = true
  states : ∀ id status, s.pendingStates id = some status →
    ∃ t, s.transfers id = some t ∧ t.flags.contains .pending = true
  failed : ∀ id ∈ s.failed, s.transfers id = none
  expiry : ∀ key, key ∈ s.expiry ↔ ∃ t, TimedPending s t ∧ key = pendingKey t

theorem Sound.empty : Sound .empty := by
  refine ⟨?_, ?_, ?_, ?_, ?_, ?_, ?_, ?_⟩
  · intro id a h
    simp [Store.empty] at h
  · intro id t h
    simp [Store.empty] at h
  · intro id t h
    simp [Store.empty] at h
  · intro id t h
    simp [Store.empty] at h
  · intro id t h
    simp [Store.empty] at h
  · intro id status h
    simp [Store.empty] at h
  · intro id h
    simp [Store.empty] at h
  · intro key
    constructor
    · intro h
      exact absurd h (OrderedIndex.not_mem_empty key)
    · rintro ⟨t, ht, -⟩
      have := ht.stored
      simp [Store.empty] at this

theorem mem_putExpiry {index : OrderedIndex ExpiryKey} {t : Transfer} {key : ExpiryKey} :
    key ∈ putExpiry index t ↔
      (t.flags.contains .pending = true ∧ t.timeout ≠ 0 ∧ key = pendingKey t) ∨ key ∈ index := by
  unfold putExpiry
  split_ifs with h
  · simp only [Bool.and_eq_true, bne_iff_ne] at h
    simp [h, pendingKey]
  · simp only [Bool.and_eq_true, bne_iff_ne, not_and] at h
    constructor
    · exact Or.inr
    · rintro (⟨hp, ht, -⟩ | hk)
      · exact absurd ht (h hp)
      · exact hk

variable {s : Store}

theorem Sound.stored (h : Sound s) {id : U128} {t : Transfer} (ht : s.transfers id = some t) :
    s.transfers t.id = some t := by
  rw [h.transferKeys id t ht]
  exact ht

theorem Sound.pendingStates_of_fresh (h : Sound s) {id : U128} (hid : s.transfers id = none) :
    s.pendingStates id = none := by
  by_contra hne
  obtain ⟨status, hs⟩ := Option.ne_none_iff_exists'.mp hne
  obtain ⟨t, ht, -⟩ := h.states id status hs
  rw [hid] at ht
  simp at ht

structure Enactable (s : Store) (e : Effect) : Prop where
  fresh : s.transfers e.record.id = none
  notFailed : e.record.id ∉ s.failed
  filed : Filed e.record
  debitId : e.debit.id = e.record.debitAccountId
  creditId : e.credit.id = e.record.creditAccountId
  resolved : ∀ pending status, e.resolved = some (pending, status) →
    s.transfers pending.id = some pending ∧ pending.flags.contains .pending = true

theorem recordResolution_apply (states : U128 → Option PendingStatus)
    (resolved : Option (Transfer × PendingStatus)) (id : U128) :
    recordResolution states resolved id = states id ∨
      ∃ pending status, resolved = some (pending, status) ∧ id = pending.id ∧
        recordResolution states resolved id = some status := by
  cases resolved with
  | none => exact Or.inl rfl
  | some p =>
    obtain ⟨pending, status⟩ := p
    simp only [recordResolution, put_apply]
    split_ifs with hid
    · exact Or.inr ⟨pending, status, rfl, hid, rfl⟩
    · exact Or.inl rfl

theorem recordResolution_eq_none {states : U128 → Option PendingStatus}
    {resolved : Option (Transfer × PendingStatus)} {id : U128} :
    recordResolution states resolved id = none ↔
      states id = none ∧ ∀ pending status, resolved = some (pending, status) → id ≠ pending.id := by
  cases resolved with
  | none => simp [recordResolution]
  | some p =>
    obtain ⟨pending, status⟩ := p
    simp only [recordResolution, put_apply]
    split_ifs with hid
    · simp [hid]
    · simp [hid]

theorem Enactable.timedPending_iff (h : Sound s) {e : Effect} (he : Enactable s e) {t : Transfer} :
    TimedPending (s.enact e) t ↔
      (t = e.record ∧ t.flags.contains .pending = true ∧ t.timeout ≠ 0) ∨
      (TimedPending s t ∧ pendingKey t ∉ resolvedRemovals e.resolved) := by
  constructor
  · rintro ⟨hstored, hp, ht, hres⟩
    rw [Store.enact_transfers, put_apply] at hstored
    split_ifs at hstored with hid
    · exact Or.inl ⟨(Option.some.inj hstored).symm, hp, ht⟩
    · rw [Store.enact_pendingStates, recordResolution_eq_none] at hres
      refine Or.inr ⟨⟨hstored, hp, ht, hres.1⟩, ?_⟩
      intro hkey
      obtain ⟨pending, status, hr, -, heq⟩ := mem_resolvedRemovals.mp hkey
      exact hres.2 pending status hr (congrArg ExpiryKey.pendingId heq)
  · rintro (⟨rfl, hp, ht⟩ | ⟨ht, hkey⟩)
    · refine ⟨by simp, hp, ht, ?_⟩
      rw [Store.enact_pendingStates, recordResolution_eq_none]
      refine ⟨h.pendingStates_of_fresh he.fresh, ?_⟩
      intro pending status hr hid
      have hstored := (he.resolved pending status hr).1
      rw [← hid, he.fresh] at hstored
      simp at hstored
    · have hne : t.id ≠ e.record.id := by
        intro hid
        have hstored := ht.stored
        rw [hid, he.fresh] at hstored
        simp at hstored
      refine ⟨?_, ht.reserve, ht.timed, ?_⟩
      · rw [Store.enact_transfers, put_of_ne hne]
        exact ht.stored
      · rw [Store.enact_pendingStates, recordResolution_eq_none]
        refine ⟨ht.unresolved, ?_⟩
        intro pending status hr hid
        have hstored := (he.resolved pending status hr).1
        rw [← hid, ht.stored] at hstored
        have heq : t = pending := Option.some.inj hstored
        subst heq
        exact hkey (mem_resolvedRemovals.mpr ⟨t, status, hr, ht.timed, rfl⟩)

theorem Sound.enact (h : Sound s) {e : Effect} (he : Enactable s e) : Sound (s.enact e) := by
  refine ⟨?_, ?_, ?_, ?_, ?_, ?_, ?_, ?_⟩
  · intro id a ha
    simp only [Store.enact_accounts, put_apply] at ha
    split_ifs at ha with hc hd
    · rw [← Option.some.inj ha]
      exact hc.symm
    · rw [← Option.some.inj ha]
      exact hd.symm
    · exact h.accountKeys id a ha
  · intro id t ht
    simp only [Store.enact_transfers, put_apply] at ht
    split_ifs at ht with hid
    · rw [← Option.some.inj ht]
      exact hid.symm
    · exact h.transferKeys id t ht
  · intro id t ht
    simp only [Store.enact_transfers, put_apply] at ht
    split_ifs at ht
    · rw [← Option.some.inj ht]
      exact he.filed
    · exact h.filed id t ht
  · intro id t ht
    simp only [Store.enact_transfers, put_apply] at ht
    rw [Store.enact_accounts]
    split_ifs at ht
    · apply put_isSome
      rw [← Option.some.inj ht, ← he.debitId, put_self]
      rfl
    · exact put_isSome (put_isSome (h.debitAccount id t ht) _ _) _ _
  · intro id t ht
    simp only [Store.enact_transfers, put_apply] at ht
    rw [Store.enact_accounts]
    split_ifs at ht
    · rw [← Option.some.inj ht, ← he.creditId, put_self]
      rfl
    · exact put_isSome (put_isSome (h.creditAccount id t ht) _ _) _ _
  · intro id status hs
    rw [Store.enact_pendingStates] at hs
    have hold : ∃ t, s.transfers id = some t ∧ t.flags.contains .pending = true := by
      rcases recordResolution_apply s.pendingStates e.resolved id with
        heq | ⟨pending, status', hres, rfl, -⟩
      · rw [heq] at hs
        exact h.states id status hs
      · exact ⟨pending, he.resolved pending status' hres⟩
    obtain ⟨t, ht, hp⟩ := hold
    have hne : id ≠ e.record.id := by
      rintro rfl
      rw [he.fresh] at ht
      simp at ht
    refine ⟨t, ?_, hp⟩
    rw [Store.enact_transfers, put_of_ne hne]
    exact ht
  · intro id hid
    rw [Store.enact_failed] at hid
    have hne : id ≠ e.record.id := by
      rintro rfl
      exact he.notFailed hid
    rw [Store.enact_transfers, put_of_ne hne]
    exact h.failed id hid
  · intro key
    rw [Store.enact_expiry, mem_putExpiry, OrderedIndex.mem_foldl_delete, h.expiry]
    simp only [he.timedPending_iff h]
    constructor
    · rintro (⟨hp, ht, rfl⟩ | ⟨⟨t, ht, rfl⟩, hkey⟩)
      · exact ⟨e.record, Or.inl ⟨rfl, hp, ht⟩, rfl⟩
      · exact ⟨t, Or.inr ⟨ht, hkey⟩, rfl⟩
    · rintro ⟨t, ⟨rfl, hp, ht⟩ | ⟨ht, hkey⟩, rfl⟩
      · exact Or.inl ⟨hp, ht, rfl⟩
      · exact Or.inr ⟨⟨t, ht, rfl⟩, hkey⟩

theorem closeAccounts_ids (t : Transfer) (debit credit : Account) :
    (closeAccounts t debit credit).1.id = debit.id ∧
      (closeAccounts t debit credit).2.id = credit.id := by
  unfold closeAccounts
  constructor
  · dsimp only
    split_ifs <;> rfl
  · dsimp only
    split_ifs <;> rfl

theorem settledAccounts_ids (pending : Transfer) (post : Bool) (effective : ℕ)
    (debit credit : Account) :
    (settledAccounts pending post effective debit credit).1.id = debit.id ∧
      (settledAccounts pending post effective debit credit).2.id = credit.id := by
  unfold settledAccounts reopenAccounts
  constructor
  · split_ifs <;> rfl
  · split_ifs <;> rfl

theorem Moves.enactable (h : Sound s) {r : Transfer} {debit credit : Account}
    (hm : Moves s r debit credit) : Enactable s (moveEffect r debit credit) := by
  have hkind := classify_eq_regular.mp hm.kind
  refine ⟨hm.fresh, hm.notFailed, ⟨hm.wellFormed, hm.wellFormed.distinct hkind.1, ?_⟩, ?_, ?_, ?_⟩
  · intro ht
    have hp := hm.wellFormed.timed ht
    exact absurd (hp.symm.trans hkind.2) (by simp)
  · have hid := h.accountKeys _ _ hm.debitAccount
    exact hid
  · have hid := h.accountKeys _ _ hm.creditAccount
    exact hid
  · intro pending status hres
    simp [moveEffect] at hres

theorem Reserves.enactable {now : ℕ} (h : Sound s) {r : Transfer} {debit credit : Account}
    (hr : Reserves now s r debit credit) : Enactable s (reserveEffect r debit credit) := by
  have hkind := classify_eq_pendingReserve.mp hr.kind
  have hids := closeAccounts_ids r (reservedAccounts r debit credit).1
    (reservedAccounts r debit credit).2
  refine ⟨hr.fresh, hr.notFailed, ⟨hr.wellFormed, hr.wellFormed.distinct hkind.1, ?_⟩, ?_, ?_, ?_⟩
  · intro ht
    exact (hr.expiry ht).2
  · have hid := h.accountKeys _ _ hr.debitAccount
    exact hids.1.trans hid
  · have hid := h.accountKeys _ _ hr.creditAccount
    exact hids.2.trans hid
  · intro pending status hres
    simp [reserveEffect] at hres

theorem Settles.enactable (h : Sound s) {r pending : Transfer} {post : Bool}
    {debit credit : Account} (hs : Settles s r pending post debit credit) :
    Enactable s (settleEffect r pending post debit credit) := by
  have hkind := isResolution_of_classify hs.kind
  have hids := settledAccounts_ids pending post r.amount debit credit
  refine ⟨hs.fresh, hs.notFailed, ⟨hs.wellFormed, ?_, ?_⟩, ?_, ?_, ?_⟩
  · simp only [settleEffect, hs.sameDebit, hs.sameCredit]
    exact (h.filed _ _ hs.stored).distinct
  · intro ht
    have hp := hs.wellFormed.timed ht
    have hn := TransferFlags.not_pending_of_isResolution hs.wellFormed.exclusive hkind
    exact absurd (hp.symm.trans hn) (by simp)
  · exact hids.1.trans ((h.accountKeys _ _ hs.debitAccount).trans hs.sameDebit.symm)
  · exact hids.2.trans ((h.accountKeys _ _ hs.creditAccount).trans hs.sameCredit.symm)
  · intro p status hres
    simp only [settleEffect, Option.some.injEq, Prod.mk.injEq] at hres
    rw [← hres.1]
    exact ⟨hs.stored, hs.reserve⟩

theorem Sound.open (h : Sound s) (a : Account) : Sound (s.openAccount a) := by
  refine ⟨?_, h.transferKeys, h.filed, ?_, ?_, h.states, h.failed, ?_⟩
  · intro id a' ha'
    simp only [Store.openAccount, put_apply] at ha'
    split_ifs at ha' with hid
    · rw [← Option.some.inj ha']
      exact hid.symm
    · exact h.accountKeys id a' ha'
  · intro id t ht
    exact put_isSome (h.debitAccount id t ht) _ _
  · intro id t ht
    exact put_isSome (h.creditAccount id t ht) _ _
  · intro key
    refine (h.expiry key).trans ?_
    constructor
    · rintro ⟨t, ht, hkey⟩
      exact ⟨t, { ht with }, hkey⟩
    · rintro ⟨t, ht, hkey⟩
      exact ⟨t, { ht with }, hkey⟩

theorem Sound.burn (h : Sound s) {ids : Finset U128} (hids : ∀ id ∈ ids, s.transfers id = none) :
    Sound (s.burn ids) := by
  refine { h with failed := ?_, expiry := ?_ }
  · intro id hid
    rcases Finset.mem_union.mp hid with hid | hid
    · exact h.failed id hid
    · exact hids id hid
  · intro key
    refine (h.expiry key).trans ?_
    constructor
    · rintro ⟨t, ht, hkey⟩
      exact ⟨t, { ht with }, hkey⟩
    · rintro ⟨t, ht, hkey⟩
      exact ⟨t, { ht with }, hkey⟩

section Expire

variable {pending : Transfer} {debit credit : Account}

@[simp] theorem Store.expire_transfers :
    (s.expire pending debit credit).transfers = s.transfers := by
  unfold Store.expire Store.dropPending
  dsimp only
  split_ifs <;> rfl

@[simp] theorem Store.expire_accounts : (s.expire pending debit credit).accounts =
    put (put s.accounts (settledAccounts pending false pending.amount debit credit).1.id
      (settledAccounts pending false pending.amount debit credit).1)
      (settledAccounts pending false pending.amount debit credit).2.id
      (settledAccounts pending false pending.amount debit credit).2 := by
  unfold Store.expire Store.dropPending
  dsimp only
  split_ifs <;> rfl

@[simp] theorem Store.expire_pendingStates : (s.expire pending debit credit).pendingStates =
    put s.pendingStates pending.id .expired := by
  unfold Store.expire Store.dropPending
  dsimp only
  split_ifs <;> rfl

@[simp] theorem Store.expire_failed : (s.expire pending debit credit).failed = s.failed := by
  unfold Store.expire Store.dropPending
  dsimp only
  split_ifs <;> rfl

@[simp] theorem Store.expire_watermark :
    (s.expire pending debit credit).watermark = s.watermark := by
  unfold Store.expire Store.dropPending
  dsimp only
  split_ifs <;> rfl

theorem Store.expire_expiry (ht : pending.timeout ≠ 0) :
    (s.expire pending debit credit).expiry = s.expiry.delete (pendingKey pending) := by
  unfold Store.expire Store.dropPending
  dsimp only
  rw [if_pos (by simpa using ht)]
  rfl

theorem Sound.expire (h : Sound s) (ho : Outstanding s pending debit credit)
    (ht : pending.timeout ≠ 0) : Sound (s.expire pending debit credit) := by
  have hids := settledAccounts_ids pending false pending.amount debit credit
  refine ⟨?_, ?_, ?_, ?_, ?_, ?_, ?_, ?_⟩
  · intro id a ha
    simp only [Store.expire_accounts, put_apply] at ha
    split_ifs at ha with hc hd
    · rw [← Option.some.inj ha]
      exact hc.symm
    · rw [← Option.some.inj ha]
      exact hd.symm
    · exact h.accountKeys id a ha
  · simpa using h.transferKeys
  · simpa using h.filed
  · intro id t hstored
    rw [Store.expire_transfers] at hstored
    rw [Store.expire_accounts]
    exact put_isSome (put_isSome (h.debitAccount id t hstored) _ _) _ _
  · intro id t hstored
    rw [Store.expire_transfers] at hstored
    rw [Store.expire_accounts]
    exact put_isSome (put_isSome (h.creditAccount id t hstored) _ _) _ _
  · intro id status hs
    rw [Store.expire_transfers]
    simp only [Store.expire_pendingStates, put_apply] at hs
    split_ifs at hs with hid
    · rw [hid]
      exact ⟨pending, ho.stored, ho.reserve⟩
    · exact h.states id status hs
  · simpa using h.failed
  · intro key
    rw [Store.expire_expiry ht, OrderedIndex.mem_delete, h.expiry]
    constructor
    · rintro ⟨⟨t, htimed, rfl⟩, hne⟩
      have hid : t.id ≠ pending.id := by
        intro hid
        have hstored := htimed.stored
        rw [hid, ho.stored] at hstored
        exact hne (by rw [Option.some.inj hstored])
      refine ⟨t, ⟨?_, htimed.reserve, htimed.timed, ?_⟩, rfl⟩
      · rw [Store.expire_transfers]
        exact htimed.stored
      · rw [Store.expire_pendingStates, put_of_ne hid]
        exact htimed.unresolved
    · rintro ⟨t, htimed, rfl⟩
      have hstored := htimed.stored
      have hres := htimed.unresolved
      rw [Store.expire_transfers] at hstored
      rw [Store.expire_pendingStates, put_apply] at hres
      split_ifs at hres with hid
      refine ⟨⟨t, ⟨hstored, htimed.reserve, htimed.timed, hres⟩, rfl⟩, ?_⟩
      intro heq
      exact hid (congrArg ExpiryKey.pendingId heq)

end Expire

theorem Sound.step {now : ℕ} {b b' : Book} (h : Sound b.store) (hs : Step now b b') :
    Sound b'.store := by
  cases hs with
  | opened _ => exact h.open _
  | moved hm => exact h.enact (hm.enactable h)
  | reserved hr => exact h.enact (hr.enactable h)
  | settled hset => exact h.enact (hset.enactable h)
  | expired ho ht _ => exact h.expire ho ht
  | burned hids => exact h.burn hids

end BlueDB.Ledger
