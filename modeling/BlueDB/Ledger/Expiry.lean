import BlueDB.Ledger.Runs

/-!
# The expiry index

The index holds exactly the unresolved timed pendings. The sweep at the start of
a call therefore leaves none that is due, nothing that is due can be posted or
voided by the batch after it, and the lazy check of a resolution never fires.
-/

namespace BlueDB.Ledger

section

variable {now : ℕ} {b b' : Book}

theorem Step.states_kept (h : Step now b b') {id : U128} {status : PendingStatus}
    (hs : b.store.pendingStates id = some status) :
    b'.store.pendingStates id = some status := by
  cases h with
  | opened _ => exact hs
  | moved _ => simpa [Book.file, moveEffect, recordResolution] using hs
  | reserved _ => simpa [Book.file, reserveEffect, recordResolution] using hs
  | @settled r pending post debit credit hset =>
    have hne : id ≠ pending.id := by
      rintro rfl
      rw [hset.unresolved] at hs
      simp at hs
    simpa [Book.file, settleEffect, recordResolution, put_of_ne hne] using hs
  | @expired pending debit credit ho _ _ =>
    have hne : id ≠ pending.id := by
      rintro rfl
      rw [ho.unresolved] at hs
      simp at hs
    simpa [put_of_ne hne] using hs
  | burned _ => exact hs

theorem Steps.states_kept (h : Steps now b b') {id : U128} {status : PendingStatus}
    (hs : b.store.pendingStates id = some status) :
    b'.store.pendingStates id = some status := by
  induction h with
  | refl => exact hs
  | tail _ hstep ih => exact hstep.states_kept ih

theorem Clear.of_subset {s s' : Store} (h : Clear now s) (hs : ∀ key ∈ s'.expiry, key ∈ s.expiry) :
    Clear now s' :=
  fun key hkey => h key (hs key hkey)

/-- Filing a record that is no reservation adds nothing to the index. -/
theorem Clear.enact {s : Store} (h : Clear now s) {e : Effect}
    (hp : e.record.flags.contains .pending = false) : Clear now (s.enact e) := by
  apply h.of_subset
  intro key hkey
  rw [Store.enact_expiry, mem_putExpiry, OrderedIndex.mem_foldl_delete] at hkey
  rcases hkey with ⟨hpending, -, -⟩ | ⟨hmem, -⟩
  · rw [hp] at hpending
    simp at hpending
  · exact hmem

/-- No step of a call makes an index entry that is already due. -/
theorem Clear.step (hinv : Inv b.store) (h : Clear now b.store) (hs : Step now b b') :
    Clear now b'.store := by
  cases hs with
  | opened _ => exact h
  | moved hm => exact h.enact (classify_eq_regular.mp hm.kind).2
  | @reserved r debit credit hr =>
    have hfiled := (hr.enactable hinv.sound).filed
    intro key hkey
    rw [Book.file, Store.enact_expiry, mem_putExpiry, OrderedIndex.mem_foldl_delete] at hkey
    rcases hkey with ⟨-, ht, rfl⟩ | ⟨hmem, -⟩
    · rw [expiresAt_pendingKey, hfiled.expiryOf_eq ht]
      exact (hr.expiry ht).1
    · exact h key hmem
  | settled hset =>
    exact h.enact (TransferFlags.not_pending_of_isResolution hset.wellFormed.exclusive
      (isResolution_of_classify hset.kind))
  | expired _ ht _ =>
    apply h.of_subset
    intro key hkey
    rw [Store.expire_expiry ht, OrderedIndex.mem_delete] at hkey
    exact hkey.1
  | burned _ => exact h

theorem Clear.not_due {s : Store} (hinv : Inv s) (h : Clear now s) {t : Transfer}
    (hstored : s.transfers t.id = some t) (hp : t.flags.contains .pending = true)
    (hres : s.pendingStates t.id = none) (ht : t.timeout ≠ 0) :
    now < t.timestamp + t.timeout * nanosPerSecond := by
  have hmem : pendingKey t ∈ s.expiry :=
    (hinv.sound.expiry _).mpr ⟨t, ⟨hstored, hp, ht, hres⟩, rfl⟩
  have hlt := h _ hmem
  rwa [expiresAt_pendingKey, (hinv.sound.filed _ _ hstored).expiryOf_eq ht] at hlt

/-- What the batch of a call has resolved since `s` was not due. -/
def NoneLapsed (now : ℕ) (s : Store) (b : Book) : Prop :=
  ∀ id t status, b.store.transfers id = some t → s.pendingStates id = none →
    b.store.pendingStates id = some status →
    t.timeout = 0 ∨ now < t.timestamp + t.timeout * nanosPerSecond

theorem Step.resolves (h : Step now b b') {id : U128} {status : PendingStatus}
    (hnone : b.store.pendingStates id = none) (hs : b'.store.pendingStates id = some status) :
    ∃ pending debit credit, Outstanding b.store pending debit credit ∧ pending.id = id := by
  have hsame : b'.store.pendingStates = b.store.pendingStates → False := by
    intro heq
    rw [heq, hnone] at hs
    simp at hs
  cases h with
  | opened _ => exact (hsame rfl).elim
  | moved _ => exact (hsame (Store.enact_pendingStates _ _)).elim
  | reserved _ => exact (hsame (Store.enact_pendingStates _ _)).elim
  | @settled r pending post debit credit hset =>
    refine ⟨pending, debit, credit, hset.toOutstanding, ?_⟩
    by_contra hne
    simp only [Book.file, Store.enact_pendingStates, settleEffect, recordResolution] at hs
    rw [put_of_ne (Ne.symm hne), hnone] at hs
    simp at hs
  | @expired pending debit credit ho _ _ =>
    refine ⟨pending, debit, credit, ho, ?_⟩
    by_contra hne
    rw [Store.expire_pendingStates, put_of_ne (Ne.symm hne), hnone] at hs
    simp at hs
  | burned _ => exact (hsame rfl).elim

theorem NoneLapsed.step {s : Store} (hinv : Inv b.store) (hclear : Clear now b.store)
    (h : NoneLapsed now s b) (hs : Step now b b') : NoneLapsed now s b' := by
  intro id t status ht hnone hstatus
  cases hb : b.store.pendingStates id with
  | some status' =>
    obtain ⟨t', ht', -⟩ := hinv.sound.states id status' hb
    have heq : t = t' := by
      have hkept := hs.kept id t' ht'
      rw [ht] at hkept
      exact Option.some.inj hkept
    rw [heq]
    exact h id t' status' ht' hnone hb
  | none =>
    obtain ⟨pending, debit, credit, ho, rfl⟩ := hs.resolves hb hstatus
    have heq : t = pending := by
      have hkept := hs.kept _ _ ho.stored
      rw [ht] at hkept
      exact Option.some.inj hkept
    subst heq
    by_cases htimed : t.timeout = 0
    · exact Or.inl htimed
    · exact Or.inr (hclear.not_due hinv ho.stored ho.reserve ho.unresolved htimed)

theorem NoneLapsed.steps {s : Store} (hinv : Inv b.store) (hclear : Clear now b.store)
    (h : NoneLapsed now s b) (hs : Steps now b b') : NoneLapsed now s b' := by
  have hboth : Inv b'.store ∧ Clear now b'.store ∧ NoneLapsed now s b' := by
    induction hs with
    | refl => exact ⟨hinv, hclear, h⟩
    | tail _ hstep ih =>
      exact ⟨ih.1.step hstep, ih.2.1.step ih.1 hstep, ih.2.2.step ih.1 ih.2.1 hstep⟩
  exact hboth.2.2

theorem Clear.not_lazilyExpired {s : Store} (hinv : Inv s) (h : Clear now s) {t : Transfer}
    (hstored : s.transfers t.id = some t) (hp : t.flags.contains .pending = true)
    (hres : s.pendingStates t.id = none) : lazilyExpired t now = false := by
  unfold lazilyExpired
  by_cases ht : t.timeout = 0
  · simp [ht]
  · have hlt := h.not_due hinv hstored hp hres ht
    rw [(hinv.sound.filed _ _ hstored).expiryOf_eq ht]
    have hnot : ¬ t.timestamp + t.timeout * nanosPerSecond ≤ now := by omega
    simp [hnot]

theorem decideResolution_backstop {s : Store} (hinv : Inv s) (h : Clear now s) (t : Transfer)
    (post : Bool) (importedTs : Option ℕ) (lastTs : ℕ) :
    decideResolution (fun _ _ => false) s t post now importedTs lastTs =
      decideResolution lazilyExpired s t post now importedTs lastTs := by
  unfold decideResolution
  cases hpending : s.transfers t.pendingId with
  | none => rfl
  | some pending =>
    dsimp only
    cases hfields : pendingFieldChecks t pending with
    | some code => rfl
    | none =>
      dsimp only
      cases effectiveAmount t pending post with
      | error code => rfl
      | ok effective =>
        dsimp only
        cases hprior : priorResolution (s.pendingStates pending.id) with
        | some code => rfl
        | none =>
          have hlazy := h.not_lazilyExpired hinv (hinv.sound.stored hpending)
            (pendingFieldChecks_eq_none hfields).reserve (priorResolution_eq_none.mp hprior)
          dsimp only
          rw [hlazy]

theorem transfer_backstop (hinv : Inv b.store) (h : Clear now b.store) (batchImported : Bool)
    (t : Transfer) :
    b.transfer (fun _ _ => false) batchImported now t =
      b.transfer lazilyExpired batchImported now t := by
  unfold Book.transfer decideTransfer
  simp only [decideResolution_backstop hinv h]

end

/-- On a store with the invariant the lazy check makes no difference to any call. -/
theorem createTransfersWith_backstop {s : Store} (h : Inv s) (now : ℕ) (batch : List Transfer) :
    createTransfersWith (fun _ _ => false) s now batch = createTransfers s now batch := by
  obtain ⟨swept, hsweep, hsteps, hclear, -⟩ := exists_sweep now [] h
  have hswept : Inv (Book.mk swept []).store := h.steps hsteps
  have hstep : ∀ {b b' : Book}, Inv b.store → Clear now b.store → Step now b b' →
      Clear now b'.store := fun hinv hc hs => Clear.step hinv hc hs
  have hrun : (bookTransferOps (fun _ _ => false) (transfersImported batch) now).runSegments
        (segments transferLinked batch) ⟨swept, []⟩ =
      (bookTransferOps lazilyExpired (transfersImported batch) now).runSegments
        (segments transferLinked batch) ⟨swept, []⟩ :=
    (bookTransferOps_keeps hstep lazilyExpired (transfersImported batch)).runSegments_congr
      (bookTransferOps_exact lazilyExpired (transfersImported batch) now)
      (bookTransferOps_finish hstep)
      (fun b t hb => transfer_backstop hb.1 hb.2 (transfersImported batch) t)
      (fun seg hseg => segments_items_ne_nil transferLinked hseg) ⟨hswept, hclear⟩
  rw [createTransfers, createTransfersWith_eq_book h.wellKeyed [],
    createTransfersWith_eq_book h.wellKeyed []]
  simp only [Book.createTransfers, hsweep, bind, Except.bind]
  rw [hrun]

/-- The expiry index is exact, the sweep resolves whatever is due, nothing that is
due is posted or voided, and the lazy check never decides. -/
theorem reachable_expiry {s : Store} (h : Reachable s) :
    (∀ key, key ∈ s.expiry ↔ ∃ t, s.transfers t.id = some t ∧
      t.flags.contains .pending = true ∧ t.timeout ≠ 0 ∧ s.pendingStates t.id = none ∧
      key = expiryKey (t.timestamp + t.timeout * nanosPerSecond) t.id) ∧
    ∀ now batch results s', createTransfers s now batch = .ok (results, s') →
      (∀ t, s.transfers t.id = some t → t.flags.contains .pending = true → t.timeout ≠ 0 →
        t.timestamp + t.timeout * nanosPerSecond ≤ now →
        ∃ status, s'.pendingStates t.id = some status) ∧
      (∀ t status, s'.transfers t.id = some t → s.pendingStates t.id = none →
        s'.pendingStates t.id = some status → status = .posted ∨ status = .voided →
        t.timeout = 0 ∨ now < t.timestamp + t.timeout * nanosPerSecond) ∧
      createTransfersWith (fun _ _ => false) s now batch = .ok (results, s') := by
  have hinv := h.inv
  refine ⟨?_, ?_⟩
  · intro key
    rw [hinv.sound.expiry]
    constructor
    · rintro ⟨t, ht, rfl⟩
      refine ⟨t, ht.stored, ht.reserve, ht.timed, ht.unresolved, ?_⟩
      rw [pendingKey, (hinv.sound.filed _ _ ht.stored).expiryOf_eq ht.timed]
    · rintro ⟨t, hstored, hp, ht, hres, rfl⟩
      refine ⟨t, ⟨hstored, hp, ht, hres⟩, ?_⟩
      rw [pendingKey, (hinv.sound.filed _ _ hstored).expiryOf_eq ht]
  · intro now batch results s' hcreate
    obtain ⟨swept, b', rfl, hcall⟩ := hinv.transferCall [] hcreate
    have hswept : Inv swept := hinv.steps hcall.sweepSteps
    have hkept := hcall.sweepSteps.kept
    refine ⟨?_, ?_, ?_⟩
    · intro t hstored hp ht hdue
      cases hres : swept.pendingStates t.id with
      | some status => exact ⟨status, hcall.runSteps.states_kept hres⟩
      | none =>
        have hlt := hcall.clear.not_due hswept (hkept _ _ hstored) hp hres ht
        omega
    · intro t status hstored hnone hstatus hkind
      have hlapsed : NoneLapsed now swept b' := by
        refine NoneLapsed.steps hswept hcall.clear ?_ hcall.runSteps
        intro id t' status' _ hn hs
        rw [hn] at hs
        simp at hs
      cases hres : swept.pendingStates t.id with
      | none => exact hlapsed t.id t status hstored hres hstatus
      | some status' =>
        have hsame := hcall.runSteps.states_kept hres
        have heq : status = status' := Option.some.inj (hstatus.symm.trans hsame)
        rcases hcall.frame.states _ _ hres with hold | rfl
        · rw [hnone] at hold
          simp at hold
        · rw [heq] at hkind
          simp at hkind
    · rw [createTransfersWith_backstop hinv now batch]
      exact hcreate

theorem reachable_expiry_sample :
    expiryKey 1000000021 101 ∈ sampleReserved.store.expiry ∧
      ∃ t, sampleReserved.store.transfers t.id = some t ∧
        t.flags.contains .pending = true ∧ t.timeout ≠ 0 ∧
        sampleReserved.store.pendingStates t.id = none ∧
        expiryKey 1000000021 101 = expiryKey (t.timestamp + t.timeout * nanosPerSecond) t.id := by
  have hmem : expiryKey 1000000021 101 ∈ sampleReserved.store.expiry := by decide +kernel
  exact ⟨hmem, ((reachable_expiry sampleReserved_reachable).1 _).mp hmem⟩

end BlueDB.Ledger
