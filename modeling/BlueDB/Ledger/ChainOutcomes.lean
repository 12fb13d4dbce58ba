import BlueDB.Ledger.Replay

/-!
# Chains are all or nothing

Every chain of a batch is applied as a whole, or nothing of it is kept but the
burned id of the member that failed it. Then the call ends as the batch without
the chain would have ended, as long as leaving the chain out does not change
whether the batch is an imported one.
-/

namespace BlueDB.Ledger

/-- The same store but for the burned ids, of which `s` may have `id` in addition. -/
structure SameBut (id : U128) (s s' : Store) : Prop where
  accounts : s.accounts = s'.accounts
  transfers : s.transfers = s'.transfers
  pendingStates : s.pendingStates = s'.pendingStates
  expiry : s.expiry = s'.expiry
  watermark : s.watermark = s'.watermark
  kept : s'.failed ⊆ s.failed
  gained : s.failed ⊆ insert id s'.failed

section

variable {id : U128} {s s' : Store}

theorem SameBut.mem_failed (h : SameBut id s s') {k : U128} (hk : k ≠ id) :
    k ∈ s.failed ↔ k ∈ s'.failed := by
  constructor
  · intro hmem
    rcases Finset.mem_insert.mp (h.gained hmem) with heq | hmem
    · exact absurd heq hk
    · exact hmem
  · exact fun hmem => h.kept hmem

theorem SameBut.enact (h : SameBut id s s') (e : Effect) : SameBut id (s.enact e) (s'.enact e) := by
  constructor
  · simp [h.accounts]
  · simp [h.transfers]
  · simp [h.pendingStates]
  · simp [h.expiry]
  · simp
  · simpa using h.kept
  · simpa using h.gained

theorem SameBut.burn (h : SameBut id s s') (ids : Finset U128) :
    SameBut id (s.burn ids) (s'.burn ids) := by
  refine ⟨h.accounts, h.transfers, h.pendingStates, h.expiry, h.watermark, ?_, ?_⟩
  · exact Finset.union_subset_union_left h.kept
  · have hunion := Finset.union_subset_union_left (t := ids) h.gained
    rwa [Finset.insert_union] at hunion

theorem sameBut_burn (s : Store) {ids : Finset U128} (h : ids ⊆ {id}) :
    SameBut id (s.burn ids) s := by
  refine ⟨rfl, rfl, rfl, rfl, rfl, Finset.subset_union_left, ?_⟩
  intro k hk
  rcases Finset.mem_union.mp hk with hk | hk
  · exact Finset.mem_insert_of_mem hk
  · rw [Finset.mem_singleton.mp (h hk)]
    exact Finset.mem_insert_self _ _

theorem SameBut.decideTransfer (h : SameBut id s s') (backstop : Transfer → ℕ → Bool)
    (batchImported : Bool) (now : ℕ) (t : Transfer) :
    decideTransfer backstop batchImported now s t =
      decideTransfer backstop batchImported now s' t := by
  simp only [Ledger.decideTransfer, decideMovement, decideResolution, Store.getWatermark,
    h.accounts, h.transfers, h.pendingStates, h.watermark]

end

theorem SameBut.transfer {id : U128} {b v : Book} (h : SameBut id b.store v.store)
    (backstop : Transfer → ℕ → Bool) (batchImported : Bool) (now : ℕ) {t : Transfer}
    (ht : t.id ≠ id) :
    Agree (fun p q => p.1 = q.1 ∧ SameBut id p.2.store q.2.store)
      (b.transfer backstop batchImported now t) (v.transfer backstop batchImported now t) := by
  have hwatermark : b.store.getWatermark = v.store.getWatermark := by
    rw [Store.getWatermark, h.watermark]
    rfl
  unfold Book.transfer
  rw [h.transfers, h.decideTransfer, hwatermark]
  simp only [h.mem_failed ht]
  split
  · exact ⟨rfl, h⟩
  split
  · exact ⟨rfl, h⟩
  split_ifs
  · exact ⟨rfl, h⟩
  split
  · exact ⟨rfl, h⟩
  split
  · rfl
  · exact ⟨rfl, h⟩
  · exact ⟨rfl, h.enact _⟩

theorem sameBut_simulates (id : U128) (backstop : Transfer → ℕ → Bool) (batchImported : Bool)
    (now : ℕ) :
    BatchOps.Simulates (bookTransferOps backstop batchImported now)
      (bookTransferOps backstop batchImported now) (fun b v => SameBut id b.store v.store)
      (fun _ _ => True) (fun t => t.id ≠ id) where
  settled _ := rfl
  linkedFailed := rfl
  chainOpen := rfl
  refl _ := trivial
  extend _ _ := trivial
  process ht h := h.transfer backstop batchImported now ht
  rollback h _ _ := h
  finish h := h.burn _

theorem burnedIds_failed {items : List Transfer} {pos : ℕ} {offender : Transfer}
    (h : items[pos]? = some offender) (r : CreateTransferResult) :
    burnedIds (items.zip ((List.replicate items.length .linkedEventFailed).set pos r)) ⊆
      {offender.id} := by
  intro id hid
  obtain ⟨p, hp, hburn, rfl⟩ := mem_burnedIds.mp hid
  obtain ⟨i, hi, rfl⟩ := List.getElem_of_mem hp
  simp only [List.getElem_zip, List.getElem_set, List.getElem_replicate] at hburn ⊢
  split_ifs at hburn with hpos
  · subst hpos
    rw [List.getElem?_eq_some_iff] at h
    obtain ⟨_, rfl⟩ := h
    exact Finset.mem_singleton_self _
  · simp [transferBurnsId] at hburn

theorem Verdict.ne_linkedEventFailed {backstop : Transfer → ℕ → Bool} {batchImported : Bool}
    {now : ℕ} {b b' : Book} {t : Transfer} {r : CreateTransferResult}
    (h : Verdict backstop batchImported now b t r b') : r ≠ .linkedEventFailed := by
  cases h with
  | malformed hpre =>
    rintro rfl
    simpa using mem_of_firstFailing_eq_some hpre
  | @known existing _ _ =>
    intro hcode
    have hmem := transferExistsResult_mem t existing
    rw [hcode] at hmem
    simp [existsCodes] at hmem
  | burned _ _ _ => simp
  | illFormed _ _ _ hpost =>
    rintro rfl
    simpa using mem_of_firstFailing_eq_some hpost
  | refused _ _ _ _ hdec =>
    rintro rfl
    simpa using refused_code hdec
  | created _ _ _ _ _ => simp

/-- The chain was applied: every member is created or known, and what was created
is in the store. -/
structure TransferChainApplied (batch : List Transfer) (results : List CreateTransferResult)
    (s' : Store) (c : Chain) : Prop where
  codes : ∀ r ∈ c.slice results, r = .created ∨ r = .exists_
  committed : ∀ p ∈ (c.slice batch).zip (c.slice results), p.2 = .created →
    ∃ r, s'.transfers p.1.id = some r ∧ StoredAs p.1 r

/-- The chain failed at `pos` with `r`. The other members carry the code of a failed
chain; the batch up to the chain and the batch through it commit the same; and so
do the batch and the batch without the chain, when no later item has the
offender's id and the batch without it is imported or not as the whole is. -/
structure TransferChainFailed (s : Store) (now : ℕ) (batch : List Transfer)
    (results : List CreateTransferResult) (s' : Store) (c : Chain) (pos : ℕ) (offender : Transfer)
    (r : CreateTransferResult) : Prop where
  member : (c.slice batch)[pos]? = some offender
  failure : ∃ state, sweepExpired s now .default = .ok state ∧
    ChainFailure (transferOps lazilyExpired s (transfersImported batch) now) transferLinked batch c
      ⟨⟨s.getWatermark⟩, state, fun _ => none, [], ∅⟩ pos r
  own : r ∉ [CreateTransferResult.created, .exists_, .linkedEventFailed]
  codes : c.slice results =
    (List.replicate (c.slice batch).length CreateTransferResult.linkedEventFailed).set pos r
  uncommitted : ∃ r₁ s₁ r₂ s₂, createTransfers s now (batch.take c.start) = .ok (r₁, s₁) ∧
    createTransfers s now (batch.take (c.last + 1)) = .ok (r₂, s₂) ∧ SameBut offender.id s₂ s₁
  removed : (∀ t ∈ batch.drop (c.last + 1), t.id ≠ offender.id) →
    (∀ t ∈ (batch.take c.start ++ batch.drop (c.last + 1)).head?,
      t.flags.contains .imported = transfersImported batch) →
    ∃ s'', createTransfers s now (batch.take c.start ++ batch.drop (c.last + 1)) =
        .ok (results.take c.start ++ results.drop (c.last + 1), s'') ∧
      SameBut offender.id s' s''

section

variable {s : Store} {now : ℕ} {batch : List Transfer} {results : List CreateTransferResult}
  {c : Chain} {before items after : List Transfer}

theorem transferChainFailed_of_codes (hs : Inv s) {swept : Store} {b' : Book}
    (hsplit : ChainSplit transferLinked batch c before items after)
    (hcall : TransferCall lazilyExpired ⟨s, []⟩ now batch swept results b') {state : ApplyState}
    (hsweep : sweepExpired s now .default = .ok state) {pos : ℕ} {r : CreateTransferResult}
    (hfailure : ChainFailure (transferOps lazilyExpired s (transfersImported batch) now)
      transferLinked batch c ⟨⟨s.getWatermark⟩, state, fun _ => none, [], ∅⟩ pos r)
    (hcodes : c.slice results =
      (List.replicate (c.slice batch).length CreateTransferResult.linkedEventFailed).set pos r) :
    ∃ offender, TransferChainFailed s now batch results b'.store c pos offender r := by
  have hpos : pos < (c.slice batch).length := hfailure.pos_lt
  have hr : (r == .created || r == .exists_) = false := hfailure.unsettled rfl
  obtain ⟨hlinked, b₁, hrun₁, hthrough, hrun₃⟩ := hsplit.run_of_failed
    (bookTransferOps_exact lazilyExpired (transfersImported batch) now) (by simp [bookTransferOps])
    (fun hp => (Book.transfer_verdict hp).ne_linkedEventFailed) hcall.run hpos hr hcodes
  obtain ⟨hitems, hbefore, hthrough', hafter⟩ := hsplit.cut
  obtain ⟨offender, hmember⟩ : ∃ t, (c.slice batch)[pos]? = some t :=
    ⟨_, List.getElem?_eq_getElem hpos⟩
  have hsame : SameBut offender.id
      (b₁.store.burn (burnedIds (items.zip (c.slice results)))) b₁.store := by
    apply sameBut_burn
    rw [hcodes, hitems]
    exact burnedIds_failed (hitems ▸ hmember) r
  have hown : r ∉ [CreateTransferResult.created, .exists_, .linkedEventFailed] := by
    have hne : r ≠ .linkedEventFailed := hlinked
    simp only [Bool.or_eq_false_iff, beq_eq_false_iff_ne] at hr
    simp [hr.1, hr.2, hne]
  refine ⟨offender, hmember, ⟨state, hsweep, hfailure⟩, hown, hcodes, ?_, ?_⟩
  · rw [hbefore, hthrough']
    obtain ⟨hhead, hhead'⟩ := hsplit.head_mem
    have himp := transfersImported_of_head batch
    exact ⟨_, b₁.store, _, _,
      createTransfers_of_run hs hcall.sweep (fun t ht => himp t (hhead t ht)) hrun₁,
      createTransfers_of_run hs hcall.sweep (fun t ht => himp t (hhead' t ht)) hthrough, hsame⟩
  · rw [hbefore, hafter]
    intro hids himp
    have hok : ∀ t ∈ (segments transferLinked after).flatMap Segment.items, t.id ≠ offender.id := by
      simpa using hids
    -- what comes after the chain runs alike with and without the burned id
    obtain ⟨⟨codes, v⟩, hrun, hcodes₃, hsame'⟩ :=
      ((sameBut_simulates _ lazilyExpired (transfersImported batch) now).runSegments
        hok hsame).ok_left hrun₃
    dsimp only at hcodes₃ hsame'
    subst hcodes₃
    have hremoved : (bookTransferOps lazilyExpired (transfersImported batch) now).runSegments
        (segments transferLinked (before ++ after)) ⟨swept, []⟩ =
          .ok (results.take c.start ++ results.drop (c.last + 1), v) := by
      rw [segments_append transferLinked hsplit.boundary]
      exact (BatchOps.runSegments_append_eq_ok _).mpr ⟨_, b₁, _, hrun₁, hrun, rfl⟩
    exact ⟨v.store, createTransfers_of_run hs hcall.sweep himp hremoved, hsame'⟩

theorem transferChain_cases (hs : Inv s) {s' : Store}
    (h : createTransfers s now batch = .ok (results, s'))
    (hc : c ∈ chains (batch.map transferLinked)) :
    TransferChainApplied batch results s' c ∨
      ∃ pos offender r, TransferChainFailed s now batch results s' c pos offender r := by
  obtain ⟨before, items, after, hsplit⟩ := exists_chainSplit transferLinked hc
  obtain ⟨w, hw, rfl⟩ := createTransfersWith_eq_ok.mp h
  obtain ⟨swept, hcall⟩ := hs.transferCall_of_apply [] hw
  rw [applyTransfersWith, bind_eq_ok] at hw
  obtain ⟨state, hsweep, hrun⟩ := hw
  rcases hsplit.codes hrun with hsettled | ⟨pos, r, hfailure, hcodes⟩
  · refine Or.inl ⟨?_, ?_⟩
    · intro r hr
      simpa [transferOps] using hsettled r hr
    · intro p hp hcreated
      obtain ⟨-, -, r, hstored, hr⟩ :=
        hcall.leaves.created p (Chain.mem_of_mem_slice hp) hcreated
      exact ⟨r, hstored, hr⟩
  · obtain ⟨offender, hfailed⟩ :=
      transferChainFailed_of_codes hs hsplit hcall hsweep hfailure hcodes
    exact Or.inr ⟨pos, offender, r, hfailed⟩

end

theorem Book.account_ne_linkedEventFailed {batchImported : Bool} {now : ℕ} {b b' : Book}
    {spec : Account} {r : CreateAccountResult}
    (h : b.account batchImported now spec = (r, b')) : r ≠ .linkedEventFailed := by
  rintro rfl
  unfold Book.account at h
  split at h
  · rename_i code hpre
    cases h
    simpa using mem_of_firstFailing_eq_some hpre
  split at h
  · rename_i existing _
    have hcode : accountExistsResult spec existing = .linkedEventFailed := (Prod.mk.inj h).1
    unfold accountExistsResult at hcode
    rw [Option.getD_eq_iff] at hcode
    rcases hcode with hcode | ⟨-, hcode⟩
    · simpa using mem_of_firstFailing_eq_some hcode
    · simp at hcode
  split at h
  · rename_i code hpost
    cases h
    simpa using mem_of_firstFailing_eq_some hpost
  split_ifs at h <;> simp at h

structure AccountLeaves (b : Book) (ps : List (Account × CreateAccountResult)) (b' : Book) :
    Prop where
  kept : ∀ id a, b.store.accounts id = some a → b'.store.accounts id = some a
  created : ∀ p ∈ ps, p.2 = .created →
    ∃ timestamp, b'.store.accounts p.1.id = some { p.1 with timestamp := timestamp }

theorem AccountLeaves.of_unsettled {batchImported : Bool} {now : ℕ} {b : Book}
    {ps : List (Account × CreateAccountResult)}
    (h : ∀ p ∈ ps, (bookAccountOps batchImported now).settled p.2 = false) :
    AccountLeaves b ps b := by
  refine ⟨fun _ _ ha => ha, ?_⟩
  intro p hp hr
  have hset := h p hp
  simp [hr, bookAccountOps] at hset

theorem AccountLeaves.trans {b₁ b₂ b₃ : Book} {ps qs : List (Account × CreateAccountResult)}
    (h : AccountLeaves b₁ ps b₂) (h' : AccountLeaves b₂ qs b₃) :
    AccountLeaves b₁ (ps ++ qs) b₃ := by
  refine ⟨fun id a ha => h'.kept id a (h.kept id a ha), ?_⟩
  intro p hp hr
  rcases List.mem_append.mp hp with hp | hp
  · obtain ⟨timestamp, hstored⟩ := h.created p hp hr
    exact ⟨timestamp, h'.kept _ _ hstored⟩
  · exact h'.created p hp hr

theorem Book.account_leaves {batchImported : Bool} {now : ℕ} {b b' : Book} {spec : Account}
    {r : CreateAccountResult} (h : b.account batchImported now spec = (r, b')) :
    AccountLeaves b [(spec, r)] b' := by
  rcases Book.account_cases h with ⟨hr, rfl⟩ | ⟨rfl, timestamp, hopens, rfl⟩
  · refine ⟨fun _ _ ha => ha, ?_⟩
    intro p hp hcreated
    rw [List.mem_singleton.mp hp] at hcreated
    exact absurd hcreated hr
  · have hfresh : b.store.accounts spec.id = none := hopens.fresh
    refine ⟨?_, ?_⟩
    · intro id a ha
      have hne : id ≠ spec.id := by
        rintro rfl
        rw [hfresh] at ha
        simp at ha
      rw [← ha]
      exact put_of_ne hne _
    · intro p hp _
      rw [List.mem_singleton.mp hp]
      exact ⟨timestamp, put_self _ _ _⟩

theorem accountRun_leaves {batchImported : Bool} {now : ℕ} {b b' : Book} {specs : List Account}
    {results : List CreateAccountResult}
    (h : (bookAccountOps batchImported now).runSegments (segments accountLinked specs) b =
      .ok (results, b')) : AccountLeaves b (specs.zip results) b' := by
  have htrace := (bookAccountOps_exact batchImported now).runSegments_rule (S := AccountLeaves)
    (T := AccountLeaves) rfl rfl (fun _ => ⟨fun _ _ ha => ha, by simp⟩) AccountLeaves.trans
    (fun _ => ⟨fun _ _ ha => ha, by simp⟩)
    (fun hp _ hrest => (Book.account_leaves (Except.ok.inj hp)).trans hrest)
    AccountLeaves.of_unsettled (fun hS => hS)
    (fun seg hseg => segments_items_ne_nil accountLinked hseg) h
  rwa [flatMap_segments] at htrace

theorem createAccounts_of_run {s : Store} {now : ℕ} {specs : List Account} {imported : Bool}
    (himp : ∀ a ∈ specs.head?, a.flags.contains .imported = imported)
    {results : List CreateAccountResult} {b' : Book}
    (hrun : (bookAccountOps imported now).runSegments (segments accountLinked specs) ⟨s, []⟩ =
      .ok (results, b')) : createAccounts s now specs = .ok (results, b'.store) := by
  have hrun' : Book.createAccounts ⟨s, []⟩ now specs = .ok (results, b') := by
    cases specs with
    | nil => exact hrun
    | cons a rest =>
      have heq : accountsImported (a :: rest) = imported := himp a (by simp)
      rw [Book.createAccounts, heq]
      exact hrun
  rw [createAccounts_eq_book s [], hrun']
  rfl

structure AccountChainApplied (specs : List Account) (results : List CreateAccountResult)
    (s' : Store) (c : Chain) : Prop where
  codes : ∀ r ∈ c.slice results, r = .created ∨ r = .exists_
  committed : ∀ p ∈ (c.slice specs).zip (c.slice results), p.2 = .created →
    ∃ timestamp, s'.accounts p.1.id = some { p.1 with timestamp := timestamp }

/-- As for transfers, but accounts burn no ids: the stores are the same. -/
structure AccountChainFailed (s : Store) (now : ℕ) (specs : List Account)
    (results : List CreateAccountResult) (s' : Store) (c : Chain) (pos : ℕ)
    (r : CreateAccountResult) : Prop where
  failure : ChainFailure (accountOps s (accountsImported specs) now) accountLinked specs c
    ⟨⟨s.getWatermark⟩, fun _ => none, []⟩ pos r
  own : r ∉ [CreateAccountResult.created, .exists_, .linkedEventFailed]
  codes : c.slice results =
    (List.replicate (c.slice specs).length CreateAccountResult.linkedEventFailed).set pos r
  uncommitted : ∃ r₁ r₂ s₁, createAccounts s now (specs.take c.start) = .ok (r₁, s₁) ∧
    createAccounts s now (specs.take (c.last + 1)) = .ok (r₂, s₁)
  removed : (∀ a ∈ (specs.take c.start ++ specs.drop (c.last + 1)).head?,
      a.flags.contains .imported = accountsImported specs) →
    createAccounts s now (specs.take c.start ++ specs.drop (c.last + 1)) =
      .ok (results.take c.start ++ results.drop (c.last + 1), s')

section

variable {s : Store} {now : ℕ} {specs : List Account} {results : List CreateAccountResult}
  {c : Chain} {before items after : List Account}

theorem accountChainFailed_of_codes {b' : Book}
    (hsplit : ChainSplit accountLinked specs c before items after)
    (hrun : (bookAccountOps (accountsImported specs) now).runSegments
      (segments accountLinked specs) ⟨s, []⟩ = .ok (results, b')) {pos : ℕ}
    {r : CreateAccountResult}
    (hfailure : ChainFailure (accountOps s (accountsImported specs) now) accountLinked specs c
      ⟨⟨s.getWatermark⟩, fun _ => none, []⟩ pos r)
    (hcodes : c.slice results =
      (List.replicate (c.slice specs).length CreateAccountResult.linkedEventFailed).set pos r) :
    AccountChainFailed s now specs results b'.store c pos r := by
  have hr : (r == .created || r == .exists_) = false := hfailure.unsettled rfl
  obtain ⟨hlinked, b₁, hrun₁, hthrough, hrun₃⟩ := hsplit.run_of_failed
    (bookAccountOps_exact (accountsImported specs) now) (by simp [bookAccountOps])
    (fun hp => Book.account_ne_linkedEventFailed (Except.ok.inj hp)) hrun hfailure.pos_lt hr hcodes
  obtain ⟨-, hbefore, hthrough', hafter⟩ := hsplit.cut
  have hown : r ∉ [CreateAccountResult.created, .exists_, .linkedEventFailed] := by
    have hne : r ≠ .linkedEventFailed := hlinked
    simp only [Bool.or_eq_false_iff, beq_eq_false_iff_ne] at hr
    simp [hr.1, hr.2, hne]
  refine ⟨hfailure, hown, hcodes, ?_, ?_⟩
  · rw [hbefore, hthrough']
    obtain ⟨hhead, hhead'⟩ := hsplit.head_mem
    have himp : ∀ a ∈ specs.head?, a.flags.contains .imported = accountsImported specs := by
      intro a ha
      simp [accountsImported, Option.mem_def.mp ha]
    exact ⟨_, _, b₁.store, createAccounts_of_run (fun a ha => himp a (hhead a ha)) hrun₁,
      createAccounts_of_run (fun a ha => himp a (hhead' a ha)) hthrough⟩
  · rw [hbefore, hafter]
    intro himp
    apply createAccounts_of_run himp
    rw [segments_append accountLinked hsplit.boundary]
    exact (BatchOps.runSegments_append_eq_ok _).mpr ⟨_, b₁, _, hrun₁, hrun₃, rfl⟩

theorem accountChain_cases (hs : Inv s) {s' : Store}
    (h : createAccounts s now specs = .ok (results, s'))
    (hc : c ∈ chains (specs.map accountLinked)) :
    AccountChainApplied specs results s' c ∨
      ∃ pos r, AccountChainFailed s now specs results s' c pos r := by
  obtain ⟨before, items, after, hsplit⟩ := exists_chainSplit accountLinked hc
  obtain ⟨w, hw, rfl⟩ := createAccounts_eq_ok.mp h
  obtain ⟨_, _, hw', hrun, -⟩ := exists_accountCall hs [] now specs
  rw [hw] at hw'
  cases hw'
  rcases hsplit.codes hw with hsettled | ⟨pos, r, hfailure, hcodes⟩
  · refine Or.inl ⟨?_, ?_⟩
    · intro r hr
      simpa [accountOps] using hsettled r hr
    · intro p hp hcreated
      exact (accountRun_leaves hrun).created p (Chain.mem_of_mem_slice hp) hcreated
  · exact Or.inr ⟨pos, r, accountChainFailed_of_codes hsplit hrun hfailure hcodes⟩

end

theorem chains_all_or_nothing {s : Store} (h : Reachable s) (now : ℕ) :
    (∀ batch results s', createTransfers s now batch = .ok (results, s') →
      results.length = batch.length ∧ ∀ c ∈ chains (batch.map transferLinked),
        TransferChainApplied batch results s' c ∨
          ∃ pos offender r, TransferChainFailed s now batch results s' c pos offender r) ∧
    ∀ specs results s', createAccounts s now specs = .ok (results, s') →
      results.length = specs.length ∧ ∀ c ∈ chains (specs.map accountLinked),
        AccountChainApplied specs results s' c ∨
          ∃ pos r, AccountChainFailed s now specs results s' c pos r := by
  constructor
  · intro batch results s' hcall
    refine ⟨?_, fun c hc => transferChain_cases h.inv hcall hc⟩
    obtain ⟨_, _, -, hrun⟩ := h.inv.transferCall [] hcall
    exact hrun.length
  · intro specs results s' hcall
    refine ⟨?_, fun c hc => accountChain_cases h.inv hcall hc⟩
    obtain ⟨w, hw, -⟩ := createAccounts_eq_ok.mp hcall
    rw [applyAccounts, chainSegments_eq] at hw
    have hlen := BatchOps.runSegments_length _
      (fun seg hseg => segments_items_ne_nil accountLinked hseg) hw
    rwa [flatMap_segments] at hlen

/-- A chain that overdraws account 1, and a transfer after it. -/
def sampleChain : List Transfer :=
  [sampleTransfer 106 2 1 5 .linked, sampleTransfer 107 1 2 60 .none,
    sampleTransfer 108 2 1 7 .none]

theorem chains_all_or_nothing_sample :
    ∃ pos offender r, TransferChainFailed sampleReserved.store 30 sampleChain
      [.linkedEventFailed, .exceedsCredits, .created]
      (sampleReserved.callTransfers 30 sampleChain).store ⟨0, 1, false⟩ pos offender r := by
  have hcall : createTransfers sampleReserved.store 30 sampleChain =
      .ok ([.linkedEventFailed, .exceedsCredits, .created],
        (sampleReserved.callTransfers 30 sampleChain).store) :=
    createTransfers_callTransfers (by decide +kernel)
  have hcases := ((chains_all_or_nothing sampleReserved_reachable 30).1 _ _ _ hcall).2
    ⟨0, 1, false⟩ (by decide)
  rcases hcases with happlied | hfailed
  · have hcode := happlied.codes .linkedEventFailed (by decide)
    simp at hcode
  · exact hfailed

def sampleMixed : List Transfer :=
  [sampleTransfer 108 2 1 5 .imported, sampleTransfer 109 2 1 6 .none]

/-- The first chain fails. With it the batch is an imported one, which the second
transfer is refused for; without it the second transfer is created. -/
theorem chain_removal_changes_batch :
    Reachable sampleOpened.store ∧
    (⟨0, 0, false⟩ : Chain) ∈ chains (sampleMixed.map transferLinked) ∧
    createTransfers sampleOpened.store 20 sampleMixed =
      .ok ([.importedEventTimestampOutOfRange, .importedEventExpected],
        (sampleOpened.callTransfers 20 sampleMixed).store) ∧
    createTransfers sampleOpened.store 20 (sampleMixed.drop 1) =
      .ok ([.created], (sampleOpened.callTransfers 20 (sampleMixed.drop 1)).store) ∧
    (sampleOpened.callTransfers 20 sampleMixed).store.transfers 109 = none ∧
    ((sampleOpened.callTransfers 20 (sampleMixed.drop 1)).store.transfers 109).isSome = true := by
  refine ⟨reachable_iff_history.mpr ⟨_, sampleOpened_history⟩, by decide,
    createTransfers_callTransfers (by decide +kernel),
    createTransfers_callTransfers (by decide +kernel), by decide +kernel, by decide +kernel⟩

end BlueDB.Ledger
