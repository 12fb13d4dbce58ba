import BlueDB.Ledger.Runs

/-!
# Burned ids

An id that failed with a transient code is refused from then on. Burned ids and
stored transfers never meet, nothing burned is created later, in the same batch
or in another call, and only the final codes of a batch burn ids.
-/

namespace BlueDB.Ledger

section

variable {backstop : Transfer → ℕ → Bool} {batchImported : Bool} {now : ℕ} {b b' : Book}

theorem Verdict.failed {t : Transfer} {r : CreateTransferResult}
    (h : Verdict backstop batchImported now b t r b') :
    b'.store.failed = b.store.failed ∧ (r = .created → t.id ∉ b.store.failed) := by
  cases h with
  | malformed hpre =>
    refine ⟨rfl, ?_⟩
    rintro rfl
    simpa using mem_of_firstFailing_eq_some hpre
  | known _ _ =>
    refine ⟨rfl, ?_⟩
    intro hcreated
    exact absurd hcreated (transferExistsResult_ne_created _ _)
  | burned _ _ _ => exact ⟨rfl, by simp⟩
  | illFormed _ _ hfailed _ => exact ⟨rfl, fun _ => hfailed⟩
  | refused _ _ hfailed _ _ => exact ⟨rfl, fun _ => hfailed⟩
  | created _ _ hfailed _ _ => exact ⟨by simp [Book.accept], fun _ => hfailed⟩

/-- What a part of a batch does to the burned ids, with the codes it was given. -/
structure Burns (b : Book) (ps : List (Transfer × CreateTransferResult)) (b' : Book) : Prop where
  kept : ∀ id ∈ b.store.failed, id ∈ b'.store.failed
  refused : ∀ p ∈ ps, p.2 = .created → p.1.id ∉ b.store.failed
  burned : ∀ p ∈ ps, transferBurnsId p.2 = true → p.1.id ∈ b'.store.failed
  only : ∀ id ∈ b'.store.failed,
    id ∈ b.store.failed ∨ ∃ p ∈ ps, p.1.id = id ∧ transferBurnsId p.2 = true
  later : ps.Pairwise fun p q =>
    transferBurnsId p.2 = true → q.1.id = p.1.id → q.2 ≠ .created

theorem Burns.refl (b : Book) : Burns b [] b :=
  ⟨fun _ h => h, by simp, by simp, fun _ h => Or.inl h, .nil⟩

theorem Burns.trans {b₁ b₂ b₃ : Book} {ps qs : List (Transfer × CreateTransferResult)}
    (h : Burns b₁ ps b₂) (h' : Burns b₂ qs b₃) : Burns b₁ (ps ++ qs) b₃ := by
  refine ⟨fun id hid => h'.kept id (h.kept id hid), ?_, ?_, ?_, ?_⟩
  · intro p hp hcreated hmem
    rcases List.mem_append.mp hp with hp | hp
    · exact h.refused p hp hcreated hmem
    · exact h'.refused p hp hcreated (h.kept _ hmem)
  · intro p hp hburn
    rcases List.mem_append.mp hp with hp | hp
    · exact h'.kept _ (h.burned p hp hburn)
    · exact h'.burned p hp hburn
  · intro id hid
    rcases h'.only id hid with hid | ⟨p, hp, hrest⟩
    · rcases h.only id hid with hid | ⟨p, hp, hrest⟩
      · exact Or.inl hid
      · exact Or.inr ⟨p, List.mem_append_left _ hp, hrest⟩
    · exact Or.inr ⟨p, List.mem_append_right _ hp, hrest⟩
  · rw [List.pairwise_append]
    refine ⟨h.later, h'.later, ?_⟩
    intro p hp q hq hburn hid hcreated
    exact h'.refused q hq hcreated (hid ▸ h.burned p hp hburn)

/-- The same before the codes of a chain are final: nothing has been burned yet. -/
structure BurnsNothing (b : Book) (ps : List (Transfer × CreateTransferResult)) (b' : Book) :
    Prop where
  failed : b'.store.failed = b.store.failed
  refused : ∀ p ∈ ps, p.2 = .created → p.1.id ∉ b.store.failed
  later : ps.Pairwise fun p q =>
    transferBurnsId p.2 = true → q.1.id = p.1.id → q.2 ≠ .created

theorem BurnsNothing.item {t : Transfer} {r : CreateTransferResult} {b₁ : Book}
    {ps : List (Transfer × CreateTransferResult)}
    (hp : b.transfer backstop batchImported now t = .ok (r, b₁))
    (hr : (bookTransferOps backstop batchImported now).settled r = true)
    (h : BurnsNothing b₁ ps b') : BurnsNothing b ((t, r) :: ps) b' := by
  obtain ⟨hfailed, hcreated⟩ := (Book.transfer_verdict hp).failed
  refine ⟨h.failed.trans hfailed, ?_, ?_⟩
  · intro p hp
    rcases List.mem_cons.mp hp with rfl | hp
    · exact hcreated
    · rw [← hfailed]
      exact h.refused p hp
  · rw [List.pairwise_cons]
    refine ⟨?_, h.later⟩
    intro q _ hburn
    rw [bookTransferOps_settled] at hr
    have hcases : r = .created ∨ r = .exists_ := by simpa using hr
    rcases hcases with rfl | rfl <;> simp [transferBurnsId] at hburn

theorem BurnsNothing.of_failed {ps : List (Transfer × CreateTransferResult)}
    (h : ∀ p ∈ ps, (bookTransferOps backstop batchImported now).settled p.2 = false) :
    BurnsNothing b ps b := by
  have hnot : ∀ p ∈ ps, p.2 ≠ .created := by
    intro p hp hcreated
    have hunsettled := h p hp
    rw [hcreated] at hunsettled
    simp [bookTransferOps] at hunsettled
  refine ⟨rfl, fun p hp hcreated => absurd hcreated (hnot p hp), ?_⟩
  apply List.pairwise_of_forall_mem_list
  intro p _ q hq _ _
  exact hnot q hq

/-- When the codes of a chain are final, exactly their burning ones burn. -/
theorem BurnsNothing.finish {ps : List (Transfer × CreateTransferResult)}
    (h : BurnsNothing b ps b') :
    Burns b ps { b' with store := b'.store.burn (burnedIds ps) } := by
  refine ⟨?_, h.refused, ?_, ?_, h.later⟩
  · intro id hid
    exact Finset.mem_union_left _ (h.failed ▸ hid)
  · intro p hp hburn
    exact Finset.mem_union_right _ (mem_burnedIds.mpr ⟨p, hp, hburn, rfl⟩)
  · intro id hid
    rcases Finset.mem_union.mp hid with hid | hid
    · exact Or.inl (h.failed ▸ hid)
    · obtain ⟨p, hp, hburn, hpid⟩ := mem_burnedIds.mp hid
      exact Or.inr ⟨p, hp, hpid, hburn⟩

theorem TransferCall.burns {transfers : List Transfer} {swept : Store}
    {results : List CreateTransferResult}
    (h : TransferCall backstop b now transfers swept results b') :
    Burns ⟨swept, b.log⟩ (transfers.zip results) b' := by
  have htrace := (bookTransferOps_exact backstop (transfersImported transfers)
    now).runSegments_rule (S := BurnsNothing) (T := Burns) rfl rfl Burns.refl Burns.trans
    (fun _ => ⟨rfl, by simp, .nil⟩) (fun hp hr h => BurnsNothing.item hp hr h)
    BurnsNothing.of_failed BurnsNothing.finish
    (fun seg hseg => segments_items_ne_nil transferLinked hseg) h.run
  rwa [flatMap_segments] at htrace

end

/-- A call's effect on the burned ids, against the state before its sweep. -/
theorem createTransfers_burns {s s' : Store} (h : Inv s) {now : ℕ} {batch : List Transfer}
    {results : List CreateTransferResult}
    (hc : createTransfers s now batch = .ok (results, s')) :
    results.length = batch.length ∧ Burns ⟨s, []⟩ (batch.zip results) ⟨s', []⟩ := by
  obtain ⟨swept, b', rfl, hcall⟩ := h.transferCall [] hc
  have hb := hcall.burns
  have hfailed : swept.failed = s.failed := hcall.frame.failed
  refine ⟨hcall.length, ?_, ?_, hb.burned, ?_, hb.later⟩
  · intro id hid
    exact hb.kept id (hfailed ▸ hid)
  · intro p hp hcreated
    have hnot := hb.refused p hp hcreated
    rwa [hfailed] at hnot
  · intro id hid
    rcases hb.only id hid with hid | hp
    · exact Or.inl (hfailed ▸ hid)
    · exact Or.inr hp

theorem Calls.failed_subset {s s' : Store} (h : Reachable s) (hc : Calls s s') :
    s.failed ⊆ s'.failed := by
  induction hc with
  | refl => exact Finset.Subset.refl _
  | tail hcalls hcall ih =>
    have hr : Reachable _ := h.trans hcalls
    cases hcall with
    | accounts hacc =>
      obtain ⟨w, -, rfl⟩ := createAccounts_eq_ok.mp hacc
      exact ih
    | transfers htr => exact ih.trans (createTransfers_burns hr.inv htr).2.kept

/-- Burned ids and accepted transfers never meet. -/
theorem reachable_burned_ids {s : Store} (h : Reachable s) :
    (∀ id ∈ s.failed, s.transfers id = none) ∧
    (∀ s', Calls s s' → s.failed ⊆ s'.failed) ∧
    ∀ now batch results s', createTransfers s now batch = .ok (results, s') →
      results.length = batch.length ∧
      (∀ p ∈ batch.zip results, p.1.id ∈ s.failed → p.2 ≠ .created) ∧
      ((batch.zip results).Pairwise fun p q =>
        transferBurnsId p.2 = true → q.1.id = p.1.id → q.2 ≠ .created) ∧
      (∀ p ∈ batch.zip results, transferBurnsId p.2 = true → p.1.id ∈ s'.failed) ∧
      ∀ id ∈ s'.failed, id ∉ s.failed →
        ∃ p ∈ batch.zip results, p.1.id = id ∧ transferBurnsId p.2 = true := by
  refine ⟨h.inv.sound.failed, fun s' hc => Calls.failed_subset h hc, ?_⟩
  intro now batch results s' hc
  obtain ⟨hlen, hb⟩ := createTransfers_burns h.inv hc
  refine ⟨hlen, ?_, hb.later, hb.burned, ?_⟩
  · intro p hp hid hcreated
    exact hb.refused p hp hcreated hid
  · intro id hid hnot
    rcases hb.only id hid with hold | hp
    · exact absurd hold hnot
    · exact hp

/-- After an overdraft attempt on account 1 its id is burned and never created. -/
def sampleOverdrawn : Book :=
  sampleReserved.callTransfers 30 [sampleTransfer 103 1 2 60 .none]

theorem reachable_burned_ids_sample :
    (103 : U128) ∈ sampleOverdrawn.store.failed ∧ sampleOverdrawn.store.transfers 103 = none := by
  have hmem : (103 : U128) ∈ sampleOverdrawn.store.failed := by decide +kernel
  have hr : Reachable sampleOverdrawn.store :=
    reachable_iff_history.mpr ⟨_, sampleReserved_history.callTransfers 30 _⟩
  exact ⟨hmem, (reachable_burned_ids hr).1 103 hmem⟩

end BlueDB.Ledger
