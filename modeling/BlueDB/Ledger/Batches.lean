import BlueDB.Ledger.Expiry

/-!
# Splitting batches

A batch cut at a chain boundary does the same as its two parts, one call after
the other at the same clock reading: the second call reads from the store what
the first part had in its overlay, and finds nothing left to sweep.
-/

namespace BlueDB.Ledger

theorem Clear.steps {now : ℕ} {b b' : Book} (hinv : Inv b.store) (h : Clear now b.store)
    (hs : Steps now b b') : Clear now b'.store := by
  have hboth : Inv b'.store ∧ Clear now b'.store := by
    induction hs with
    | refl => exact ⟨hinv, h⟩
    | tail _ hstep ih => exact ⟨ih.1.step hstep, ih.2.step ih.1 hstep⟩
  exact hboth.2

/-- A call is a sweep and a run of the book, of a batch whose imported-ness matters
only when it has items. -/
theorem createTransfers_of_run {s swept : Store} (hinv : Inv s) {now : ℕ}
    (hsweep : s.sweep now = .ok swept) {batch : List Transfer} {imported : Bool}
    (himp : ∀ t ∈ batch.head?, t.flags.contains .imported = imported) {log : List Entry}
    {results : List CreateTransferResult} {b' : Book}
    (hrun : (bookTransferOps lazilyExpired imported now).runSegments
      (segments transferLinked batch) ⟨swept, log⟩ = .ok (results, b')) :
    createTransfers s now batch = .ok (results, b'.store) := by
  have hrun' : (bookTransferOps lazilyExpired (transfersImported batch) now).runSegments
      (segments transferLinked batch) ⟨swept, log⟩ = .ok (results, b') := by
    cases batch with
    | nil => exact hrun
    | cons t rest =>
      have heq : transfersImported (t :: rest) = imported := himp t (by simp)
      rw [heq]
      exact hrun
  rw [createTransfers, createTransfersWith_eq_book hinv.wellKeyed log]
  simp only [Book.createTransfers, hsweep, bind, Except.bind]
  rw [hrun']
  rfl

theorem transfersImported_of_head (batch : List Transfer) :
    ∀ t ∈ batch.head?, t.flags.contains .imported = transfersImported batch := by
  intro t ht
  simp [transfersImported, Option.mem_def.mp ht]

/-- Splitting a batch at a chain boundary changes neither results nor store. -/
theorem createTransfers_append {s : Store} (h : Reachable s) (now : ℕ) {b₁ b₂ : List Transfer}
    (h₁ : b₁ ≠ []) (hlast : ∀ t ∈ b₁.getLast?, t.flags.contains .linked = false)
    (himp : transfersImported b₂ = transfersImported b₁) :
    ∃ r₁ s₁ r₂ s₂, createTransfers s now b₁ = .ok (r₁, s₁) ∧
      createTransfers s₁ now b₂ = .ok (r₂, s₂) ∧
      createTransfers s now (b₁ ++ b₂) = .ok (r₁ ++ r₂, s₂) := by
  have hinv := h.inv
  obtain ⟨swept, r₁, w₁, -, hcall₁⟩ := exists_transferCall lazilyExpired hinv [] now b₁
  have hswept : Inv swept := hinv.steps hcall₁.sweepSteps
  have hinv₁ : Inv (w₁.book s []).store := hswept.steps hcall₁.runSteps
  have hclear₁ : Clear now (w₁.book s []).store := Clear.steps hswept hcall₁.clear hcall₁.runSteps
  obtain ⟨r₂, b', hrun₂, -, -⟩ := exists_runSegments lazilyExpired (transfersImported b₂) now hinv₁
    (fun seg hseg => segments_items_ne_nil transferLinked (l := b₂) hseg)
  refine ⟨r₁, (w₁.book s []).store, r₂, b'.store, ?_, ?_, ?_⟩
  · exact createTransfers_of_run hinv hcall₁.sweep (transfersImported_of_head b₁) hcall₁.run
  · exact createTransfers_of_run hinv₁ (sweep_of_clear hclear₁) (transfersImported_of_head b₂) hrun₂
  · have himp' : ∀ t ∈ (b₁ ++ b₂).head?, t.flags.contains .imported = transfersImported b₁ := by
      cases b₁ with
      | nil => exact absurd rfl h₁
      | cons t rest => simpa using transfersImported_of_head (t :: rest) t (by simp)
    apply createTransfers_of_run hinv hcall₁.sweep himp'
    rw [segments_append transferLinked hlast]
    rw [himp] at hrun₂
    exact BatchOps.runSegments_append_eq_ok _ |>.mpr ⟨r₁, _, r₂, hcall₁.run, hrun₂, rfl⟩

theorem createTransfers_append_sample :
    ∃ r₁ s₁ r₂ s₂,
      createTransfers sampleReserved.store 1000000021
        [sampleTransfer 105 2 1 5 .linked, sampleTransfer 106 2 1 6 .none] = .ok (r₁, s₁) ∧
      createTransfers s₁ 1000000021 [sampleTransfer 107 1 2 7 .none] = .ok (r₂, s₂) ∧
      createTransfers sampleReserved.store 1000000021
        [sampleTransfer 105 2 1 5 .linked, sampleTransfer 106 2 1 6 .none,
          sampleTransfer 107 1 2 7 .none] = .ok (r₁ ++ r₂, s₂) := by
  refine createTransfers_append sampleReserved_reachable 1000000021 (by simp) ?_ (by decide)
  decide

end BlueDB.Ledger
