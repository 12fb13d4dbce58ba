import BlueDB.Ledger.Apply

/-!
# Chains are segments

The index arithmetic of `chains` cuts a batch exactly into its linked segments,
and every chain is a slice of the batch between two segment boundaries.
-/

namespace BlueDB.Ledger

section

variable {α : Type} (linked : α → Bool)

/-- The loop of `chains` after `pre` has been cut and `run` has been read. -/
theorem chainsFrom_slices (pre run rest : List α) (hrun : ∀ t ∈ run, linked t = true) :
    (chainsFrom pre.length (pre.length + run.length) (rest.map linked)).map
        (fun c => (⟨c.slice (pre ++ run ++ rest), c.isOpen⟩ : Segment α)) =
      segments linked (run ++ rest) := by
  induction rest generalizing pre run with
  | nil =>
    cases run with
    | nil => simp [chainsFrom]
    | cons u run =>
      have hopen := segments_open linked (List.cons_ne_nil u run) hrun
      have hlen : pre.length + (u :: run).length - 1 + 1 - pre.length = (u :: run).length := by
        simp only [List.length_cons]
        omega
      simp only [List.map_nil, chainsFrom, List.append_nil]
      rw [if_pos (by simp), hopen, List.map_singleton]
      simp only [Chain.slice, hlen, List.drop_left, List.take_length]
  | cons t rest ih =>
    cases ht : linked t with
    | true =>
      have hrun' : ∀ x ∈ run ++ [t], linked x = true := by
        intro x hx
        rcases List.mem_append.mp hx with hx | hx
        · exact hrun x hx
        · rw [List.mem_singleton.mp hx]
          exact ht
      have h := ih pre (run ++ [t]) hrun'
      simpa [chainsFrom, ht, List.append_assoc, Nat.add_assoc] using h
    | false =>
      have h := ih (pre ++ run ++ [t]) [] (by simp)
      have hlen : pre.length + run.length + 1 - pre.length = (run ++ [t]).length := by
        rw [List.length_append, List.length_singleton]
        omega
      have hslice : Chain.slice ⟨pre.length, pre.length + run.length, false⟩
          (pre ++ run ++ t :: rest) = run ++ [t] := by
        simp only [Chain.slice, hlen]
        rw [List.append_assoc, List.drop_left, List.append_cons run t rest, List.take_left]
      rw [segments_closed linked hrun ht]
      simp only [List.map_cons, ht, chainsFrom, hslice]
      refine congrArg _ ?_
      simpa [List.append_assoc, Nat.add_assoc] using h

theorem chainSegments_eq (batch : List α) : chainSegments linked batch = segments linked batch := by
  simpa [chainSegments, chains] using chainsFrom_slices linked [] [] batch (by simp)

/-- Where a chain lies: the batch splits into what comes before, the chain's own
items and what comes after, and the split is one between segments. -/
structure ChainSplit (batch : List α) (c : Chain) (before items after : List α) : Prop where
  batch : batch = before ++ items ++ after
  start : before.length = c.start
  length : items.length = c.last + 1 - c.start
  boundary : ∀ t ∈ before.getLast?, linked t = false
  nonempty : items ≠ []
  closed : c.isOpen = false → ∀ t ∈ items.getLast?, linked t = false
  alone : segments linked items = [⟨items, c.isOpen⟩]
  segment : segments linked (items ++ after) = ⟨items, c.isOpen⟩ :: segments linked after

theorem exists_chainSplit_from (pre run rest : List α) {c : Chain}
    (hpre : ∀ t ∈ pre.getLast?, linked t = false) (hrun : ∀ t ∈ run, linked t = true)
    (hc : c ∈ chainsFrom pre.length (pre.length + run.length) (rest.map linked)) :
    ∃ before items after, ChainSplit linked (pre ++ run ++ rest) c before items after := by
  induction rest generalizing pre run with
  | nil =>
    cases run with
    | nil => simp [chainsFrom] at hc
    | cons u run =>
      have hopen := segments_open linked (List.cons_ne_nil u run) hrun
      simp only [List.map_nil, chainsFrom] at hc
      rw [if_pos (by simp)] at hc
      have hc := List.mem_singleton.mp hc
      subst hc
      refine ⟨pre, u :: run, [], rfl, rfl, ?_, hpre, List.cons_ne_nil u run, ?_, hopen, ?_⟩
      · simp only [List.length_cons]
        omega
      · intro h
        simp at h
      · simpa using hopen
  | cons t rest ih =>
    cases ht : linked t with
    | true =>
      have hrun' : ∀ x ∈ run ++ [t], linked x = true := by
        intro x hx
        rcases List.mem_append.mp hx with hx | hx
        · exact hrun x hx
        · rw [List.mem_singleton.mp hx]
          exact ht
      have h := ih pre (run ++ [t]) hpre hrun' (by simpa [chainsFrom, ht, Nat.add_assoc] using hc)
      simpa [List.append_assoc] using h
    | false =>
      simp only [List.map_cons, ht, chainsFrom] at hc
      rcases List.mem_cons.mp hc with hc | hc
      · subst hc
        have hclosed := segments_closed linked hrun ht rest
        refine ⟨pre, run ++ [t], rest, by simp, rfl, ?_, hpre, by simp, ?_,
          segments_closed linked hrun ht [], by simpa using hclosed⟩
        · simp only [List.length_append, List.length_singleton]
          omega
        · intro _ x hx
          have hx : x = t := by simpa [eq_comm] using hx
          rw [hx]
          exact ht
      · have hpre' : ∀ x ∈ (pre ++ run ++ [t]).getLast?, linked x = false := by
          intro x hx
          have hx : x = t := by simpa [eq_comm] using hx
          rw [hx]
          exact ht
        have h := ih (pre ++ run ++ [t]) [] hpre' (by simp) (by simpa [Nat.add_assoc] using hc)
        simpa [List.append_assoc] using h

theorem exists_chainSplit {batch : List α} {c : Chain} (hc : c ∈ chains (batch.map linked)) :
    ∃ before items after, ChainSplit linked batch c before items after := by
  have h := exists_chainSplit_from linked [] [] batch (by simp) (by simp)
    (by simpa [chains] using hc)
  simpa using h

variable {linked}

theorem ChainSplit.start_le {batch : List α} {c : Chain} {before items after : List α}
    (h : ChainSplit linked batch c before items after) : c.start ≤ c.last := by
  have hpos := List.length_pos_iff.mpr h.nonempty
  have hlen := h.length
  omega

theorem Chain.cut {β : Type} {c : Chain} (hle : c.start ≤ c.last) {l₁ l₂ : List β}
    (h₁ : l₁.length = c.start) (h₂ : l₂.length = c.last + 1 - c.start) (l₃ : List β) :
    c.slice (l₁ ++ l₂ ++ l₃) = l₂ ∧ (l₁ ++ l₂ ++ l₃).take c.start = l₁ ∧
      (l₁ ++ l₂ ++ l₃).take (c.last + 1) = l₁ ++ l₂ ∧
      (l₁ ++ l₂ ++ l₃).drop (c.last + 1) = l₃ := by
  have hlen : c.last + 1 = (l₁ ++ l₂).length := by
    rw [List.length_append]
    omega
  refine ⟨?_, ?_, ?_, ?_⟩
  · rw [Chain.slice, List.append_assoc, ← h₁, List.drop_left, h₁, ← h₂, List.take_left]
  · rw [List.append_assoc, ← h₁, List.take_left]
  · rw [hlen, List.take_left]
  · rw [hlen, List.drop_left]

theorem ChainSplit.cut {batch : List α} {c : Chain} {before items after : List α}
    (h : ChainSplit linked batch c before items after) :
    c.slice batch = items ∧ batch.take c.start = before ∧
      batch.take (c.last + 1) = before ++ items ∧ batch.drop (c.last + 1) = after := by
  rw [h.batch]
  exact Chain.cut h.start_le h.start h.length after

/-- The batch up to a chain and the batch through it begin as the batch does. -/
theorem ChainSplit.head_mem {batch : List α} {c : Chain} {before items after : List α}
    (h : ChainSplit linked batch c before items after) :
    (∀ t ∈ before.head?, t ∈ batch.head?) ∧ ∀ t ∈ (before ++ items).head?, t ∈ batch.head? := by
  rw [h.batch]
  constructor
  · intro t ht
    rw [List.append_assoc, List.head?_append]
    simp [Option.mem_def.mp ht]
  · intro t ht
    rw [List.head?_append]
    simp [Option.mem_def.mp ht]

theorem ChainSplit.segments {batch : List α} {c : Chain} {before items after : List α}
    (h : ChainSplit linked batch c before items after) :
    BlueDB.segments linked batch =
      BlueDB.segments linked before ++ ⟨items, c.isOpen⟩ :: BlueDB.segments linked after := by
  rw [h.batch, List.append_assoc, segments_append linked h.boundary, h.segment]

theorem Chain.mem_of_mem_slice {β : Type} {c : Chain} {l : List α} {l' : List β} {p : α × β}
    (h : p ∈ (c.slice l).zip (c.slice l')) : p ∈ l.zip l' := by
  have hslice : (c.slice l).zip (c.slice l') = c.slice (l.zip l') := by
    simp [Chain.slice, List.zip, List.take_zipWith, List.drop_zipWith]
  rw [hslice] at h
  exact List.mem_of_mem_drop (List.mem_of_mem_take h)

variable {ε ρ σ : Type} {ops : BatchOps ε ρ α σ} {batch : List α} {c : Chain}
  {before items after : List α}

/-- A run from `w₀` has handled what comes before the chain when the chain fails at
`pos` with `r`: it is open, or this is its first member that is not settled. -/
def ChainFailure (ops : BatchOps ε ρ α σ) (linked : α → Bool) (batch : List α) (c : Chain)
    (w₀ : σ) (pos : ℕ) (r : ρ) : Prop :=
  ∃ codes w, ops.runSegments (chainSegments linked (batch.take c.start)) w₀ = .ok (codes, w) ∧
    ops.Failure ⟨c.slice batch, c.isOpen⟩ w pos r

theorem ChainFailure.pos_lt {w₀ : σ} {pos : ℕ} {r : ρ}
    (h : ChainFailure ops linked batch c w₀ pos r) : pos < (c.slice batch).length := by
  obtain ⟨_, _, -, hf⟩ := h
  exact hf.pos_lt

theorem ChainFailure.unsettled (hopen : ops.settled ops.chainOpen = false) {w₀ : σ} {pos : ℕ}
    {r : ρ} (h : ChainFailure ops linked batch c w₀ pos r) : ops.settled r = false := by
  obtain ⟨_, _, -, hf⟩ := h
  exact hf.unsettled ops hopen

theorem ChainSplit.codes (h : ChainSplit linked batch c before items after) {w w' : σ}
    {codes : List ρ} (hrun : ops.runSegments (chainSegments linked batch) w = .ok (codes, w')) :
    (∀ r ∈ c.slice codes, ops.settled r = true) ∨
    ∃ pos r, ChainFailure ops linked batch c w pos r ∧
      c.slice codes = (List.replicate (c.slice batch).length ops.linkedFailed).set pos r := by
  rw [chainSegments_eq, h.segments] at hrun
  obtain ⟨codes₁, w₁, codes₂, w₂, codes₃, hrun₁, hseg, -, rfl, hlen₁, hlen₂⟩ :=
    ops.runSegments_around h.nonempty hrun
  have hslice : c.slice (codes₁ ++ codes₂ ++ codes₃) = codes₂ :=
    (Chain.cut h.start_le (hlen₁.trans h.start) (hlen₂.trans h.length) codes₃).1
  obtain ⟨hitems, hbefore, -, -⟩ := h.cut
  rw [hslice]
  rcases ops.runSegment_cases h.nonempty hseg with ⟨-, hm⟩ | ⟨-, pos, r, hfailure, hcodes⟩
  · exact Or.inl (ops.runMembers_settled_length hm).2
  · refine Or.inr ⟨pos, r, ⟨codes₁, w₁, ?_, ?_⟩, ?_⟩
    · rw [hbefore, chainSegments_eq]
      exact hrun₁
    · rw [hitems]
      exact hfailure
    · rw [hitems]
      exact hcodes

theorem ChainSplit.run_of_failed (h : ChainSplit linked batch c before items after)
    (hx : ops.Exact) (hopen : ops.chainOpen ≠ ops.linkedFailed)
    (hown : ∀ {w t r w'}, ops.process w t = .ok (r, w') → r ≠ ops.linkedFailed) {w w' : σ}
    {codes : List ρ} (hrun : ops.runSegments (BlueDB.segments linked batch) w = .ok (codes, w'))
    {pos : ℕ}
    (hpos : pos < (c.slice batch).length) {r : ρ} (hr : ops.settled r = false)
    (hcodes : c.slice codes =
      (List.replicate (c.slice batch).length ops.linkedFailed).set pos r) :
    r ≠ ops.linkedFailed ∧ ∃ w₁,
      ops.runSegments (BlueDB.segments linked before) w = .ok (codes.take c.start, w₁) ∧
      ops.runSegments (BlueDB.segments linked (before ++ items)) w =
        .ok (codes.take (c.last + 1), ops.finish w₁ (items.zip (c.slice codes))) ∧
      ops.runSegments (BlueDB.segments linked after) (ops.finish w₁ (items.zip (c.slice codes))) =
        .ok (codes.drop (c.last + 1), w') := by
  rw [h.segments] at hrun
  obtain ⟨codes₁, w₁, codes₂, w₂, codes₃, hrun₁, hseg, hrun₃, rfl, hlen₁, hlen₂⟩ :=
    ops.runSegments_around h.nonempty hrun
  obtain ⟨hslice, htake, hthrough, hdrop⟩ :=
    Chain.cut h.start_le (hlen₁.trans h.start) (hlen₂.trans h.length) codes₃
  rw [h.cut.1] at hpos hcodes
  rw [hslice] at hcodes ⊢
  obtain ⟨rfl, hlinked⟩ :=
    hx.undone_of_codes hopen hown h.nonempty hseg hpos hcodes hr
  refine ⟨hlinked, w₂, ?_, ?_, ?_⟩
  · rw [htake]
    exact hrun₁
  · rw [hthrough, segments_append linked h.boundary, h.alone]
    refine ops.runSegments_append_eq_ok.mpr ⟨codes₁, w₂, codes₂, hrun₁, ?_, rfl⟩
    exact ops.runSegments_cons_eq_ok.mpr ⟨codes₂, w₂, [], hseg, rfl, by simp⟩
  · rw [hdrop]
    exact hrun₃

end

end BlueDB.Ledger
