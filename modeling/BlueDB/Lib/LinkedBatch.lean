import Mathlib.Tactic

/-!
# Batches of linked events

A batch is cut into segments: a maximal run of linked items together with the
unlinked item that ends it, or an open run that the batch leaves unfinished. A
segment is applied as a whole or rolled back. The driver is generic in the item
handler, so that two handlers related by a simulation give related batches.
-/

universe u

namespace BlueDB

/-- Two fallible results agree: both fail alike, or both succeed with related values. -/
def Agree {ε α β : Type*} (S : α → β → Prop) : Except ε α → Except ε β → Prop
  | .ok a, .ok b => S a b
  | .error e, .error e' => e = e'
  | _, _ => False

section Agree

variable {ε : Type*} {α β γ δ : Type u} {S : α → β → Prop} {T : γ → δ → Prop}

theorem Agree.bind {x : Except ε α} {y : Except ε β} {f : α → Except ε γ} {g : β → Except ε δ}
    (h : Agree S x y) (hf : ∀ a b, S a b → Agree T (f a) (g b)) : Agree T (x >>= f) (y >>= g) := by
  cases x with
  | error e =>
    cases y with
    | error e' => exact h
    | ok b => exact h.elim
  | ok a =>
    cases y with
    | error e' => exact h.elim
    | ok b => exact hf a b h

theorem Agree.ok_left {x : Except ε α} {y : Except ε β} {a : α} (h : Agree S x y)
    (hx : x = .ok a) : ∃ b, y = .ok b ∧ S a b := by
  subst hx
  cases y with
  | error e => exact h.elim
  | ok b => exact ⟨b, rfl, h⟩

theorem Agree.ok_right {x : Except ε α} {y : Except ε β} {b : β} (h : Agree S x y)
    (hy : y = .ok b) : ∃ a, x = .ok a ∧ S a b := by
  subst hy
  cases x with
  | error e => exact h.elim
  | ok a => exact ⟨a, rfl, h⟩

theorem Agree.mono {S' : α → β → Prop} {x : Except ε α} {y : Except ε β} (h : Agree S x y)
    (hS : ∀ a b, S a b → S' a b) : Agree S' x y := by
  cases x with
  | error e =>
    cases y with
    | error e' => exact h
    | ok b => exact h.elim
  | ok a =>
    cases y with
    | error e' => exact h.elim
    | ok b => exact hS a b h

theorem bind_eq_ok {x : Except ε α} {f : α → Except ε γ} {c : γ} :
    x >>= f = .ok c ↔ ∃ a, x = .ok a ∧ f a = .ok c := by
  cases x with
  | error e => simp [bind, Except.bind]
  | ok a => simp [bind, Except.bind]

theorem map_eq_error {x : Except ε α} {f : α → β} {e : ε} :
    x.map f = .error e ↔ x = .error e := by
  cases x <;> simp [Except.map]

theorem map_eq_ok {x : Except ε α} {f : α → β} {b : β} :
    x.map f = .ok b ↔ ∃ a, x = .ok a ∧ f a = b := by
  cases x <;> simp [Except.map]

end Agree

/-- One all-or-nothing run of items; `isOpen` when the batch ends before its terminator. -/
structure Segment (ι : Type*) where
  items : List ι
  isOpen : Bool

section Segments

variable {ι : Type*} (linked : ι → Bool)

/-- Cut a batch into segments. A linked item joins the segment that follows it. -/
def segments : List ι → List (Segment ι)
  | [] => []
  | t :: rest =>
    if linked t then
      match segments rest with
      | [] => [⟨[t], true⟩]
      | seg :: segs => ⟨t :: seg.items, seg.isOpen⟩ :: segs
    else ⟨[t], false⟩ :: segments rest

@[simp] theorem segments_nil : segments linked [] = [] := rfl

theorem segments_cons (t : ι) (rest : List ι) :
    segments linked (t :: rest) =
      if linked t then
        match segments linked rest with
        | [] => [⟨[t], true⟩]
        | seg :: segs => ⟨t :: seg.items, seg.isOpen⟩ :: segs
      else ⟨[t], false⟩ :: segments linked rest := rfl

theorem segments_unlinked {t : ι} (h : linked t = false) (rest : List ι) :
    segments linked (t :: rest) = ⟨[t], false⟩ :: segments linked rest := by
  simp [segments_cons, h]

theorem segments_ne_nil {l : List ι} (h : l ≠ []) : segments linked l ≠ [] := by
  cases l with
  | nil => exact absurd rfl h
  | cons t rest =>
    rw [segments_cons]
    split_ifs
    · split <;> simp
    · simp

theorem segments_items_ne_nil {l : List ι} {seg : Segment ι} (h : seg ∈ segments linked l) :
    seg.items ≠ [] := by
  induction l generalizing seg with
  | nil => simp at h
  | cons t rest ih =>
    rw [segments_cons] at h
    split_ifs at h with hl
    · split at h
      · rw [List.mem_singleton.mp h]
        simp
      · rename_i first segs heq
        rcases List.mem_cons.mp h with rfl | h
        · simp
        · exact ih (by rw [heq]; exact List.mem_cons_of_mem _ h)
    · rcases List.mem_cons.mp h with rfl | h
      · simp
      · exact ih h

@[simp] theorem flatMap_segments (l : List ι) :
    (segments linked l).flatMap Segment.items = l := by
  induction l with
  | nil => rfl
  | cons t rest ih =>
    rw [segments_cons]
    split_ifs
    · split
      · rename_i heq
        rw [heq] at ih
        simpa using ih
      · rename_i seg segs heq
        rw [heq] at ih
        simpa using ih
    · simpa using ih

theorem segments_open {run : List ι} (hne : run ≠ []) (hrun : ∀ t ∈ run, linked t = true) :
    segments linked run = [⟨run, true⟩] := by
  induction run with
  | nil => exact absurd rfl hne
  | cons t rest ih =>
    have ht : linked t = true := hrun t (by simp)
    cases rest with
    | nil => simp [segments_cons, ht]
    | cons u rest =>
      have ih := ih (by simp) (fun x hx => hrun x (by simp [hx]))
      rw [segments_cons, if_pos ht, ih]

theorem segments_closed {run : List ι} (hrun : ∀ t ∈ run, linked t = true) {t : ι}
    (ht : linked t = false) (rest : List ι) :
    segments linked (run ++ t :: rest) = ⟨run ++ [t], false⟩ :: segments linked rest := by
  induction run with
  | nil => exact segments_unlinked linked ht rest
  | cons u run ih =>
    have hu : linked u = true := hrun u (by simp)
    have ih := ih (fun x hx => hrun x (by simp [hx]))
    rw [List.cons_append, segments_cons, if_pos hu, ih]
    rfl

/-- A cut after an unlinked item is a cut between two segments. -/
theorem segments_append {l₁ : List ι} (h : ∀ t ∈ l₁.getLast?, linked t = false) (l₂ : List ι) :
    segments linked (l₁ ++ l₂) = segments linked l₁ ++ segments linked l₂ := by
  induction l₁ with
  | nil => rfl
  | cons t rest ih =>
    cases rest with
    | nil =>
      have ht : linked t = false := h t (by simp)
      simp [segments_cons, ht]
    | cons u rest =>
      have ih := ih (fun x hx => h x (by simpa using hx))
      rw [List.cons_append, segments_cons, segments_cons, ih]
      cases hs : segments linked (u :: rest) with
      | nil => exact absurd hs (segments_ne_nil linked (by simp))
      | cons seg segs => split_ifs <;> simp

theorem segments_isOpen {l : List ι} (h : ∀ t ∈ l.getLast?, linked t = false) :
    ∀ seg ∈ segments linked l, seg.isOpen = false := by
  induction l with
  | nil => simp
  | cons t rest ih =>
    cases rest with
    | nil =>
      have ht : linked t = false := h t (by simp)
      simp [segments_cons, ht]
    | cons u rest =>
      have ih := ih (fun x hx => h x (by simpa using hx))
      rw [segments_cons]
      cases hs : segments linked (u :: rest) with
      | nil => exact absurd hs (segments_ne_nil linked (by simp))
      | cons seg segs =>
        rw [hs] at ih
        split_ifs
        · simpa using ih
        · simpa using ih

end Segments

/-- What a driver needs from its item handler. `rollback current snapshot` undoes
the effects since the snapshot; `finish` runs after every segment on the final
codes of its items. -/
structure BatchOps (ε ρ ι σ : Type) where
  process : σ → ι → Except ε (ρ × σ)
  rollback : σ → σ → σ
  finish : σ → List (ι × ρ) → σ
  settled : ρ → Bool
  linkedFailed : ρ
  chainOpen : ρ

namespace BatchOps

variable {ε ρ ι σ : Type} (ops : BatchOps ε ρ ι σ)

/-- Apply the members of a segment in order, stopping at the first one that is
not settled; its position is the offender. -/
def runMembers : List ι → σ → Except ε (List ρ × Option ℕ × σ)
  | [], w => .ok ([], none, w)
  | t :: rest, w => do
    let (r, w) ← ops.process w t
    if ops.settled r then
      let (codes, offender, w) ← runMembers rest w
      .ok (r :: codes, offender.map (· + 1), w)
    else .ok ([r], some 0, w)

/-- The codes of a segment of `n` items that is rolled back. -/
def failureCodes (n : ℕ) (isOpen : Bool) (offender : Option ℕ) (codes : List ρ) : List ρ :=
  (List.range n).map fun pos =>
    if isOpen then if pos + 1 = n then ops.chainOpen else ops.linkedFailed
    else if some pos = offender then codes.getD pos ops.linkedFailed
    else ops.linkedFailed

/-- The tentative application of a segment; an open one is not applied at all. -/
def runTentative (seg : Segment ι) (w : σ) : Except ε (List ρ × Option ℕ × σ) :=
  if seg.isOpen then .ok ([], none, w) else ops.runMembers seg.items w

/-- A segment of more than one item, or an open one: applied tentatively and
rolled back when it is open or a member fails. -/
def runLinked (seg : Segment ι) (w : σ) : Except ε (List ρ × σ) := do
  let (codes, offender, w') ← ops.runTentative seg w
  if seg.isOpen || offender.isSome then
    .ok (ops.failureCodes seg.items.length seg.isOpen offender codes, ops.rollback w' w)
  else .ok (codes, w')

/-- One segment. A closed segment of one item needs no snapshot. -/
def runSegment (seg : Segment ι) (w : σ) : Except ε (List ρ × σ) :=
  match seg.items, seg.isOpen with
  | [t], false => do
    let (r, w) ← ops.process w t
    .ok ([r], w)
  | _, _ => ops.runLinked seg w

def runSegments : List (Segment ι) → σ → Except ε (List ρ × σ)
  | [], w => .ok ([], w)
  | seg :: rest, w => do
    let (codes, w) ← ops.runSegment seg w
    let (codes', w) ← runSegments rest (ops.finish w (seg.items.zip codes))
    .ok (codes ++ codes', w)

theorem runMembers_cases {items : List ι} {w w' : σ} {codes : List ρ} {offender : Option ℕ}
    (h : ops.runMembers items w = .ok (codes, offender, w')) :
    (offender = none ∧ codes.length = items.length ∧ ∀ r ∈ codes, ops.settled r = true) ∨
    ∃ before t r w₁, offender = some before.length ∧ items[before.length]? = some t ∧
      codes = before ++ [r] ∧ (∀ c ∈ before, ops.settled c = true) ∧
      ops.runMembers (items.take before.length) w = .ok (before, none, w₁) ∧
      ops.process w₁ t = .ok (r, w') ∧ ops.settled r = false := by
  induction items generalizing w codes offender with
  | nil =>
    simp only [runMembers, Except.ok.injEq, Prod.mk.injEq] at h
    obtain ⟨rfl, rfl, rfl⟩ := h
    simp
  | cons t rest ih =>
    rw [runMembers, bind_eq_ok] at h
    obtain ⟨⟨r, w₂⟩, hp, h⟩ := h
    dsimp only at h
    by_cases hr : ops.settled r = true
    · rw [if_pos hr, bind_eq_ok] at h
      obtain ⟨⟨codes', offender', w₃⟩, hm, h⟩ := h
      simp only [Except.ok.injEq, Prod.mk.injEq] at h
      obtain ⟨rfl, rfl, rfl⟩ := h
      rcases ih hm with ⟨rfl, hlen, hall⟩ | ⟨before, u, c, w₁, rfl, hu, rfl, hall, hm', hc, hs⟩
      · refine Or.inl ⟨rfl, by simp [hlen], ?_⟩
        intro c hc
        rcases List.mem_cons.mp hc with rfl | hc
        · exact hr
        · exact hall c hc
      · refine Or.inr ⟨r :: before, u, c, w₁, rfl, by simpa using hu, rfl, ?_, ?_, hc, hs⟩
        · intro c hc
          rcases List.mem_cons.mp hc with rfl | hc
          · exact hr
          · exact hall c hc
        · simp [runMembers, hp, hr, hm', bind, Except.bind]
    · rw [if_neg hr] at h
      simp only [Except.ok.injEq, Prod.mk.injEq] at h
      obtain ⟨rfl, rfl, rfl⟩ := h
      exact Or.inr ⟨[], t, r, w, rfl, rfl, rfl, by simp, rfl, hp, by simpa using hr⟩

theorem runMembers_settled_length {items : List ι} {w w' : σ} {codes : List ρ}
    (h : ops.runMembers items w = .ok (codes, none, w')) :
    codes.length = items.length ∧ ∀ r ∈ codes, ops.settled r = true := by
  rcases ops.runMembers_cases h with ⟨_, hlen, hall⟩ | ⟨_, _, _, _, hn, _⟩
  · exact ⟨hlen, hall⟩
  · exact absurd hn (by simp)

theorem failureCodes_open {n : ℕ} (hn : 0 < n) (offender : Option ℕ) (codes : List ρ) :
    ops.failureCodes n true offender codes =
      (List.replicate n ops.linkedFailed).set (n - 1) ops.chainOpen := by
  apply List.ext_getElem
  · simp [failureCodes]
  · intro i hi hi'
    simp only [failureCodes, List.length_map, List.length_range] at hi
    simp only [failureCodes, List.getElem_map, List.getElem_range, if_true, List.getElem_set,
      List.getElem_replicate]
    by_cases h : i + 1 = n
    · rw [if_pos h, if_pos (by omega)]
    · rw [if_neg h, if_neg (by omega)]

theorem failureCodes_offender {n : ℕ} (before : List ρ) (r : ρ) :
    ops.failureCodes n false (some before.length) (before ++ [r]) =
      (List.replicate n ops.linkedFailed).set before.length r := by
  apply List.ext_getElem
  · simp [failureCodes]
  · intro i hi hi'
    simp only [failureCodes, List.getElem_map, List.getElem_range, Bool.false_eq_true, if_false,
      Option.some.injEq, List.getElem_set, List.getElem_replicate]
    by_cases h : i = before.length
    · subst h
      simp
    · rw [if_neg h, if_neg (Ne.symm h)]

/-- How a segment of which nothing was kept came to fail: it is open, or the
member at `pos` is the first that is not settled. -/
def Failure (seg : Segment ι) (w : σ) (pos : ℕ) (r : ρ) : Prop :=
  (seg.isOpen = true ∧ pos + 1 = seg.items.length ∧ r = ops.chainOpen) ∨
  (seg.isOpen = false ∧ ∃ before t w₁ w₂, before.length = pos ∧ seg.items[pos]? = some t ∧
    ops.runMembers (seg.items.take pos) w = .ok (before, none, w₁) ∧
    ops.process w₁ t = .ok (r, w₂) ∧ ops.settled r = false)

theorem Failure.pos_lt {seg : Segment ι} {w : σ} {pos : ℕ} {r : ρ}
    (h : ops.Failure seg w pos r) : pos < seg.items.length := by
  rcases h with ⟨-, hpos, -⟩ | ⟨-, before, t, w₁, w₂, -, ht, -⟩
  · omega
  · exact (List.getElem?_eq_some_iff.mp ht).1

theorem Failure.unsettled (hopen : ops.settled ops.chainOpen = false) {seg : Segment ι} {w : σ}
    {pos : ℕ} {r : ρ} (h : ops.Failure seg w pos r) : ops.settled r = false := by
  rcases h with ⟨-, -, rfl⟩ | ⟨-, _, _, _, _, -, -, -, -, hr⟩
  · exact hopen
  · exact hr

/-- The state after a segment of which nothing is kept: the snapshot was brought
back, or the only item was not settled. -/
def Undone (w w' : σ) : Prop :=
  (∃ w₁, w' = ops.rollback w₁ w) ∨
    ∃ t r, ops.process w t = .ok (r, w') ∧ ops.settled r = false

/-- All or nothing: a segment is settled throughout, or it is undone and exactly
one member carries a code of its own. -/
theorem runSegment_cases {seg : Segment ι} (hne : seg.items ≠ []) {w w' : σ} {codes : List ρ}
    (h : ops.runSegment seg w = .ok (codes, w')) :
    (seg.isOpen = false ∧ ops.runMembers seg.items w = .ok (codes, none, w')) ∨
    (ops.Undone w w' ∧ ∃ pos r, ops.Failure seg w pos r ∧
      codes = (List.replicate seg.items.length ops.linkedFailed).set pos r) := by
  obtain ⟨items, isOpen⟩ := seg
  have hpos : 0 < items.length := List.length_pos_iff.mpr hne
  unfold runSegment at h
  dsimp only at h ⊢
  split at h
  · rename_i t
    rw [bind_eq_ok] at h
    obtain ⟨⟨r, w₁⟩, hp, h⟩ := h
    simp only [Except.ok.injEq, Prod.mk.injEq] at h
    obtain ⟨rfl, rfl⟩ := h
    cases hr : ops.settled r with
    | true => exact Or.inl ⟨rfl, by simp [runMembers, hp, hr, bind, Except.bind]⟩
    | false =>
      refine Or.inr ⟨Or.inr ⟨t, r, hp, hr⟩, 0, r, ?_, rfl⟩
      exact Or.inr ⟨rfl, [], t, w, w₁, rfl, rfl, rfl, hp, hr⟩
  · rw [runLinked, bind_eq_ok] at h
    obtain ⟨⟨codes', offender, w₁⟩, hm, h⟩ := h
    dsimp only [runTentative] at hm h
    cases isOpen with
    | true =>
      simp only [if_true, Bool.true_or, Except.ok.injEq, Prod.mk.injEq] at hm h
      obtain ⟨rfl, rfl, rfl⟩ := hm
      obtain ⟨rfl, rfl⟩ := h
      refine Or.inr ⟨Or.inl ⟨_, rfl⟩, items.length - 1, ops.chainOpen, ?_, ?_⟩
      · exact Or.inl ⟨rfl, Nat.sub_add_cancel hpos, rfl⟩
      · exact ops.failureCodes_open hpos none []
    | false =>
      simp only [Bool.false_eq_true, if_false, Bool.false_or] at hm h
      rcases ops.runMembers_cases hm with
        ⟨rfl, hlen, hall⟩ | ⟨before, t, r, w₂, rfl, ht, rfl, hall, hm', hp, hr⟩
      · simp only [Option.isSome_none, Bool.false_eq_true, if_false, Except.ok.injEq,
          Prod.mk.injEq] at h
        obtain ⟨rfl, rfl⟩ := h
        exact Or.inl ⟨rfl, hm⟩
      · simp only [Option.isSome_some, if_true, Except.ok.injEq, Prod.mk.injEq] at h
        obtain ⟨rfl, rfl⟩ := h
        refine Or.inr ⟨Or.inl ⟨_, rfl⟩, before.length, r, ?_,
          ops.failureCodes_offender before r⟩
        exact Or.inr ⟨rfl, before, t, w₂, w₁, rfl, ht, hm', hp, hr⟩

/-- A driver whose handler leaves the state alone unless it settles an item, and
whose rollback returns the snapshot itself. -/
structure Exact : Prop where
  inert : ∀ {w t r w'}, ops.process w t = .ok (r, w') → ops.settled r = false → w' = w
  rollback : ∀ current snapshot, ops.rollback current snapshot = snapshot

theorem Exact.runSegment_cases {ops : BatchOps ε ρ ι σ} (hx : ops.Exact) {seg : Segment ι}
    (hne : seg.items ≠ []) {w w' : σ} {codes : List ρ}
    (h : ops.runSegment seg w = .ok (codes, w')) :
    (seg.isOpen = false ∧ ops.runMembers seg.items w = .ok (codes, none, w')) ∨
    (w' = w ∧ ∃ pos r, ops.Failure seg w pos r ∧
      codes = (List.replicate seg.items.length ops.linkedFailed).set pos r) := by
  rcases ops.runSegment_cases hne h with hsettled | ⟨hundone, hfailed⟩
  · exact Or.inl hsettled
  · refine Or.inr ⟨?_, hfailed⟩
    rcases hundone with ⟨w₁, rfl⟩ | ⟨t, r, hp, hr⟩
    · exact hx.rollback w₁ w
    · exact hx.inert hp hr

/-- The codes of a segment tell that nothing of it was kept, and which of them is
not the code of a failed segment. -/
theorem Exact.undone_of_codes {ops : BatchOps ε ρ ι σ} (hx : ops.Exact)
    (hopen : ops.chainOpen ≠ ops.linkedFailed)
    (hown : ∀ {w t r w'}, ops.process w t = .ok (r, w') → r ≠ ops.linkedFailed)
    {seg : Segment ι} (hne : seg.items ≠ []) {w w' : σ} {codes : List ρ}
    (h : ops.runSegment seg w = .ok (codes, w')) {pos : ℕ} (hpos : pos < seg.items.length) {r : ρ}
    (hcodes : codes = (List.replicate seg.items.length ops.linkedFailed).set pos r)
    (hr : ops.settled r = false) : w' = w ∧ r ≠ ops.linkedFailed := by
  rcases hx.runSegment_cases hne h with ⟨-, hm⟩ | ⟨hundone, pos', r', hf, hcodes'⟩
  · have hmem : r ∈ codes := by
      rw [hcodes]
      exact List.mem_set (by simpa using hpos) r
    have hsettled := (ops.runMembers_settled_length hm).2 r hmem
    rw [hr] at hsettled
    exact absurd hsettled (by simp)
  · refine ⟨hundone, ?_⟩
    intro heq
    -- then every code would be that of a failed segment, the offender's included
    have hmem : r' ∈ codes := by
      rw [hcodes']
      exact List.mem_set (by simpa using hf.pos_lt) r'
    have hr' : r' = ops.linkedFailed := by
      rw [hcodes, heq] at hmem
      rcases List.mem_or_eq_of_mem_set hmem with hmem | hmem
      · exact List.eq_of_mem_replicate hmem
      · exact hmem
    rcases hf with ⟨-, -, hr''⟩ | ⟨-, _, _, _, _, -, -, -, hproc, -⟩
    · exact hopen (hr''.symm.trans hr')
    · exact hown hproc hr'

theorem runSegment_length {seg : Segment ι} (hne : seg.items ≠ []) {w w' : σ} {codes : List ρ}
    (h : ops.runSegment seg w = .ok (codes, w')) : codes.length = seg.items.length := by
  rcases ops.runSegment_cases hne h with ⟨-, hm⟩ | ⟨-, pos, r, -, rfl⟩
  · exact (ops.runMembers_settled_length hm).1
  · simp

theorem runSegments_append (segs segs' : List (Segment ι)) (w : σ) :
    ops.runSegments (segs ++ segs') w =
      (ops.runSegments segs w >>= fun p =>
        ops.runSegments segs' p.2 >>= fun q => .ok (p.1 ++ q.1, q.2)) := by
  induction segs generalizing w with
  | nil => cases h : ops.runSegments segs' w <;> simp [runSegments, h, bind, Except.bind]
  | cons seg segs ih =>
    simp only [List.cons_append, runSegments, ih]
    cases ops.runSegment seg w with
    | error e => rfl
    | ok p =>
      simp only [bind, Except.bind]
      cases ops.runSegments segs (ops.finish p.2 (seg.items.zip p.1)) with
      | error e => rfl
      | ok q =>
        dsimp only
        cases ops.runSegments segs' q.2 with
        | error e => rfl
        | ok q' => simp [List.append_assoc]

theorem runSegments_append_eq_ok {segs segs' : List (Segment ι)} {w w' : σ} {codes : List ρ} :
    ops.runSegments (segs ++ segs') w = .ok (codes, w') ↔ ∃ codes₁ w₁ codes₂,
      ops.runSegments segs w = .ok (codes₁, w₁) ∧ ops.runSegments segs' w₁ = .ok (codes₂, w') ∧
      codes = codes₁ ++ codes₂ := by
  rw [runSegments_append, bind_eq_ok]
  constructor
  · rintro ⟨⟨codes₁, w₁⟩, h₁, h⟩
    dsimp only at h
    rw [bind_eq_ok] at h
    obtain ⟨⟨codes₂, w₂⟩, h₂, h⟩ := h
    simp only [Except.ok.injEq, Prod.mk.injEq] at h
    obtain ⟨rfl, rfl⟩ := h
    exact ⟨codes₁, w₁, codes₂, h₁, h₂, rfl⟩
  · rintro ⟨codes₁, w₁, codes₂, h₁, h₂, rfl⟩
    exact ⟨(codes₁, w₁), h₁, by simp [h₂, bind, Except.bind]⟩

theorem runSegments_cons_eq_ok {seg : Segment ι} {segs : List (Segment ι)} {w w' : σ}
    {codes : List ρ} :
    ops.runSegments (seg :: segs) w = .ok (codes, w') ↔ ∃ codes₁ w₁ codes₂,
      ops.runSegment seg w = .ok (codes₁, w₁) ∧
      ops.runSegments segs (ops.finish w₁ (seg.items.zip codes₁)) = .ok (codes₂, w') ∧
      codes = codes₁ ++ codes₂ := by
  rw [runSegments, bind_eq_ok]
  constructor
  · rintro ⟨⟨codes₁, w₁⟩, h₁, h⟩
    dsimp only at h
    rw [bind_eq_ok] at h
    obtain ⟨⟨codes₂, w₂⟩, h₂, h⟩ := h
    simp only [Except.ok.injEq, Prod.mk.injEq] at h
    obtain ⟨rfl, rfl⟩ := h
    exact ⟨codes₁, w₁, codes₂, h₁, h₂, rfl⟩
  · rintro ⟨codes₁, w₁, codes₂, h₁, h₂, rfl⟩
    exact ⟨(codes₁, w₁), h₁, by simp [h₂, bind, Except.bind]⟩

/-- A relation between the states before and after a batch and the codes given in
between holds of every batch when it holds of every segment and composes. -/
theorem runSegments_trace {T : σ → List (ι × ρ) → σ → Prop} (refl : ∀ w, T w [] w)
    (trans : ∀ {w₁ w₂ w₃ ps qs}, T w₁ ps w₂ → T w₂ qs w₃ → T w₁ (ps ++ qs) w₃)
    (segment : ∀ {seg w codes w'}, seg.items ≠ [] → ops.runSegment seg w = .ok (codes, w') →
      T w (seg.items.zip codes) (ops.finish w' (seg.items.zip codes)))
    {segs : List (Segment ι)} (hne : ∀ seg ∈ segs, seg.items ≠ []) {w w' : σ} {codes : List ρ}
    (h : ops.runSegments segs w = .ok (codes, w')) :
    codes.length = (segs.flatMap Segment.items).length ∧
      T w ((segs.flatMap Segment.items).zip codes) w' := by
  induction segs generalizing w codes with
  | nil =>
    simp only [runSegments, Except.ok.injEq, Prod.mk.injEq] at h
    obtain ⟨rfl, rfl⟩ := h
    exact ⟨rfl, refl w⟩
  | cons seg segs ih =>
    obtain ⟨codes₁, w₁, codes₂, hseg, hrest, rfl⟩ := ops.runSegments_cons_eq_ok.mp h
    have hitems := hne seg (by simp)
    have hlen := ops.runSegment_length hitems hseg
    obtain ⟨hlen', ht⟩ := ih (fun s hs => hne s (by simp [hs])) hrest
    refine ⟨by simp [hlen, hlen'], ?_⟩
    rw [List.flatMap_cons, List.zip_append hlen.symm]
    exact trans (segment hitems hseg) ht

theorem runSegments_length {segs : List (Segment ι)} (hne : ∀ seg ∈ segs, seg.items ≠ [])
    {w w' : σ} {codes : List ρ} (h : ops.runSegments segs w = .ok (codes, w')) :
    codes.length = (segs.flatMap Segment.items).length :=
  (ops.runSegments_trace (T := fun _ _ _ => True) (fun _ => trivial) (fun _ _ => trivial)
    (fun _ _ => trivial) hne h).1

/-- The rule for traces: `S` describes a segment before it is finished, from the
items it settled or from codes that settle nothing; `T` describes a batch. -/
theorem Exact.runSegments_rule {ops : BatchOps ε ρ ι σ} (hx : ops.Exact)
    (hlinked : ops.settled ops.linkedFailed = false) (hopen : ops.settled ops.chainOpen = false)
    {S T : σ → List (ι × ρ) → σ → Prop} (refl : ∀ w, T w [] w)
    (trans : ∀ {w₁ w₂ w₃ ps qs}, T w₁ ps w₂ → T w₂ qs w₃ → T w₁ (ps ++ qs) w₃)
    (nil : ∀ w, S w [] w)
    (item : ∀ {w t r w₁ ps w'}, ops.process w t = .ok (r, w₁) → ops.settled r = true →
      S w₁ ps w' → S w ((t, r) :: ps) w')
    (failed : ∀ {w ps}, (∀ p ∈ ps, ops.settled p.2 = false) → S w ps w)
    (finish : ∀ {w ps w'}, S w ps w' → T w ps (ops.finish w' ps))
    {segs : List (Segment ι)} (hne : ∀ seg ∈ segs, seg.items ≠ []) {w w' : σ} {codes : List ρ}
    (h : ops.runSegments segs w = .ok (codes, w')) :
    T w ((segs.flatMap Segment.items).zip codes) w' := by
  have hmembers : ∀ (items : List ι) (w : σ) (codes : List ρ) (w' : σ),
      ops.runMembers items w = .ok (codes, none, w') → S w (items.zip codes) w' := by
    intro items
    induction items with
    | nil =>
      intro w codes w' hm
      simp only [runMembers, Except.ok.injEq, Prod.mk.injEq] at hm
      obtain ⟨rfl, -, rfl⟩ := hm
      exact nil w
    | cons t rest ih =>
      intro w codes w' hm
      rw [runMembers, bind_eq_ok] at hm
      obtain ⟨⟨r, w₁⟩, hp, hm⟩ := hm
      dsimp only at hm
      by_cases hr : ops.settled r = true
      · rw [if_pos hr, bind_eq_ok] at hm
        obtain ⟨⟨codes', offender, w₂⟩, hrest, hm⟩ := hm
        simp only [Except.ok.injEq, Prod.mk.injEq, Option.map_eq_none_iff] at hm
        obtain ⟨rfl, rfl, rfl⟩ := hm
        exact item hp hr (ih w₁ codes' w₂ hrest)
      · rw [if_neg hr] at hm
        simp at hm
  refine (ops.runSegments_trace refl trans ?_ hne h).2
  intro seg w codes w' hitems hseg
  apply finish
  rcases hx.runSegment_cases hitems hseg with ⟨-, hm⟩ | ⟨rfl, pos, r, hf, rfl⟩
  · exact hmembers _ _ _ _ hm
  · apply failed
    intro p hp
    rcases List.mem_or_eq_of_mem_set (List.of_mem_zip hp).2 with hc | hc
    · rw [List.eq_of_mem_replicate hc]
      exact hlinked
    · rw [hc]
      exact hf.unsettled ops hopen

theorem runSegments_around {linked : ι → Bool} {before items after : List ι} {isOpen : Bool}
    (hne : items ≠ []) {w w' : σ} {codes : List ρ}
    (h : ops.runSegments (segments linked before ++ ⟨items, isOpen⟩ :: segments linked after) w =
      .ok (codes, w')) :
    ∃ codes₁ w₁ codes₂ w₂ codes₃,
      ops.runSegments (segments linked before) w = .ok (codes₁, w₁) ∧
      ops.runSegment ⟨items, isOpen⟩ w₁ = .ok (codes₂, w₂) ∧
      ops.runSegments (segments linked after) (ops.finish w₂ (items.zip codes₂)) =
        .ok (codes₃, w') ∧
      codes = codes₁ ++ codes₂ ++ codes₃ ∧ codes₁.length = before.length ∧
      codes₂.length = items.length := by
  obtain ⟨codes₁, w₁, rest, h₁, hrest, rfl⟩ := ops.runSegments_append_eq_ok.mp h
  obtain ⟨codes₂, w₂, codes₃, h₂, h₃, rfl⟩ := ops.runSegments_cons_eq_ok.mp hrest
  have hlen := ops.runSegments_length (fun seg hseg => segments_items_ne_nil linked hseg) h₁
  rw [flatMap_segments] at hlen
  exact ⟨codes₁, w₁, codes₂, w₂, codes₃, h₁, h₂, h₃, (List.append_assoc ..).symm, hlen,
    ops.runSegment_length hne h₂⟩

/-- The code an item can be given in a state that satisfies `P`: one that keeps
the item, one of the two codes of a rolled-back segment, or the handler's own
answer in a state reached from this one. -/
def Answer (P : σ → Prop) (Ext : σ → σ → Prop) (w : σ) (t : ι) (r : ρ) : Prop :=
  ops.settled r = true ∨ r = ops.linkedFailed ∨ r = ops.chainOpen ∨
    ∃ w₁ w₂, P w₁ ∧ Ext w w₁ ∧ ops.process w₁ t = .ok (r, w₂)

/-- Handlers keep `P` and only extend the state. -/
structure Keeps (P : σ → Prop) (Ext : σ → σ → Prop) : Prop where
  refl : ∀ w, Ext w w
  process : ∀ {w t}, P w → ∃ r w', ops.process w t = .ok (r, w') ∧ P w' ∧
    ∀ w₀, Ext w₀ w → Ext w₀ w'

section Keeps

variable {ops} {P : σ → Prop} {Ext : σ → σ → Prop}

theorem Keeps.runMembers (hk : ops.Keeps P Ext) (items : List ι) {w : σ} (hw : P w) :
    ∃ codes offender w', ops.runMembers items w = .ok (codes, offender, w') ∧ P w' ∧
      ∀ w₀, Ext w₀ w → Ext w₀ w' := by
  induction items generalizing w with
  | nil => exact ⟨[], none, w, rfl, hw, fun _ h => h⟩
  | cons t rest ih =>
    obtain ⟨r, w₁, hp, hw₁, he₁⟩ := hk.process (t := t) hw
    by_cases hr : ops.settled r = true
    · obtain ⟨codes, offender, w₂, hm, hw₂, he₂⟩ := ih hw₁
      refine ⟨r :: codes, offender.map (· + 1), w₂, ?_, hw₂, fun w₀ h => he₂ w₀ (he₁ w₀ h)⟩
      simp [BatchOps.runMembers, hp, hr, hm, bind, Except.bind]
    · exact ⟨[r], some 0, w₁, by simp [BatchOps.runMembers, hp, hr, bind, Except.bind], hw₁, he₁⟩

theorem Keeps.runSegment (hk : ops.Keeps P Ext) (hx : ops.Exact) (seg : Segment ι)
    (hne : seg.items ≠ []) {w : σ} (hw : P w) :
    ∃ codes w', ops.runSegment seg w = .ok (codes, w') ∧ P w' ∧
      ∀ p ∈ seg.items.zip codes, ops.Answer P Ext w' p.1 p.2 := by
  have hok : ∃ codes w', ops.runSegment seg w = .ok (codes, w') := by
    obtain ⟨items, isOpen⟩ := seg
    unfold BatchOps.runSegment
    dsimp only
    split
    · rename_i t
      obtain ⟨r, w₁, hp, -⟩ := hk.process (t := t) hw
      exact ⟨[r], w₁, by simp [hp, bind, Except.bind]⟩
    · cases isOpen with
      | true => exact ⟨_, _, rfl⟩
      | false =>
        obtain ⟨codes, offender, w₁, hm, -⟩ := hk.runMembers items hw
        cases offender with
        | none => exact ⟨codes, w₁, by simp [runLinked, runTentative, hm, bind, Except.bind]⟩
        | some k =>
          refine ⟨ops.failureCodes items.length false (some k) codes, ops.rollback w₁ w, ?_⟩
          simp [runLinked, runTentative, hm, bind, Except.bind]
  obtain ⟨codes, w', h⟩ := hok
  refine ⟨codes, w', h, ?_⟩
  rcases hx.runSegment_cases hne h with ⟨-, hm⟩ | ⟨rfl, pos, r, hf, rfl⟩
  · obtain ⟨_, _, _, hm', hw', -⟩ := hk.runMembers seg.items hw
    rw [hm] at hm'
    simp only [Except.ok.injEq, Prod.mk.injEq] at hm'
    obtain ⟨rfl, rfl, rfl⟩ := hm'
    refine ⟨hw', ?_⟩
    rintro ⟨t, r⟩ hp
    exact Or.inl ((ops.runMembers_settled_length hm).2 r (List.of_mem_zip hp).2)
  · refine ⟨hw, ?_⟩
    rintro ⟨t, c⟩ hp
    obtain ⟨i, hi, hget⟩ := List.getElem_of_mem hp
    simp only [List.getElem_zip, Prod.mk.injEq, List.getElem_set, List.getElem_replicate] at hget
    obtain ⟨ht, hc⟩ := hget
    split_ifs at hc with hpos
    · subst hpos
      rcases hf with ⟨-, -, rfl⟩ | ⟨-, before, u, w₁, w₂, -, hu, hm, hproc, -⟩
      · exact Or.inr (Or.inr (Or.inl hc.symm))
      · obtain ⟨_, _, _, hm', hw₁, he⟩ := hk.runMembers (seg.items.take pos) hw
        rw [hm] at hm'
        simp only [Except.ok.injEq, Prod.mk.injEq] at hm'
        obtain ⟨-, -, rfl⟩ := hm'
        have hut : u = t := by
          rw [List.getElem?_eq_some_iff] at hu
          exact hu.2.symm.trans ht
        subst hut hc
        exact Or.inr (Or.inr (Or.inr ⟨w₁, w₂, hw₁, he _ (hk.refl _), hproc⟩))
    · exact Or.inr (Or.inl hc.symm)

/-- The invariant rule: a batch never fails and keeps `P` when the handler does
and `finish` does on the codes that were given. -/
theorem Keeps.runSegments (hk : ops.Keeps P Ext) (hx : ops.Exact)
    (finish : ∀ {w ps}, P w → (∀ p ∈ ps, ops.Answer P Ext w p.1 p.2) → P (ops.finish w ps))
    {segs : List (Segment ι)} (hne : ∀ seg ∈ segs, seg.items ≠ []) {w : σ} (hw : P w) :
    ∃ codes w', ops.runSegments segs w = .ok (codes, w') ∧ P w' ∧
      ∀ p ∈ (segs.flatMap Segment.items).zip codes, ∃ w₁, P w₁ ∧ ops.Answer P Ext w₁ p.1 p.2 := by
  induction segs generalizing w with
  | nil => exact ⟨[], w, rfl, hw, by simp⟩
  | cons seg segs ih =>
    have hitems := hne seg (by simp)
    obtain ⟨codes, w₁, hseg, hw₁, ha⟩ := hk.runSegment hx seg hitems hw
    obtain ⟨codes', w₂, hrest, hw₂, ha'⟩ := ih (fun s hs => hne s (by simp [hs])) (finish hw₁ ha)
    refine ⟨codes ++ codes', w₂, ?_, hw₂, ?_⟩
    · simp [BatchOps.runSegments, hseg, hrest, bind, Except.bind]
    · intro p hp
      rw [List.flatMap_cons, List.zip_append (ops.runSegment_length hitems hseg).symm,
        List.mem_append] at hp
      rcases hp with hp | hp
      · exact ⟨w₁, hw₁, ha p hp⟩
      · exact ha' p hp

/-! Two handlers that agree wherever `P` holds run every batch alike. -/

section Congr

variable {process' : σ → ι → Except ε (ρ × σ)}

theorem Keeps.runMembers_congr (hk : ops.Keeps P Ext)
    (hp : ∀ w t, P w → process' w t = ops.process w t) (items : List ι) {w : σ} (hw : P w) :
    { ops with process := process' }.runMembers items w = ops.runMembers items w := by
  induction items generalizing w with
  | nil => rfl
  | cons t rest ih =>
    obtain ⟨r, w₁, hproc, hw₁, -⟩ := hk.process (t := t) hw
    have hproc' : process' w t = .ok (r, w₁) := (hp w t hw).trans hproc
    rw [BatchOps.runMembers, BatchOps.runMembers]
    simp only [hproc, hproc', bind, Except.bind]
    by_cases hr : ops.settled r = true
    · rw [if_pos hr, if_pos hr, ih hw₁]
    · rw [if_neg hr, if_neg hr]

theorem Keeps.runSegment_congr (hk : ops.Keeps P Ext)
    (hp : ∀ w t, P w → process' w t = ops.process w t) (seg : Segment ι) {w : σ} (hw : P w) :
    { ops with process := process' }.runSegment seg w = ops.runSegment seg w := by
  obtain ⟨items, isOpen⟩ := seg
  unfold BatchOps.runSegment
  dsimp only
  split
  · rename_i t
    rw [hp w t hw]
  · unfold runLinked runTentative
    dsimp only
    rw [hk.runMembers_congr hp items hw]
    rfl

theorem Keeps.runSegments_congr (hk : ops.Keeps P Ext) (hx : ops.Exact)
    (finish : ∀ {w ps}, P w → (∀ p ∈ ps, ops.Answer P Ext w p.1 p.2) → P (ops.finish w ps))
    (hp : ∀ w t, P w → process' w t = ops.process w t) {segs : List (Segment ι)}
    (hne : ∀ seg ∈ segs, seg.items ≠ []) {w : σ} (hw : P w) :
    { ops with process := process' }.runSegments segs w = ops.runSegments segs w := by
  induction segs generalizing w with
  | nil => rfl
  | cons seg segs ih =>
    obtain ⟨codes, w₁, hseg, hw₁, ha⟩ := hk.runSegment hx seg (hne seg (by simp)) hw
    have hrest := ih (fun s hs => hne s (by simp [hs])) (finish hw₁ ha)
    rw [BatchOps.runSegments, BatchOps.runSegments, hk.runSegment_congr hp seg hw, hseg]
    simp only [bind, Except.bind]
    rw [hrest]

end Congr

end Keeps

theorem runMembers_stationary {e : ρ} (he : ops.settled e = true) {items : List ι} {w : σ}
    (h : ∀ t ∈ items, ops.process w t = .ok (e, w)) :
    ops.runMembers items w = .ok (List.replicate items.length e, none, w) := by
  induction items with
  | nil => rfl
  | cons t rest ih =>
    have ih := ih (fun u hu => h u (by simp [hu]))
    simp [runMembers, h t (by simp), he, ih, bind, Except.bind, List.replicate_succ]

theorem runSegment_stationary {e : ρ} (he : ops.settled e = true) {seg : Segment ι}
    (hclosed : seg.isOpen = false) {w : σ} (h : ∀ t ∈ seg.items, ops.process w t = .ok (e, w)) :
    ops.runSegment seg w = .ok (List.replicate seg.items.length e, w) := by
  have hm := ops.runMembers_stationary he h
  obtain ⟨items, isOpen⟩ := seg
  dsimp only at hclosed h hm
  subst hclosed
  unfold runSegment
  dsimp only
  split
  · rename_i t _
    simp [h t (by simp), bind, Except.bind]
  · simp [runLinked, runTentative, hm, bind, Except.bind]

/-- Settled items that change nothing pass through a batch without a trace. -/
theorem runSegments_stationary {e : ρ} (he : ops.settled e = true) {w : σ}
    (hfinish : ∀ ps : List (ι × ρ), (∀ p ∈ ps, p.2 = e) → ops.finish w ps = w)
    {segs : List (Segment ι)} (hclosed : ∀ seg ∈ segs, seg.isOpen = false)
    (h : ∀ t ∈ segs.flatMap Segment.items, ops.process w t = .ok (e, w)) :
    ops.runSegments segs w =
      .ok (List.replicate (segs.flatMap Segment.items).length e, w) := by
  induction segs with
  | nil => rfl
  | cons seg segs ih =>
    have hseg := ops.runSegment_stationary he (hclosed seg (by simp))
      (fun t ht => h t (by simp [ht]))
    have ih := ih (fun s hs => hclosed s (by simp [hs])) (fun t ht => h t ?_)
    · have hend : ops.finish w (seg.items.zip (List.replicate seg.items.length e)) = w := by
        apply hfinish
        intro p hp
        exact List.eq_of_mem_replicate (List.of_mem_zip hp).2
      simp only [runSegments, hseg, hend, ih, bind, Except.bind, List.flatMap_cons,
        List.length_append, List.replicate_add]
    · rw [List.flatMap_cons]
      exact List.mem_append_right _ ht

/-- Chains of such items can be inserted between any two segments. -/
theorem runSegments_insert {e : ρ} (he : ops.settled e = true)
    (hfinish : ∀ w (ps : List (ι × ρ)), (∀ p ∈ ps, p.2 = e) → ops.finish w ps = w)
    {linked : ι → Bool} {before items after : List ι}
    (hbefore : ∀ t ∈ before.getLast?, linked t = false)
    (hitems : ∀ t ∈ items.getLast?, linked t = false)
    (h : ∀ t ∈ items, ∀ w, ops.process w t = .ok (e, w)) {w w' : σ} {codes : List ρ}
    (hrun : ops.runSegments (segments linked (before ++ after)) w = .ok (codes, w')) :
    ∃ codes₁ codes₂, codes = codes₁ ++ codes₂ ∧ codes₁.length = before.length ∧
      codes₂.length = after.length ∧
      ops.runSegments (segments linked (before ++ items ++ after)) w =
        .ok (codes₁ ++ List.replicate items.length e ++ codes₂, w') := by
  rw [segments_append linked hbefore] at hrun
  obtain ⟨codes₁, w₁, codes₂, hrun₁, hrun₂, rfl⟩ := ops.runSegments_append_eq_ok.mp hrun
  have hne : ∀ (l : List ι), ∀ seg ∈ segments linked l, seg.items ≠ [] :=
    fun _ _ hseg => segments_items_ne_nil linked hseg
  have hlen₁ := ops.runSegments_length (hne before) hrun₁
  have hlen₂ := ops.runSegments_length (hne after) hrun₂
  have hmid := ops.runSegments_stationary he (hfinish w₁) (segments_isOpen linked hitems)
    (fun t ht => h t (by simpa using ht) w₁)
  rw [flatMap_segments] at hlen₁ hlen₂ hmid
  refine ⟨codes₁, codes₂, rfl, hlen₁, hlen₂, ?_⟩
  rw [List.append_assoc, segments_append linked hbefore, segments_append linked hitems]
  refine ops.runSegments_append_eq_ok.mpr ⟨codes₁, w₁, _, hrun₁, ?_, List.append_assoc ..⟩
  exact ops.runSegments_append_eq_ok.mpr ⟨_, w₁, codes₂, hmid, hrun₂, rfl⟩

/-- `R` relates the states of two drivers over the same items: handling an item,
rolling back and finishing a segment all keep it. `Ext` records that a state was
reached from a snapshot of the first driver; only items in `ok` are compared. -/
structure Simulates {τ : Type} (ops : BatchOps ε ρ ι σ) (ops' : BatchOps ε ρ ι τ)
    (R : σ → τ → Prop) (Ext : σ → σ → Prop) (ok : ι → Prop) : Prop where
  settled : ∀ r, ops'.settled r = ops.settled r
  linkedFailed : ops'.linkedFailed = ops.linkedFailed
  chainOpen : ops'.chainOpen = ops.chainOpen
  refl : ∀ w, Ext w w
  extend : ∀ {w₀ w t r w'}, Ext w₀ w → ops.process w t = .ok (r, w') → Ext w₀ w'
  process : ∀ {w v t}, ok t → R w v →
    Agree (fun p q => p.1 = q.1 ∧ R p.2 q.2) (ops.process w t) (ops'.process v t)
  rollback : ∀ {snap snap' w v}, R snap snap' → R w v → Ext snap w →
    R (ops.rollback w snap) (ops'.rollback v snap')
  finish : ∀ {w v ps}, R w v → R (ops.finish w ps) (ops'.finish v ps)

section Simulates

variable {τ : Type} {ops} {ops' : BatchOps ε ρ ι τ} {R : σ → τ → Prop} {Ext : σ → σ → Prop}
  {ok : ι → Prop}

theorem Simulates.runMembers (hs : Simulates ops ops' R Ext ok) {items : List ι}
    (hok : ∀ t ∈ items, ok t) {w : σ} {v : τ} (h : R w v) {w₀ : σ} (he : Ext w₀ w) :
    Agree (fun p q => p.1 = q.1 ∧ p.2.1 = q.2.1 ∧ R p.2.2 q.2.2 ∧ Ext w₀ p.2.2)
      (ops.runMembers items w) (ops'.runMembers items v) := by
  induction items generalizing w v with
  | nil => exact ⟨rfl, rfl, h, he⟩
  | cons t rest ih =>
    unfold BatchOps.runMembers
    have hp := hs.process (hok t (by simp)) h
    cases hw : ops.process w t with
    | error e =>
      cases hv : ops'.process v t with
      | error e' => simpa [hw, hv, Agree, bind, Except.bind] using hp
      | ok q => simp [hw, hv, Agree] at hp
    | ok p =>
      obtain ⟨⟨r', v'⟩, hv, hr, hR⟩ := hp.ok_left hw
      obtain ⟨r, w'⟩ := p
      dsimp only at hr hR
      subst hr
      have he' := hs.extend he hw
      simp only [hv, bind, Except.bind, hs.settled]
      split_ifs with hset
      · refine Agree.bind (ih (fun t ht => hok t (by simp [ht])) hR he') ?_
        rintro ⟨codes, offender, w₂⟩ ⟨codes', offender', v₂⟩ ⟨rfl, rfl, hR₂, he₂⟩
        exact ⟨rfl, rfl, hR₂, he₂⟩
      · exact ⟨rfl, rfl, hR, he'⟩

theorem Simulates.runSegment (hs : Simulates ops ops' R Ext ok) {seg : Segment ι}
    (hok : ∀ t ∈ seg.items, ok t) {w : σ} {v : τ} (h : R w v) :
    Agree (fun p q => p.1 = q.1 ∧ R p.2 q.2) (ops.runSegment seg w) (ops'.runSegment seg v) := by
  obtain ⟨items, isOpen⟩ := seg
  unfold BatchOps.runSegment
  dsimp only
  split
  · rename_i t
    refine Agree.bind (hs.process (hok t (by simp)) h) ?_
    rintro ⟨r, w'⟩ ⟨r', v'⟩ ⟨rfl, hR⟩
    exact ⟨rfl, hR⟩
  · unfold runLinked
    have ht : Agree (fun p q => p.1 = q.1 ∧ p.2.1 = q.2.1 ∧ R p.2.2 q.2.2 ∧ Ext w p.2.2)
        (ops.runTentative ⟨items, isOpen⟩ w) (ops'.runTentative ⟨items, isOpen⟩ v) := by
      unfold runTentative
      split_ifs
      · exact ⟨rfl, rfl, h, hs.refl w⟩
      · exact hs.runMembers hok h (hs.refl w)
    refine Agree.bind ht ?_
    rintro ⟨codes, offender, w'⟩ ⟨codes', offender', v'⟩ ⟨rfl, rfl, hR, he⟩
    dsimp only at hR he ⊢
    split_ifs
    · refine ⟨?_, hs.rollback h hR he⟩
      simp [failureCodes, hs.linkedFailed, hs.chainOpen]
    · exact ⟨rfl, hR⟩

theorem Simulates.runSegments (hs : Simulates ops ops' R Ext ok) {segs : List (Segment ι)}
    (hok : ∀ t ∈ segs.flatMap Segment.items, ok t) {w : σ} {v : τ} (h : R w v) :
    Agree (fun p q => p.1 = q.1 ∧ R p.2 q.2)
      (ops.runSegments segs w) (ops'.runSegments segs v) := by
  induction segs generalizing w v with
  | nil => exact ⟨rfl, h⟩
  | cons seg segs ih =>
    unfold BatchOps.runSegments
    refine Agree.bind (hs.runSegment (fun t ht => hok t (by simp [ht])) h) ?_
    rintro ⟨codes, w'⟩ ⟨codes', v'⟩ ⟨rfl, hR⟩
    refine Agree.bind (ih (fun t ht => hok t ?_) (hs.finish hR)) ?_
    · rw [List.flatMap_cons]
      exact List.mem_append_right _ ht
    · rintro ⟨codes₂, w₂⟩ ⟨codes₂', v₂⟩ ⟨rfl, hR₂⟩
      exact ⟨rfl, hR₂⟩

end Simulates

/-- The members a run hands to the handler, each with the state it finds. -/
def membersHandled : List ι → σ → List (ι × σ)
  | [], _ => []
  | t :: rest, w => (t, w) :: match ops.process w t with
    | .ok (r, w') => if ops.settled r then membersHandled rest w' else []
    | .error _ => []

def segmentHandled (seg : Segment ι) (w : σ) : List (ι × σ) :=
  if seg.isOpen then [] else ops.membersHandled seg.items w

/-- The items of a batch that are handed to the handler, each with the state it finds. -/
def handled : List (Segment ι) → σ → List (ι × σ)
  | [], _ => []
  | seg :: rest, w => ops.segmentHandled seg w ++ match ops.runSegment seg w with
    | .ok (codes, w') => handled rest (ops.finish w' (seg.items.zip codes))
    | .error _ => []

section Handled

variable {τ : Type} {ops} {ops' : BatchOps ε ρ ι τ} {R : σ → τ → Prop} {Ext : σ → σ → Prop}
  {P : τ → Prop} {Ext' : τ → τ → Prop}

theorem Simulates.membersHandled (hs : Simulates ops ops' R Ext fun _ => True)
    (hk : ops'.Keeps P Ext') {items : List ι} {w : σ} {v : τ} (hR : R w v) (hP : P v) :
    ∀ p ∈ ops.membersHandled items w, ∃ v', R p.2 v' ∧ P v' := by
  induction items generalizing w v with
  | nil => simp [BatchOps.membersHandled]
  | cons t rest ih =>
    intro p hp
    rw [BatchOps.membersHandled, List.mem_cons] at hp
    rcases hp with rfl | hp
    · exact ⟨v, hR, hP⟩
    obtain ⟨r, v', hv, hP', -⟩ := hk.process (t := t) hP
    obtain ⟨⟨r', w'⟩, hw, -, hR'⟩ := (hs.process trivial hR).ok_right hv
    rw [hw] at hp
    dsimp only at hp
    split_ifs at hp
    · exact ih hR' hP' p hp
    · exact absurd hp List.not_mem_nil

/-- What the second driver keeps holds, through the simulation, in every state in
which the first one handles an item. -/
theorem Simulates.handled (hs : Simulates ops ops' R Ext fun _ => True) (hk : ops'.Keeps P Ext')
    (hx : ops'.Exact)
    (finish : ∀ {v ps}, P v → (∀ p ∈ ps, ops'.Answer P Ext' v p.1 p.2) → P (ops'.finish v ps))
    {segs : List (Segment ι)} (hne : ∀ seg ∈ segs, seg.items ≠ []) {w : σ} {v : τ} (hR : R w v)
    (hP : P v) : ∀ p ∈ ops.handled segs w, ∃ v', R p.2 v' ∧ P v' := by
  induction segs generalizing w v with
  | nil => simp [BatchOps.handled]
  | cons seg segs ih =>
    intro p hp
    rw [BatchOps.handled, List.mem_append] at hp
    rcases hp with hp | hp
    · rw [segmentHandled] at hp
      split_ifs at hp
      · exact absurd hp List.not_mem_nil
      · exact hs.membersHandled hk hR hP p hp
    · obtain ⟨codes, v', hv, hP', ha⟩ := hk.runSegment hx seg (hne seg (by simp)) hP
      obtain ⟨⟨codes', w'⟩, hw, hcodes, hR'⟩ := (hs.runSegment (fun _ _ => trivial) hR).ok_right hv
      rw [hw] at hp
      dsimp only at hcodes hR' hp
      subst hcodes
      exact ih (fun s h => hne s (by simp [h])) (hs.finish hR') (finish hP' ha) p hp

end Handled

end BatchOps
end BlueDB
