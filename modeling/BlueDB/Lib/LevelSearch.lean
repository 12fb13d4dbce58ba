import Mathlib.Tactic

/-!
# Search by levels

The nodes found in a round are the frontier of the next one. Whatever the order in which a
round gives what it has found, and however often it gives it, a search over finitely many
nodes ends with those that are reachable from the first ones.
-/

namespace BlueDB.LevelSearch

variable {N ε : Type*} [DecidableEq N] {R : N → N → Prop}

/-- What is found joins the visited nodes; the new ones among it are the next frontier. -/
def absorb (acc : Finset N × List N) (found : List N) : Finset N × List N :=
  found.foldl (fun acc v =>
    if v ∈ acc.1 then acc else (insert v acc.1, acc.2 ++ [v])) acc

/-- The rounds from `level` on, until nothing is left to expand. -/
def search (expand : ℕ → List N → Except ε (List N)) :
    ℕ → ℕ → Finset N × List N → Option (Except ε (Finset N))
  | 0, _, _ => none
  | fuel + 1, level, (visited, frontier) =>
    if frontier.isEmpty then some (.ok visited)
    else match expand level frontier with
      | .error e => some (.error e)
      | .ok found => search expand fuel (level + 1) (absorb (visited, []) found)

section Absorb

variable {acc : Finset N × List N} {found : List N} {v : N}

theorem mem_absorb_visited : v ∈ (absorb acc found).1 ↔ v ∈ acc.1 ∨ v ∈ found := by
  unfold absorb
  induction found generalizing acc with
  | nil => simp
  | cons w found ih =>
    rw [List.foldl_cons, ih, List.mem_cons]
    split_ifs with hw
    · constructor
      · rintro (h | h)
        · exact Or.inl h
        · exact Or.inr (Or.inr h)
      · rintro (h | rfl | h)
        · exact Or.inl h
        · exact Or.inl hw
        · exact Or.inr h
    · rw [Finset.mem_insert]
      tauto

theorem mem_absorb_next :
    v ∈ (absorb acc found).2 ↔ v ∈ acc.2 ∨ v ∈ found ∧ v ∉ acc.1 := by
  unfold absorb
  induction found generalizing acc with
  | nil => simp
  | cons w found ih =>
    rw [List.foldl_cons, ih, List.mem_cons]
    split_ifs with hw
    · constructor
      · rintro (h | ⟨h, hv⟩)
        · exact Or.inl h
        · exact Or.inr ⟨Or.inr h, hv⟩
      · rintro (h | ⟨rfl | h, hv⟩)
        · exact Or.inl h
        · exact absurd hw hv
        · exact Or.inr ⟨h, hv⟩
    · rw [List.mem_append, List.mem_singleton, Finset.mem_insert]
      by_cases hvw : v = w
      · subst hvw
        simp [hw]
      · simp [hvw]

end Absorb

/-- The visited nodes are reachable, and what they lead to is visited, except from the
frontier. -/
structure Searching (R : N → N → Prop) (seeds : List N) (acc : Finset N × List N) : Prop where
  seeded : ∀ v ∈ seeds, v ∈ acc.1
  sound : ∀ v ∈ acc.1, ∃ seed ∈ seeds, Relation.ReflTransGen R seed v
  frontier : ∀ v ∈ acc.2, v ∈ acc.1
  expanded : ∀ u ∈ acc.1, u ∉ acc.2 → ∀ v, R u v → v ∈ acc.1

variable {seeds : List N} {acc : Finset N × List N}

theorem Searching.start (R : N → N → Prop) (seeds : List N) :
    Searching R seeds (absorb (∅, []) seeds) where
  seeded v hv := mem_absorb_visited.mpr (Or.inr hv)
  sound v hv := by
    rcases mem_absorb_visited.mp hv with h | h
    · exact absurd h (Finset.notMem_empty v)
    · exact ⟨v, h, .refl⟩
  frontier v hv := by
    rcases mem_absorb_next.mp hv with h | h
    · exact absurd h List.not_mem_nil
    · exact mem_absorb_visited.mpr (Or.inr h.1)
  expanded u hu hfrontier := by
    refine absurd (mem_absorb_next.mpr (Or.inr ⟨?_, Finset.notMem_empty u⟩)) hfrontier
    exact (mem_absorb_visited.mp hu).resolve_left (Finset.notMem_empty u)

theorem Searching.round (h : Searching R seeds acc) {found : List N}
    (hfound : ∀ v, v ∈ found ↔ ∃ u ∈ acc.2, R u v) :
    Searching R seeds (absorb (acc.1, []) found) where
  seeded v hv := mem_absorb_visited.mpr (Or.inl (h.seeded v hv))
  sound v hv := by
    rcases mem_absorb_visited.mp hv with hv | hv
    · exact h.sound v hv
    · obtain ⟨u, hu, huv⟩ := (hfound v).mp hv
      obtain ⟨seed, hseed, hreach⟩ := h.sound u (h.frontier u hu)
      exact ⟨seed, hseed, hreach.tail huv⟩
  frontier v hv := by
    rcases mem_absorb_next.mp hv with hv | hv
    · exact absurd hv List.not_mem_nil
    · exact mem_absorb_visited.mpr (Or.inr hv.1)
  expanded u hu hfrontier v huv := by
    rcases mem_absorb_visited.mp hu with hold | hnew
    · apply mem_absorb_visited.mpr
      by_cases hfirst : u ∈ acc.2
      · exact Or.inr ((hfound v).mpr ⟨u, hfirst, huv⟩)
      · exact Or.inl (h.expanded u hold hfirst v huv)
    · by_cases hold : u ∈ acc.1
      · apply mem_absorb_visited.mpr
        by_cases hfirst : u ∈ acc.2
        · exact Or.inr ((hfound v).mpr ⟨u, hfirst, huv⟩)
        · exact Or.inl (h.expanded u hold hfirst v huv)
      · have hin : u ∈ (absorb (acc.1, []) found).2 := mem_absorb_next.mpr (Or.inr ⟨hnew, hold⟩)
        exact absurd hin hfrontier

omit [DecidableEq N] in
/-- Without a frontier, the visited nodes are all that are reachable. -/
theorem Searching.finish {visited : Finset N} (h : Searching R seeds (visited, [])) (v : N) :
    v ∈ visited ↔ ∃ seed ∈ seeds, Relation.ReflTransGen R seed v := by
  constructor
  · exact h.sound v
  · rintro ⟨seed, hseed, hreach⟩
    induction hreach with
    | refl => exact h.seeded seed hseed
    | tail _ huv ih => exact h.expanded _ ih List.not_mem_nil _ huv

/-- A search whose rounds find what the frontier leads to, among finitely many nodes, ends
with the nodes that are reachable. -/
theorem Searching.search {expand : ℕ → List N → Except ε (List N)} {nodes : Finset N}
    (hexpand : ∀ level frontier, ∃ found, expand level frontier = .ok found ∧
      ∀ v, v ∈ found ↔ ∃ u ∈ frontier, R u v)
    (hclosed : ∀ u v, R u v → v ∈ nodes) {fuel : ℕ} (level : ℕ)
    (h : Searching R seeds acc) (hsub : acc.1 ⊆ nodes)
    (hfuel : (nodes \ acc.1).card + (if acc.2.isEmpty then 1 else 2) ≤ fuel) :
    ∃ visited, LevelSearch.search expand fuel level acc = some (.ok visited) ∧
      ∀ v, v ∈ visited ↔ ∃ seed ∈ seeds, Relation.ReflTransGen R seed v := by
  induction fuel generalizing level acc with
  | zero =>
    split_ifs at hfuel
    · omega
    · omega
  | succ fuel ih =>
    obtain ⟨visited, frontier⟩ := acc
    unfold LevelSearch.search
    cases frontier with
    | nil => exact ⟨visited, rfl, h.finish⟩
    | cons w rest =>
      obtain ⟨found, hrun, hfound⟩ := hexpand level (w :: rest)
      rw [if_neg (by simp), hrun]
      have hnext := h.round hfound
      have hsub' : (absorb (visited, []) found).1 ⊆ nodes := by
        intro v hv
        rcases mem_absorb_visited.mp hv with hv | hv
        · exact hsub hv
        · obtain ⟨u, -, huv⟩ := (hfound v).mp hv
          exact hclosed u v huv
      apply ih (level + 1) hnext hsub'
      have hgrow : nodes \ (absorb (visited, []) found).1 ⊆ nodes \ visited :=
        Finset.sdiff_subset_sdiff (Finset.Subset.refl _)
          fun v hv => mem_absorb_visited.mpr (Or.inl hv)
      have hcard := Finset.card_le_card hgrow
      dsimp only [List.isEmpty_cons] at hfuel ⊢
      split_ifs with hempty
      · simp only [Bool.false_eq_true, if_false] at hfuel
        omega
      · -- a new node is visited
        obtain ⟨v, hv⟩ := List.exists_mem_of_ne_nil _ (fun heq => hempty (List.isEmpty_iff.mpr heq))
        obtain ⟨hmem, hnew⟩ := (mem_absorb_next.mp hv).resolve_left List.not_mem_nil
        have hvisited : v ∈ (absorb (visited, []) found).1 := mem_absorb_visited.mpr (Or.inr hmem)
        have hlt : (nodes \ (absorb (visited, []) found).1).card < (nodes \ visited).card := by
          apply Finset.card_lt_card
          refine Finset.ssubset_iff_subset_ne.mpr ⟨hgrow, fun heq => ?_⟩
          have hin : v ∈ nodes \ visited := Finset.mem_sdiff.mpr ⟨hsub' hvisited, hnew⟩
          rw [← heq] at hin
          exact (Finset.mem_sdiff.mp hin).2 hvisited
        simp only [Bool.false_eq_true, if_false] at hfuel
        omega

end BlueDB.LevelSearch
