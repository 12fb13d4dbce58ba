import Mathlib.Tactic

/-!
# Stable sorting by a key

A stable sort keeps the elements of one key as they were, and so two lists are sorted to the
same one exactly when, for each key, they have the same elements in the same order.
-/

namespace BlueDB

variable {α κ : Type*} [LinearOrder κ] {key : α → κ} {l l' : List α}

theorem eq_of_filter_key (h : l.Pairwise fun a b => key a ≤ key b)
    (h' : l'.Pairwise fun a b => key a ≤ key b)
    (heq : ∀ c, l.filter (fun a => decide (key a = c)) = l'.filter fun a => decide (key a = c)) :
    l = l' := by
  have hmem : ∀ a, a ∈ l ↔ a ∈ l' := by
    intro a
    have ha : ∀ m : List α, a ∈ m ↔ a ∈ m.filter fun b => decide (key b = key a) := by
      intro m
      rw [List.mem_filter, decide_eq_true_iff, eq_self_iff_true, and_true]
    rw [ha l, ha l', heq]
  induction l generalizing l' with
  | nil =>
    cases l' with
    | nil => rfl
    | cons b l' => exact absurd ((hmem b).mpr List.mem_cons_self) List.not_mem_nil
  | cons a l ih =>
    cases l' with
    | nil => exact absurd ((hmem a).mp List.mem_cons_self) List.not_mem_nil
    | cons b l' =>
      obtain ⟨hfirst, hsorted⟩ := List.pairwise_cons.mp h
      obtain ⟨hfirst', hsorted'⟩ := List.pairwise_cons.mp h'
      -- the first keys are the least ones
      have hkey : key a = key b := by
        apply le_antisymm
        · rcases List.mem_cons.mp ((hmem b).mpr List.mem_cons_self) with rfl | hb
          · exact le_refl _
          · exact hfirst b hb
        · rcases List.mem_cons.mp ((hmem a).mp List.mem_cons_self) with rfl | ha
          · exact le_refl _
          · exact hfirst' a ha
      have hhead := heq (key a)
      rw [List.filter_cons_of_pos (by simp), List.filter_cons_of_pos (by simp [hkey])] at hhead
      obtain ⟨rfl, -⟩ := List.cons.inj hhead
      have htail : ∀ c, l.filter (fun x => decide (key x = c)) =
          l'.filter fun x => decide (key x = c) := by
        intro c
        have hc := heq c
        by_cases hac : key a = c
        · rw [List.filter_cons_of_pos (by simp [hac]),
            List.filter_cons_of_pos (by simp [hac])] at hc
          exact (List.cons.inj hc).2
        · rwa [List.filter_cons_of_neg (by simp [hac]),
            List.filter_cons_of_neg (by simp [hac])] at hc
      rw [ih hsorted hsorted' htail]
      intro x
      have hx : ∀ m : List α, x ∈ m ↔ x ∈ m.filter fun b => decide (key b = key x) := by
        intro m
        rw [List.mem_filter, decide_eq_true_iff, eq_self_iff_true, and_true]
      rw [hx l, hx l', htail]

theorem filter_mergeSort_key (l : List α) (c : κ) :
    (l.mergeSort fun a b => decide (key a ≤ key b)).filter (fun a => decide (key a = c)) =
      l.filter fun a => decide (key a = c) := by
  have htrans : ∀ a b c : α, decide (key a ≤ key b) = true → decide (key b ≤ key c) = true →
      decide (key a ≤ key c) = true := by
    intro a b c hab hbc
    exact decide_eq_true ((of_decide_eq_true hab).trans (of_decide_eq_true hbc))
  have htotal : ∀ a b : α, (decide (key a ≤ key b) || decide (key b ≤ key a)) = true := by
    intro a b
    rcases le_total (key a) (key b) with h | h
    · simp [h]
    · simp [h]
  have hclass : (l.filter fun a => decide (key a = c)).Pairwise fun a b =>
      decide (key a ≤ key b) = true := by
    apply List.pairwise_of_forall_mem_list
    intro a ha b hb
    have hkey := of_decide_eq_true (List.mem_filter.mp ha).2
    have hkey' := of_decide_eq_true (List.mem_filter.mp hb).2
    exact decide_eq_true (hkey.trans hkey'.symm).le
  have hsub := (List.sublist_mergeSort htrans htotal hclass List.filter_sublist).filter
    fun a => decide (key a = c)
  rw [List.filter_filter] at hsub
  simp only [Bool.and_self] at hsub
  refine (hsub.eq_of_length ?_).symm
  exact ((List.mergeSort_perm l _).filter _).length_eq.symm

theorem pairwise_mergeSort_key (key : α → κ) (l : List α) :
    (l.mergeSort fun a b => decide (key a ≤ key b)).Pairwise fun a b => key a ≤ key b := by
  apply List.Pairwise.imp (R := fun a b => decide (key a ≤ key b) = true)
  · exact fun h => of_decide_eq_true h
  · apply List.pairwise_mergeSort
    · intro a b c hab hbc
      exact decide_eq_true ((of_decide_eq_true hab).trans (of_decide_eq_true hbc))
    · intro a b
      rcases le_total (key a) (key b) with h | h
      · simp [h]
      · simp [h]

theorem mergeSort_key_eq_iff :
    (l.mergeSort fun a b => decide (key a ≤ key b)) =
        (l'.mergeSort fun a b => decide (key a ≤ key b)) ↔
      ∀ c, l.filter (fun a => decide (key a = c)) = l'.filter fun a => decide (key a = c) := by
  constructor
  · intro h c
    rw [← filter_mergeSort_key l c, h, filter_mergeSort_key]
  · intro h
    apply eq_of_filter_key (pairwise_mergeSort_key key l) (pairwise_mergeSort_key key l')
    intro c
    rw [filter_mergeSort_key, filter_mergeSort_key, h]

end BlueDB
