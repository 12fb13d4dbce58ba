import Mathlib.Tactic

/-!
# Joined lists

Lists that are joined with a separator between them can be told apart from what they are
joined to when it is known how many separators each of them has.
-/

namespace BlueDB.Joined

variable {α : Type*} [DecidableEq α] {a : α}

theorem append_separator_inj {x y u v : List α} (h : x ++ a :: u = y ++ a :: v)
    (hcount : x.count a = y.count a) : x = y ∧ u = v := by
  rcases List.append_eq_append_iff.mp h with ⟨c, hy, hu⟩ | ⟨c, hx, hv⟩
  · cases c with
    | nil =>
      rw [List.append_nil] at hy
      exact ⟨hy.symm, List.tail_eq_of_cons_eq hu⟩
    | cons b c =>
      obtain rfl := List.head_eq_of_cons_eq hu
      rw [hy, List.count_append, List.count_cons_self] at hcount
      omega
  · cases c with
    | nil =>
      rw [List.append_nil] at hx
      exact ⟨hx, (List.tail_eq_of_cons_eq hv).symm⟩
    | cons b c =>
      obtain rfl := List.head_eq_of_cons_eq hv
      rw [hx, List.count_append, List.count_cons_self] at hcount
      omega

/-- Joined lists are the same when their parts have as many separators. -/
theorem eq_of_intercalate {xs ys : List (List α)} (hlength : xs.length = ys.length)
    (h : [a].intercalate xs = [a].intercalate ys)
    (hcount : xs.map (List.count a) = ys.map (List.count a)) : xs = ys := by
  induction xs generalizing ys with
  | nil => exact (List.eq_nil_of_length_eq_zero hlength.symm).symm
  | cons x xs ih =>
    cases ys with
    | nil => exact absurd hlength nofun
    | cons y ys =>
      have hrest : xs.length = ys.length := Nat.succ.inj hlength
      rw [List.map_cons, List.map_cons, List.cons.injEq] at hcount
      by_cases hnil : xs = []
      · subst hnil
        obtain rfl := List.eq_nil_of_length_eq_zero hrest.symm
        rw [List.intercalate_singleton, List.intercalate_singleton] at h
        rw [h]
      · have hnil' : ys ≠ [] := by
          rintro rfl
          exact hnil (List.eq_nil_of_length_eq_zero hrest)
        rw [List.intercalate_cons_of_ne_nil hnil, List.intercalate_cons_of_ne_nil hnil',
          List.append_assoc, List.append_assoc] at h
        obtain ⟨hhead, htail⟩ := append_separator_inj h hcount.1
        rw [hhead, ih hrest htail hcount.2]

theorem count_intercalate {xs : List (List α)} (h : xs ≠ []) :
    ([a].intercalate xs).count a + 1 = (xs.map fun x => x.count a + 1).sum := by
  induction xs with
  | nil => exact absurd rfl h
  | cons x xs ih =>
    by_cases hnil : xs = []
    · subst hnil
      simp
    · rw [List.intercalate_cons_of_ne_nil hnil, List.count_append, List.count_append,
        List.count_singleton_self, List.map_cons, List.sum_cons, ← ih hnil]
      omega

theorem not_mem_of_intercalate {xs ys : List (List α)} (hlength : xs.length = ys.length)
    (h : [a].intercalate xs = [a].intercalate ys) (hys : ∀ y ∈ ys, a ∉ y) :
    ∀ x ∈ xs, a ∉ x := by
  intro x hx
  have hne : xs ≠ [] := List.ne_nil_of_mem hx
  have hne' : ys ≠ [] := by
    rintro rfl
    exact hne (List.eq_nil_of_length_eq_zero hlength)
  have hsum := (count_intercalate (a := a) hne).symm.trans
    ((congrArg (fun l => l.count a + 1) h).trans (count_intercalate hne'))
  have hones : (ys.map fun y => y.count a + 1).sum = xs.length := by
    have hmap : ys.map (fun y => y.count a + 1) = ys.map fun _ => 1 := by
      apply List.map_congr_left
      intro y hy
      rw [List.count_eq_zero_of_not_mem (hys y hy)]
    rw [hmap, List.map_const', List.sum_replicate, smul_eq_mul, mul_one, hlength]
  rw [hones, List.sum_map_add, List.map_const', List.sum_replicate, smul_eq_mul, mul_one] at hsum
  have hzero : (xs.map (List.count a)).sum = 0 := Nat.add_eq_right.mp hsum
  have hcount := List.sum_eq_zero_iff.mp hzero _ (List.mem_map_of_mem hx)
  exact List.count_eq_zero.mp hcount

/-- Lists without separators are told apart from what they are joined to. -/
theorem eq_of_intercalate_of_not_mem {xs ys : List (List α)} (hlength : xs.length = ys.length)
    (h : [a].intercalate xs = [a].intercalate ys) (hys : ∀ y ∈ ys, a ∉ y) : xs = ys := by
  apply eq_of_intercalate hlength h
  have hzeros : ∀ zs : List (List α), (∀ z ∈ zs, a ∉ z) →
      zs.map (List.count a) = List.replicate zs.length 0 := by
    intro zs hzs
    rw [← List.map_const']
    apply List.map_congr_left
    intro z hz
    exact List.count_eq_zero_of_not_mem (hzs z hz)
  rw [hzeros xs (not_mem_of_intercalate hlength h hys), hzeros ys hys, hlength]

end BlueDB.Joined
