import Mathlib.Tactic

/-!
# The best of several runs

Each run gives its first elements by rank, some of which do not count. When a run gives as
many more as it has elements that do not count, the best of what the runs give are the
best of all.
-/

namespace BlueDB.TopK

variable {ε κ : Type*} [LinearOrder κ]

/-- In ascending rank, equal ranks as they were. -/
def sortBy (rank : ε → κ) (l : List ε) : List ε :=
  l.insertionSort fun a b => rank a ≤ rank b

def Ascending (rank : ε → κ) (l : List ε) : Prop := l.Pairwise fun a b => rank a < rank b

variable {rank : ε → κ} {l l' : List ε} {x : ε}

@[simp] theorem mem_sortBy : x ∈ sortBy rank l ↔ x ∈ l := List.mem_insertionSort _

theorem sortBy_perm (rank : ε → κ) (l : List ε) : (sortBy rank l).Perm l :=
  List.perm_insertionSort _ _

theorem Ascending.rank_nodup (h : Ascending rank l) : (l.map rank).Nodup := by
  apply List.Pairwise.map
  · intro a b hlt
    exact ne_of_lt hlt
  · exact h

theorem Ascending.nodup (h : Ascending rank l) : l.Nodup := List.Nodup.of_map rank h.rank_nodup

theorem sortBy_ascending (h : (l.map rank).Nodup) : Ascending rank (sortBy rank l) := by
  have htotal : Std.Total fun a b : ε => rank a ≤ rank b := ⟨fun a b => le_total _ _⟩
  have htrans : IsTrans ε fun a b => rank a ≤ rank b := ⟨fun _ _ _ => le_trans⟩
  have hle : (sortBy rank l).Pairwise fun a b => rank a ≤ rank b :=
    List.pairwise_insertionSort (fun a b : ε => rank a ≤ rank b) l
  have hne : (sortBy rank l).Pairwise fun a b => rank a ≠ rank b := by
    apply List.Pairwise.of_map rank (S := fun a b => a ≠ b)
    · intro a b hab
      exact hab
    · exact (((sortBy_perm rank l).map rank).nodup_iff).mpr h
  apply hle.imp₂ _ hne
  intro a b hab hne'
  exact lt_of_le_of_ne hab hne'

theorem Ascending.eq (h : Ascending rank l) (h' : Ascending rank l')
    (hmem : ∀ x, x ∈ l ↔ x ∈ l') : l = l' := by
  have hantisymm : Std.Antisymm fun a b : ε => rank a < rank b :=
    ⟨fun _ _ hlt hlt' => absurd hlt' (lt_asymm hlt)⟩
  have hirrefl : Std.Irrefl fun a b : ε => rank a < rank b := ⟨fun a => lt_irrefl (rank a)⟩
  exact List.Pairwise.eq_of_mem_iff h h' hmem

theorem Ascending.filter (h : Ascending rank l) (p : ε → Bool) :
    Ascending rank (l.filter p) := List.Pairwise.filter _ h

theorem Ascending.sortBy_eq (h : Ascending rank l) : sortBy rank l = l :=
  (sortBy_ascending h.rank_nodup).eq h fun _ => mem_sortBy

theorem sortBy_eq_of_perm (h : (l.map rank).Nodup) (hperm : l.Perm l') :
    sortBy rank l = sortBy rank l' := by
  apply (sortBy_ascending h).eq (sortBy_ascending ((hperm.map rank).nodup_iff.mp h))
  intro x
  rw [mem_sortBy, mem_sortBy]
  exact hperm.mem_iff

/-- An element that is not among the first ones comes after all of them. -/
theorem Ascending.lt_of_notMem_take (h : Ascending rank l) {k : ℕ} (hx : x ∈ l)
    (hout : x ∉ l.take k) : k ≤ l.length ∧ ∀ y ∈ l.take k, rank y < rank x := by
  have hdrop : x ∈ l.drop k := by
    rcases List.mem_append.mp ((List.take_append_drop k l).symm ▸ hx) with htake | hdrop
    · exact (hout htake).elim
    · exact hdrop
  constructor
  · by_contra hlt
    rw [List.drop_eq_nil_of_le (by omega)] at hdrop
    exact absurd hdrop List.not_mem_nil
  · unfold Ascending at h
    rw [← List.take_append_drop k l, List.pairwise_append] at h
    intro y hy
    exact h.2.2 y hy x hdrop

/-- Of an ascending list, the first elements are those with few before them. -/
theorem Ascending.mem_take (h : Ascending rank l) {k : ℕ} :
    x ∈ l.take k ↔ x ∈ l ∧ (l.filter fun y => rank y < rank x).length < k := by
  have hcount : ∀ pre post, l = pre ++ x :: post →
      (l.filter fun y => rank y < rank x) = pre := by
    rintro pre post rfl
    have hpair := List.pairwise_append.mp h
    have hafter := (List.pairwise_cons.mp hpair.2.1).1
    rw [List.filter_append, List.filter_cons_of_neg (by simp), List.filter_eq_self.mpr,
      List.filter_eq_nil_iff.mpr, List.append_nil]
    · intro y hy
      rw [decide_eq_true_iff]
      exact lt_asymm (hafter y hy)
    · intro y hy
      rw [decide_eq_true_iff]
      exact hpair.2.2 y hy x List.mem_cons_self
  constructor
  · intro hx
    obtain ⟨pre, post, hsplit⟩ := List.append_of_mem hx
    have hall : l = pre ++ x :: (post ++ l.drop k) := by
      conv_lhs => rw [← List.take_append_drop k l, hsplit]
      simp
    refine ⟨List.mem_of_mem_take hx, ?_⟩
    rw [hcount pre _ hall]
    have hlen := congrArg List.length hsplit
    rw [List.length_append, List.length_cons] at hlen
    have hle := List.length_take_le k l
    omega
  · rintro ⟨hx, hlt⟩
    obtain ⟨pre, post, hsplit⟩ := List.append_of_mem hx
    rw [hcount pre post hsplit] at hlt
    obtain ⟨i, rfl⟩ : ∃ i, k = pre.length + (i + 1) := ⟨k - pre.length - 1, by omega⟩
    rw [hsplit, List.take_append, Nat.add_sub_cancel_left, List.take_succ_cons]
    exact List.mem_append_right _ List.mem_cons_self

theorem mem_take_sortBy {k : ℕ} (h : (l.map rank).Nodup) :
    x ∈ (sortBy rank l).take k ↔ x ∈ l ∧ (l.filter fun y => rank y < rank x).length < k := by
  rw [(sortBy_ascending h).mem_take, mem_sortBy, ((sortBy_perm rank l).filter _).length_eq]

theorem sortBy_map {α : Type*} (f : α → ε) (l : List α) :
    sortBy rank (l.map f) = (sortBy (rank ∘ f) l).map f := by
  symm
  apply List.map_insertionSort
  exact fun _ _ _ _ => Iff.rfl

section Congr

variable {κ' : Type*} [LinearOrder κ'] {rank' : ε → κ'}

theorem orderedInsert_congr {a : ε} (h : ∀ b ∈ l, rank a ≤ rank b ↔ rank' a ≤ rank' b) :
    l.orderedInsert (fun a b => rank a ≤ rank b) a =
      l.orderedInsert (fun a b => rank' a ≤ rank' b) a := by
  induction l with
  | nil => rfl
  | cons b rest ih =>
    rw [List.orderedInsert_cons, List.orderedInsert_cons]
    simp only [h b List.mem_cons_self]
    rw [ih fun c hc => h c (List.mem_cons_of_mem _ hc)]

/-- Ranks that compare an element alike with all later ones sort alike. -/
theorem sortBy_congr (h : l.Pairwise fun a b => rank a ≤ rank b ↔ rank' a ≤ rank' b) :
    sortBy rank l = sortBy rank' l := by
  induction l with
  | nil => rfl
  | cons a rest ih =>
    obtain ⟨hhead, htail⟩ := List.pairwise_cons.mp h
    have hrest := ih htail
    unfold sortBy at hrest ⊢
    rw [List.insertionSort_cons, List.insertionSort_cons, hrest]
    apply orderedInsert_congr
    intro b hb
    exact hhead b ((List.mem_insertionSort _).mp hb)

end Congr

/-- Leaving out elements behind the first ones keeps the first ones. -/
theorem take_filter {k : ℕ} {p : ε → Bool} (h : ∀ x ∈ l.take k, p x = true) :
    (l.filter p).take k = l.take k := by
  have hsplit : l.filter p = l.take k ++ (l.drop k).filter p := by
    conv_lhs => rw [← List.take_append_drop k l, List.filter_append]
    rw [List.filter_eq_self.mpr h]
  rw [hsplit]
  by_cases hk : k ≤ l.length
  · exact List.take_left' (List.length_take_of_le hk)
  · have hdrop : l.drop k = [] := List.drop_eq_nil_of_le (le_of_not_ge hk)
    rw [hdrop, List.filter_nil, List.append_nil, List.take_take, min_self]

/-- The best elements do not change when each element left out has enough better ones
among the rest. -/
theorem take_sortBy [DecidableEq ε] {k : ℕ} (h : (l.map rank).Nodup) (h' : (l'.map rank).Nodup)
    (hsub : ∀ x ∈ l', x ∈ l)
    (hcover : ∀ x ∈ l, x ∉ l' → k ≤ (l'.filter fun y => rank y < rank x).length) :
    (sortBy rank l').take k = (sortBy rank l).take k := by
  have hasc := sortBy_ascending h
  have heq : sortBy rank l' = (sortBy rank l).filter (· ∈ l') := by
    apply (sortBy_ascending h').eq (hasc.filter _)
    intro x
    rw [List.mem_filter, mem_sortBy, mem_sortBy, decide_eq_true_iff]
    exact ⟨fun hx => ⟨hsub x hx, hx⟩, fun hx => hx.2⟩
  rw [heq]
  apply take_filter
  intro x hx
  rw [decide_eq_true_iff]
  by_contra hout
  obtain ⟨pre, post, hsplit⟩ := List.append_of_mem hx
  have hall : sortBy rank l = pre ++ x :: (post ++ (sortBy rank l).drop k) := by
    conv_lhs => rw [← List.take_append_drop k (sortBy rank l), hsplit]
    simp
  have hpre : pre.length < k := by
    have hlen := congrArg List.length hsplit
    rw [List.length_append, List.length_cons] at hlen
    have hle := List.length_take_le k (sortBy rank l)
    omega
  -- the better elements all stand before the element
  have hbefore : ∀ y ∈ l'.filter fun y => rank y < rank x, y ∈ pre := by
    intro y hy
    obtain ⟨hyl, hlt⟩ := List.mem_filter.mp hy
    rw [decide_eq_true_iff] at hlt
    have hmem : y ∈ sortBy rank l := mem_sortBy.mpr (hsub y hyl)
    rw [hall] at hmem hasc
    rcases List.mem_append.mp hmem with hpre | hpost
    · exact hpre
    · have hafter := (List.pairwise_cons.mp (List.pairwise_append.mp hasc).2.1).1
      rcases List.mem_cons.mp hpost with rfl | hpost
      · exact absurd hlt (lt_irrefl _)
      · exact absurd hlt (lt_asymm (hafter y hpost))
  have hnodup : (l'.filter fun y => rank y < rank x).Nodup := (List.Nodup.of_map rank h').filter _
  have hle := (List.subperm_of_subset hnodup hbefore).length_le
  have hx' : x ∈ l := mem_sortBy.mp (List.mem_of_mem_take hx)
  exact absurd (hcover x hx' hout) (not_le.mpr (hle.trans_lt hpre))

theorem length_filter_take {p : ε → Bool} {k t : ℕ} (ht : (l.filter fun x => !p x).length ≤ t)
    (hlen : k + t ≤ l.length) : k ≤ ((l.take (k + t)).filter p).length := by
  have hsum := List.length_eq_length_filter_add (l := l.take (k + t)) p
  rw [List.length_take_of_le hlen] at hsum
  have hsub : ((l.take (k + t)).filter fun x => !p x).length ≤
      (l.filter fun x => !p x).length :=
    ((List.take_sublist _ _).filter _).length_le
  omega

/-- Taking as many more from each run as it has elements that do not count is enough. -/
theorem take_runs [DecidableEq ε] {runs : List (List ε)} {p : ε → Bool} {k t : ℕ}
    (hruns : ∀ r ∈ runs, Ascending rank r)
    (hnodup : ((runs.flatMap fun r => r.filter p).map rank).Nodup)
    (hcount : ∀ r ∈ runs, (r.filter fun x => !p x).length ≤ t) :
    (sortBy rank (runs.flatMap fun r => (r.take (k + t)).filter p)).take k =
      (sortBy rank (runs.flatMap fun r => r.filter p)).take k := by
  have hsublist : (runs.flatMap fun r => (r.take (k + t)).filter p).Sublist
      (runs.flatMap fun r => r.filter p) := by
    induction runs with
    | nil => exact List.Sublist.refl _
    | cons r rest ih =>
      rw [List.flatMap_cons, List.flatMap_cons]
      apply ((List.take_sublist _ _).filter _).append
      apply ih
      · intro r' hr'
        exact hruns r' (List.mem_cons_of_mem _ hr')
      · rw [List.flatMap_cons, List.map_append] at hnodup
        exact (List.nodup_append.mp hnodup).2.1
      · intro r' hr'
        exact hcount r' (List.mem_cons_of_mem _ hr')
  have hnodup' := hnodup.sublist (hsublist.map rank)
  apply take_sortBy hnodup hnodup' hsublist.subset
  intro x hx hout
  obtain ⟨r, hr, hxr⟩ := List.mem_flatMap.mp hx
  obtain ⟨hxr, hp⟩ := List.mem_filter.mp hxr
  obtain ⟨hlen, hbefore⟩ := (hruns r hr).lt_of_notMem_take hxr fun htake =>
    hout (List.mem_flatMap.mpr ⟨r, hr, List.mem_filter.mpr ⟨htake, hp⟩⟩)
  have hbetter : ∀ y ∈ (r.take (k + t)).filter p,
      y ∈ (runs.flatMap fun r => (r.take (k + t)).filter p).filter fun y => rank y < rank x := by
    intro y hy
    apply List.mem_filter.mpr
    refine ⟨List.mem_flatMap.mpr ⟨r, hr, hy⟩, ?_⟩
    rw [decide_eq_true_iff]
    exact hbefore y (List.mem_filter.mp hy).1
  have hfirst : ((r.take (k + t)).filter p).Nodup :=
    ((hruns r hr).nodup.sublist (List.take_sublist _ _)).filter _
  exact (length_filter_take (hcount r hr) hlen).trans
    (List.subperm_of_subset hfirst hbetter).length_le

/-- The first elements of one list are those of another exactly when the first elements of
the other are in it, and what only it has comes after them. -/
theorem take_sortBy_eq_iff [DecidableEq ε] {k : ℕ} (h : (l.map rank).Nodup)
    (h' : (l'.map rank).Nodup) :
    (sortBy rank l').take k = (sortBy rank l).take k ↔
      (∀ x ∈ (sortBy rank l).take k, x ∈ l') ∧
      ∀ y ∈ l', y ∉ l → k ≤ l.length ∧ ∀ x ∈ (sortBy rank l).take k, rank x < rank y := by
  have hlength := (sortBy_perm rank l).length_eq
  constructor
  · intro heq
    constructor
    · intro x hx
      rw [← heq] at hx
      exact mem_sortBy.mp (List.mem_of_mem_take hx)
    · intro y hy hout
      have hnot : y ∉ (sortBy rank l').take k := by
        rw [heq]
        exact fun hmem => hout (mem_sortBy.mp (List.mem_of_mem_take hmem))
      obtain ⟨hle, hbefore⟩ := (sortBy_ascending h').lt_of_notMem_take (mem_sortBy.mpr hy) hnot
      rw [heq] at hbefore
      refine ⟨?_, hbefore⟩
      have htaken := congrArg List.length heq
      rw [List.length_take_of_le hle, List.length_take, hlength] at htaken
      omega
  · rintro ⟨hmem, hbehind⟩
    -- the first elements are the first of those that both have
    have hboth : ((l'.filter fun y => decide (y ∈ l)).map rank).Nodup :=
      h'.sublist (List.filter_sublist.map rank)
    have hfirst : ∀ x ∈ (sortBy rank l).take k, x ∈ l'.filter fun y => decide (y ∈ l) := by
      intro x hx
      rw [List.mem_filter, decide_eq_true_iff]
      exact ⟨hmem x hx, mem_sortBy.mp (List.mem_of_mem_take hx)⟩
    have henough : ∀ z, k ≤ l.length → (∀ x ∈ (sortBy rank l).take k, rank x < rank z) →
        k ≤ ((l'.filter fun y => decide (y ∈ l)).filter fun y => rank y < rank z).length := by
      intro z hk hbefore
      have hnodup : ((sortBy rank l).take k).Nodup :=
        (List.take_sublist _ _).nodup (sortBy_ascending h).nodup
      have hle := (List.subperm_of_subset hnodup fun x hx => List.mem_filter.mpr
        ⟨hfirst x hx, decide_eq_true (hbefore x hx)⟩).length_le
      rwa [List.length_take_of_le (by rwa [hlength])] at hle
    calc (sortBy rank l').take k
        = (sortBy rank (l'.filter fun y => decide (y ∈ l))).take k := by
          symm
          apply take_sortBy h' hboth fun x hx => (List.mem_filter.mp hx).1
          intro y hy hout
          have hnot : y ∉ l := fun hl => hout (List.mem_filter.mpr ⟨hy, decide_eq_true hl⟩)
          obtain ⟨hk, hbefore⟩ := hbehind y hy hnot
          exact henough y hk hbefore
      _ = (sortBy rank l).take k := by
          apply take_sortBy h hboth
          · intro x hx
            exact of_decide_eq_true (List.mem_filter.mp hx).2
          · intro x hx hout
            have hnot : x ∉ (sortBy rank l).take k := fun htake => hout (hfirst x htake)
            obtain ⟨hk, hbefore⟩ :=
              (sortBy_ascending h).lt_of_notMem_take (mem_sortBy.mpr hx) hnot
            exact henough x (by rwa [hlength] at hk) hbefore

end BlueDB.TopK
