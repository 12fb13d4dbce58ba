import BlueDB.Lib.Bits
import BlueDB.Lib.Chunks

/-!
# Merkle tree hashes over lists of leaf hashes

The tree over a list of at least two leaves splits at the largest power of two
below its length. The hash functions are arbitrary. A range of leaves has a
root of its own; the root over an aligned range of `2 ^ l` leaves is a block of
level `l`. The blocks that cover a list in order of falling level are its peaks,
and folding the peaks from the right gives the root of the whole list.
-/

namespace BlueDB

/-- The largest power of two below `n`, for `2 ≤ n`. -/
def splitSize (n : ℕ) : ℕ := 2 ^ Nat.log 2 (n - 1)

theorem splitSize_two_pow_add {t r : ℕ} (hpos : 0 < r) (hle : r ≤ 2 ^ t) :
    splitSize (2 ^ t + r) = 2 ^ t := by
  unfold splitSize
  congr 1
  apply Nat.log_eq_of_pow_le_of_lt_pow
  · omega
  · rw [pow_succ]
    omega

theorem splitSize_lt {n : ℕ} (h : 2 ≤ n) : splitSize n < n := by
  obtain ⟨t, r, rfl, hpos, hle⟩ := exists_two_pow_add h
  rw [splitSize_two_pow_add hpos hle]
  omega

theorem splitSize_pos (n : ℕ) : 0 < splitSize n := by
  unfold splitSize
  positivity

/-- A list of at least two elements is a full left part and a right part that is
no larger. -/
theorem exists_append_of_two_le {α : Type*} {l : List α} (h : 2 ≤ l.length) :
    ∃ t left right, l = left ++ right ∧ left.length = 2 ^ t ∧ 0 < right.length ∧
      right.length ≤ 2 ^ t := by
  obtain ⟨t, r, hlen, hpos, hle⟩ := exists_two_pow_add h
  refine ⟨t, l.take (2 ^ t), l.drop (2 ^ t), (List.take_append_drop _ _).symm, ?_, ?_, ?_⟩
  · rw [List.length_take]
    omega
  · rw [List.length_drop]
    omega
  · rw [List.length_drop]
    omega

theorem split_induction {α : Type*} {P : List α → Prop} (single : ∀ a, P [a])
    (join : ∀ t left right, left.length = 2 ^ t → 0 < right.length → right.length ≤ 2 ^ t →
      P left → P right → P (left ++ right)) (l : List α) (hl : l ≠ []) : P l := by
  induction hn : l.length using Nat.strong_induction_on generalizing l with
  | _ n ih =>
    by_cases h2 : 2 ≤ l.length
    · obtain ⟨t, left, right, rfl, hleft, hpos, hle⟩ := exists_append_of_two_le h2
      have htwo : 0 < 2 ^ t := by positivity
      rw [List.length_append] at hn
      apply join t left right hleft hpos hle
      · exact ih left.length (by omega) left (List.ne_nil_of_length_pos (by omega)) rfl
      · exact ih right.length (by omega) right (List.ne_nil_of_length_pos hpos) rfl
    · match l, hl, h2 with
      | [a], _, _ => exact single a
      | _ :: _ :: _, _, h2 => simp at h2

theorem full_induction {α : Type*} {P : ℕ → List α → Prop} (single : ∀ a, P 0 [a])
    (join : ∀ t left right, left.length = 2 ^ t → right.length = 2 ^ t →
      P t left → P t right → P (t + 1) (left ++ right))
    {t : ℕ} {l : List α} (hl : l.length = 2 ^ t) : P t l := by
  induction t generalizing l with
  | zero =>
    obtain ⟨a, rfl⟩ := List.length_eq_one_iff.mp hl
    exact single a
  | succ t ih =>
    rw [pow_succ] at hl
    have hleft : (l.take (2 ^ t)).length = 2 ^ t := by rw [List.length_take]; omega
    have hright : (l.drop (2 ^ t)).length = 2 ^ t := by rw [List.length_drop]; omega
    have := join t _ _ hleft hright (ih hleft) (ih hright)
    rwa [List.take_append_drop] at this

structure TreeHash (H : Type*) where
  empty : H
  node : H → H → H

namespace TreeHash

variable {H : Type*} (T : TreeHash H)

/-- The hash of the tree over `leaves`. -/
def root (leaves : List H) : H :=
  if 2 ≤ leaves.length then
    T.node (root (leaves.take (splitSize leaves.length)))
      (root (leaves.drop (splitSize leaves.length)))
  else leaves.headD T.empty
termination_by leaves.length
decreasing_by
  · have := splitSize_lt ‹2 ≤ leaves.length›
    simp only [List.length_take]
    omega
  · have := splitSize_pos leaves.length
    simp only [List.length_drop]
    omega

@[simp] theorem root_nil : T.root [] = T.empty := by
  rw [root]
  simp

@[simp] theorem root_singleton (leaf : H) : T.root [leaf] = leaf := by
  rw [root]
  simp

theorem root_eq_node {leaves : List H} (h : 2 ≤ leaves.length) :
    T.root leaves = T.node (T.root (leaves.take (splitSize leaves.length)))
      (T.root (leaves.drop (splitSize leaves.length))) := by
  rw [root, if_pos h]

theorem root_append {left right : List H} {t : ℕ} (hleft : left.length = 2 ^ t)
    (hpos : 0 < right.length) (hle : right.length ≤ 2 ^ t) :
    T.root (left ++ right) = T.node (T.root left) (T.root right) := by
  have hlen : (left ++ right).length = 2 ^ t + right.length := by
    rw [List.length_append, hleft]
  have htwo : 2 ≤ (left ++ right).length := by
    have := Nat.one_le_two_pow (n := t)
    omega
  rw [root_eq_node T htwo, hlen, splitSize_two_pow_add hpos hle, ← hleft, List.take_left,
    List.drop_left]

theorem root_slice_split {leaves : List H} {lo hi t : ℕ} (hhi : hi ≤ leaves.length)
    (hlt : lo + 2 ^ t < hi) (hle : hi ≤ lo + 2 ^ t + 2 ^ t) :
    T.root (slice leaves lo hi) =
      T.node (T.root (slice leaves lo (lo + 2 ^ t))) (T.root (slice leaves (lo + 2 ^ t) hi)) := by
  rw [← slice_append_slice (m := lo + 2 ^ t) (by omega) (by omega)]
  apply root_append T (t := t)
  · rw [length_slice (by omega)]
    omega
  · rw [length_slice hhi]
    omega
  · rw [length_slice hhi]
    omega

/-- The root over the `i`-th aligned range of `2 ^ l` leaves. -/
def block (leaves : List H) (l i : ℕ) : H :=
  T.root (slice leaves (i * 2 ^ l) ((i + 1) * 2 ^ l))

theorem block_zero {leaves : List H} {i : ℕ} (h : i < leaves.length) :
    T.block leaves 0 i = leaves[i] := by
  rw [block, pow_zero, mul_one, mul_one, slice_succ h, root_singleton]

theorem block_succ {leaves : List H} {l i : ℕ} (h : (i + 1) * 2 ^ (l + 1) ≤ leaves.length) :
    T.block leaves (l + 1) i = T.node (T.block leaves l (2 * i))
      (T.block leaves l (2 * i + 1)) := by
  have hpos : 0 < 2 ^ l := by positivity
  have hlo : i * 2 ^ (l + 1) = 2 * i * 2 ^ l := by rw [pow_succ]; ring
  have hmid : (2 * i + 1) * 2 ^ l = 2 * i * 2 ^ l + 2 ^ l := by ring
  have hhi : (i + 1) * 2 ^ (l + 1) = 2 * i * 2 ^ l + 2 ^ l + 2 ^ l := by rw [pow_succ]; ring
  have hhi' : (2 * i + 1 + 1) * 2 ^ l = 2 * i * 2 ^ l + 2 ^ l + 2 ^ l := by ring
  rw [hhi] at h
  rw [block, block, block, hlo, hhi, hmid, hhi', root_slice_split T h (by omega) le_rfl]

theorem block_append {leaves : List H} {l i : ℕ} (h : (i + 1) * 2 ^ l ≤ leaves.length)
    (more : List H) : T.block (leaves ++ more) l i = T.block leaves l i := by
  rw [block, slice_append_of_le h, block]

/-- The blocks that cover the first `s * 2 ^ l` leaves, from the last and
smallest, one for each one bit of `s`. -/
def peaks (leaves : List H) (l s : ℕ) : List H :=
  if s = 0 then []
  else if s % 2 = 1 then T.block leaves l (s - 1) :: peaks leaves (l + 1) (s / 2)
  else peaks leaves (l + 1) (s / 2)
termination_by s

@[simp] theorem peaks_zero (leaves : List H) (l : ℕ) : T.peaks leaves l 0 = [] := by
  rw [peaks, if_pos rfl]

theorem peaks_odd (leaves : List H) (l s : ℕ) :
    T.peaks leaves l (2 * s + 1) = T.block leaves l (2 * s) :: T.peaks leaves (l + 1) s := by
  rw [peaks, if_neg (by omega), if_pos (by omega)]
  congr 2
  omega

theorem peaks_even (leaves : List H) (l s : ℕ) :
    T.peaks leaves l (2 * s) = T.peaks leaves (l + 1) s := by
  by_cases hs : s = 0
  · subst s
    simp
  · rw [peaks, if_neg (by omega), if_neg (by omega)]
    congr 1
    omega

theorem peaks_append {leaves : List H} {l s : ℕ} (h : s * 2 ^ l ≤ leaves.length)
    (more : List H) : T.peaks (leaves ++ more) l s = T.peaks leaves l s := by
  induction s using Nat.strong_induction_on generalizing l with
  | _ s ih =>
    by_cases hs : s = 0
    · subst s
      simp
    rcases Nat.even_or_odd' s with ⟨m, rfl | rfl⟩
    · have hm : m * 2 ^ (l + 1) ≤ leaves.length := by
        rw [pow_succ]
        linarith
      rw [peaks_even, peaks_even, ih m (by omega) hm]
    · have hm : m * 2 ^ (l + 1) ≤ leaves.length := by
        rw [pow_succ]
        linarith [Nat.one_le_two_pow (n := l)]
      rw [peaks_odd, peaks_odd, ih m (by omega) hm, block_append T h]

/-- Fold of the peaks from the last one on. -/
def bag : List H → H
  | [] => T.empty
  | last :: rest => rest.foldl (fun acc peak => T.node peak acc) last

/-- Folding the peaks of the first `s * 2 ^ l` leaves into the root of all the
leaves behind them gives the root of all leaves. -/
theorem foldl_peaks {leaves : List H} {l s : ℕ} (hlt : s * 2 ^ l < leaves.length)
    (hle : leaves.length ≤ s * 2 ^ l + 2 ^ l) :
    (T.peaks leaves l s).foldl (fun acc peak => T.node peak acc)
      (T.root (slice leaves (s * 2 ^ l) leaves.length)) = T.root leaves := by
  induction s using Nat.strong_induction_on generalizing l with
  | _ s ih =>
    by_cases hs : s = 0
    · subst s
      simp
    have hpos : 0 < 2 ^ l := by positivity
    rcases Nat.even_or_odd' s with ⟨m, rfl | rfl⟩
    · have hm : 2 * m * 2 ^ l = m * 2 ^ (l + 1) := by rw [pow_succ]; ring
      rw [hm] at hlt hle ⊢
      have hmono : 2 ^ l ≤ 2 ^ (l + 1) := Nat.pow_le_pow_right (by omega) (by omega)
      rw [peaks_even]
      exact ih m (by omega) hlt (by omega)
    · have hstart : 2 * m * 2 ^ l = m * 2 ^ (l + 1) := by rw [pow_succ]; ring
      have hend : (2 * m + 1) * 2 ^ l = m * 2 ^ (l + 1) + 2 ^ l := by rw [pow_succ]; ring
      have hjoin : T.node (T.block leaves l (2 * m))
          (T.root (slice leaves ((2 * m + 1) * 2 ^ l) leaves.length)) =
            T.root (slice leaves (m * 2 ^ (l + 1)) leaves.length) := by
        rw [block, hstart, hend]
        rw [hend] at hlt hle
        rw [root_slice_split T le_rfl hlt hle]
      rw [peaks_odd, List.foldl_cons, hjoin]
      apply ih m (by omega)
      · omega
      · rw [pow_succ] at hend ⊢
        omega

theorem bag_peaks {leaves : List H} {l s : ℕ} (hlen : leaves.length = s * 2 ^ l) :
    T.bag (T.peaks leaves l s) = T.root leaves := by
  induction s using Nat.strong_induction_on generalizing l with
  | _ s ih =>
    by_cases hs : s = 0
    · subst s
      have : leaves = [] := List.eq_nil_of_length_eq_zero (by omega)
      subst leaves
      simp [bag]
    rcases Nat.even_or_odd' s with ⟨m, rfl | rfl⟩
    · have hm : 2 * m * 2 ^ l = m * 2 ^ (l + 1) := by rw [pow_succ]; ring
      rw [peaks_even]
      exact ih m (by omega) (by rw [hlen, hm])
    · have hstart : 2 * m * 2 ^ l = m * 2 ^ (l + 1) := by rw [pow_succ]; ring
      have hend : leaves.length = m * 2 ^ (l + 1) + 2 ^ l := by rw [hlen, pow_succ]; ring
      have hpos : 0 < 2 ^ l := by positivity
      rw [peaks_odd, bag, block, ← hlen, hstart]
      apply foldl_peaks T
      · omega
      · rw [pow_succ] at hend ⊢
        omega

end TreeHash

section Climb

variable {H I : Type*} (hash : I → H) (input : H → H → I)

/-- What is hashed at one level: the sibling is on the left where the bit is set. -/
def levelInput (seed : H) (q : Bool × H) : I := if q.1 then input q.2 seed else input seed q.2

/-- The hash that a path of siblings leads to. -/
def climb (seed : H) (path : List (Bool × H)) : H :=
  path.foldl (fun seed q => hash (levelInput input seed q)) seed

/-- All that is hashed on the way. -/
def climbInputs : H → List (Bool × H) → List I
  | _, [] => []
  | seed, q :: path => levelInput input seed q :: climbInputs (hash (levelInput input seed q)) path

/-- Two of the inputs are different and have one hash. -/
def Collide (xs ys : List I) : Prop := ∃ x ∈ xs, ∃ y ∈ ys, x ≠ y ∧ hash x = hash y

theorem Collide.mono {xs xs' ys ys' : List I} (h : Collide hash xs ys) (hxs : xs ⊆ xs')
    (hys : ys ⊆ ys') : Collide hash xs' ys' := by
  obtain ⟨x, hx, y, hy, hne, heq⟩ := h
  exact ⟨x, hxs hx, y, hys hy, hne, heq⟩

theorem climb_append (seed : H) (path path' : List (Bool × H)) :
    climb hash input seed (path ++ path') = climb hash input (climb hash input seed path) path' :=
  List.foldl_append

theorem levelInput_injective (hinput : Function.Injective2 input) {seed seed' : H}
    {q q' : Bool × H} (hside : q.1 = q'.1)
      (h : levelInput input seed q = levelInput input seed' q') :
    seed = seed' ∧ q = q' := by
  unfold levelInput at h
  rw [hside] at h
  split at h
  · obtain ⟨hsibling, hseed⟩ := hinput h
    exact ⟨hseed, Prod.ext hside hsibling⟩
  · obtain ⟨hseed, hsibling⟩ := hinput h
    exact ⟨hseed, Prod.ext hside hsibling⟩

/-- Two climbs along the same sides meet only where they start from one hash. -/
theorem climb_binding (hinput : Function.Injective2 input) {path path' : List (Bool × H)}
    (hsides : path.map Prod.fst = path'.map Prod.fst) {seed seed' : H}
    (h : climb hash input seed path = climb hash input seed' path') :
    (seed = seed' ∧ path = path') ∨
      Collide hash (climbInputs hash input seed path) (climbInputs hash input seed' path') := by
  induction path generalizing path' seed seed' with
  | nil =>
    obtain rfl := List.map_eq_nil_iff.mp hsides.symm
    exact Or.inl ⟨h, rfl⟩
  | cons q path ih =>
    cases path' with
    | nil => cases hsides
    | cons q' path' =>
      obtain ⟨hside, hsides⟩ := List.cons.inj hsides
      rcases ih hsides h with ⟨hhash, rfl⟩ | hcollide
      · by_cases heq : levelInput input seed q = levelInput input seed' q'
        · obtain ⟨rfl, rfl⟩ := levelInput_injective input hinput hside heq
          exact Or.inl ⟨rfl, rfl⟩
        · exact Or.inr ⟨_, List.mem_cons_self, _, List.mem_cons_self, heq, hhash⟩
      · exact Or.inr (hcollide.mono hash (List.subset_cons_self ..) (List.subset_cons_self ..))

end Climb

end BlueDB
