import BlueDB.Lib.ByteOrder
import BlueDB.Lib.MerkleTree
import BlueDB.Evidence.Model

/-!
# Hashes, tree roots and the frontier

The tree functions of the evidence store over an arbitrary `sha256`. The
reference root agrees with the general tree hash. Pushing leaves one at a time
keeps the frontier equal to the peaks of the leaves so far, and what a push
emits are exactly the blocks that its leaf completes.
-/

namespace BlueDB.Evidence

variable (sha256 : List UInt8 → Digest)

def opDiscriminant : EdgeOp → UInt8
  | .upsert .set => 0
  | .upsert .max => 1
  | .delete => 2

def emptyRoot : Digest := sha256 []

def nodeHash (left right : Digest) : Digest := sha256 (0x01 :: (left.toList ++ right.toList))

/-- A field behind its length as a `u64`. -/
def frameField (b : List UInt8) : List UInt8 := lengthPrefixed 8 b

def edgeFrame (e : EdgeDelta) : List UInt8 :=
  frameField e.graph.1 ++ (frameField e.src.1 ++ (frameField e.dst.1 ++ (frameField e.etype.1 ++
    (beBytes 8 e.weight.toUInt64.toNat ++ [opDiscriminant e.op]))))

/-- The fields the edges of a leaf are sorted by. -/
def edgeSortKey (e : EdgeDelta) : List (List UInt8) :=
  [e.graph.1, e.src.1, e.dst.1, e.etype.1, [opDiscriminant e.op]]

def leafHash (etype payload atTime : Blob) (edges : Sized EdgeDelta (256 ^ 8)) : Digest :=
  let sorted := edges.1.mergeSort fun a b => decide (edgeSortKey a ≤ edgeSortKey b)
  sha256 (0x00 :: (frameField etype.1 ++ frameField payload.1 ++ frameField atTime.1 ++
    beBytes 8 sorted.length ++ sorted.flatMap edgeFrame))

/-- `while k << 1 < n { k <<= 1 }`; the start is positive. -/
def doubleWhileLt (n k : ℕ) : ℕ :=
  if 0 < k ∧ k <<< 1 < n then doubleWhileLt n (k <<< 1) else k
termination_by n - k
decreasing_by
  rw [Nat.shiftLeft_eq] at *
  omega

/-- Largest power of two strictly less than `n`. -/
def largestPow2Lt (n : ℕ) : ℕ := doubleWhileLt n 1

theorem doubleWhileLt_two_pow {t r j : ℕ} (hpos : 0 < r) (hle : r ≤ 2 ^ t) (hj : j ≤ t) :
    doubleWhileLt (2 ^ t + r) (2 ^ j) = 2 ^ t := by
  induction hgap : t - j generalizing j with
  | zero =>
    have : j = t := by omega
    subst j
    rw [doubleWhileLt, if_neg]
    rw [Nat.shiftLeft_eq]
    omega
  | succ gap ih =>
    have hmono : 2 ^ (j + 1) ≤ 2 ^ t := Nat.pow_le_pow_right (by omega) (by omega)
    have hshift : (2 ^ j) <<< 1 = 2 ^ (j + 1) := by rw [Nat.shiftLeft_eq, pow_one, pow_succ]
    rw [doubleWhileLt, hshift, if_pos ⟨by positivity, by omega⟩]
    exact ih (by omega) (by omega)

theorem largestPow2Lt_two_pow_add {t r : ℕ} (hpos : 0 < r) (hle : r ≤ 2 ^ t) :
    largestPow2Lt (2 ^ t + r) = 2 ^ t :=
  doubleWhileLt_two_pow (j := 0) hpos hle (Nat.zero_le t)

theorem largestPow2Lt_eq_splitSize {n : ℕ} (h : 2 ≤ n) : largestPow2Lt n = splitSize n := by
  obtain ⟨t, r, rfl, hpos, hle⟩ := exists_two_pow_add h
  rw [largestPow2Lt_two_pow_add hpos hle, splitSize_two_pow_add hpos hle]

theorem largestPow2Lt_lt {n : ℕ} (h : 2 ≤ n) : largestPow2Lt n < n := by
  rw [largestPow2Lt_eq_splitSize h]
  exact splitSize_lt h

theorem largestPow2Lt_pos {n : ℕ} (h : 2 ≤ n) : 0 < largestPow2Lt n := by
  rw [largestPow2Lt_eq_splitSize h]
  exact splitSize_pos n

def merkleRoot (leaves : List Digest) : Digest :=
  if leaves.length = 0 then emptyRoot sha256
  else if leaves.length = 1 then leaves.headD (emptyRoot sha256)
  else
    let k := largestPow2Lt leaves.length
    nodeHash sha256 (merkleRoot (leaves.take k)) (merkleRoot (leaves.drop k))
termination_by leaves.length
decreasing_by
  · have := largestPow2Lt_lt (n := leaves.length) (by omega)
    simp only [List.length_take]
    omega
  · have := largestPow2Lt_pos (n := leaves.length) (by omega)
    simp only [List.length_drop]
    omega

/-- The two hash functions of the tree. -/
def treeHash : TreeHash Digest := ⟨emptyRoot sha256, nodeHash sha256⟩

theorem merkleRoot_eq_root (leaves : List Digest) :
    merkleRoot sha256 leaves = (treeHash sha256).root leaves := by
  induction hn : leaves.length using Nat.strong_induction_on generalizing leaves with
  | _ n ih =>
    by_cases h2 : 2 ≤ leaves.length
    · have hlt := largestPow2Lt_lt h2
      have hpos := largestPow2Lt_pos h2
      rw [merkleRoot, if_neg (by omega), if_neg (by omega), TreeHash.root_eq_node _ h2,
        ← largestPow2Lt_eq_splitSize h2]
      simp only
      rw [ih _ (by simp; omega) _ rfl, ih _ (by simp; omega) _ rfl]
      rfl
    · match leaves, h2 with
      | [], _ => simp [merkleRoot, treeHash]
      | [leaf], _ => simp [merkleRoot]
      | _ :: _ :: _, h2 => simp at h2

/-- The loop of a push: while the size has a trailing one bit, the top peak is
the left sibling of the carry. No peak where one is due is a panic. -/
def carryMerge (s level start : ℕ) (carry : Digest) (emitted : List (ℕ × ℕ × Digest)) :
    List Digest → Option (Digest × List Digest × List (ℕ × ℕ × Digest))
  | [] => if s % 2 = 1 then none else some (carry, [], emitted)
  | left :: rest =>
    if s % 2 = 1 then
      let carry := nodeHash sha256 left carry
      let start := start - 1 <<< level
      carryMerge (s >>> 1) (level + 1) start carry
        (emitted ++ [(level + 1, start >>> (level + 1), carry)]) rest
    else some (carry, left :: rest, emitted)

theorem carryMerge_even {s : ℕ} (h : s % 2 = 0) (level start : ℕ) (carry : Digest)
    (emitted : List (ℕ × ℕ × Digest)) (peaks : List Digest) :
    carryMerge sha256 s level start carry emitted peaks = some (carry, peaks, emitted) := by
  cases peaks <;> rw [carryMerge, if_neg (by omega)]

/-- Fold one leaf into the frontier; the second component lists the full
subtrees it completes as `(level, index, hash)`. -/
def Frontier.pushEmit (f : Frontier) (leaf : Digest) :
    Option (Frontier × List (ℕ × ℕ × Digest)) :=
  (carryMerge sha256 f.size 0 f.size leaf [] f.peaks).map fun (carry, peaks, emitted) =>
    (⟨f.size + 1, carry :: peaks⟩, emitted)

def Frontier.root (f : Frontier) : Digest :=
  match f.peaks with
  | [] => emptyRoot sha256
  | last :: rest => rest.foldl (fun acc p => nodeHash sha256 p acc) last

/-- The frontier of a list of leaves. -/
def frontierOf (leaves : List Digest) : Frontier :=
  ⟨leaves.length, (treeHash sha256).peaks leaves 0 leaves.length⟩

/-- The blocks above level `l` that end with the last leaf, with their roots. -/
def Completes (leaves : List Digest) (l : ℕ) (emitted : List (ℕ × ℕ × Digest)) : Prop :=
  ∀ level index hash, (level, index, hash) ∈ emitted ↔
    l < level ∧ (index + 1) * 2 ^ level = leaves.length ∧
      hash = (treeHash sha256).block leaves level index

theorem carryMerge_spec {leaves : List Digest} {s l : ℕ} (hlen : (s + 1) * 2 ^ l = leaves.length)
    (emitted : List (ℕ × ℕ × Digest)) :
    ∃ carry peaks more,
      carryMerge sha256 s l (s * 2 ^ l) ((treeHash sha256).block leaves l s) emitted
        ((treeHash sha256).peaks leaves l s) = some (carry, peaks, emitted ++ more) ∧
      carry :: peaks = (treeHash sha256).peaks leaves l (s + 1) ∧
        Completes sha256 leaves l more := by
  induction s using Nat.strong_induction_on generalizing l emitted with
  | _ s ih =>
    have hpos : 0 < 2 ^ l := by positivity
    rcases Nat.even_or_odd' s with ⟨m, rfl | rfl⟩
    · -- no trailing one: the carry is pushed, and no larger block ends here
      refine ⟨_, _, [], by rw [carryMerge_even sha256 (by omega), List.append_nil], ?_, ?_⟩
      · rw [TreeHash.peaks_odd, TreeHash.peaks_even]
      · intro level index hash
        simp only [List.not_mem_nil, false_iff, not_and]
        intro hlevel hend
        exfalso
        obtain ⟨d, rfl⟩ : ∃ d, level = l + (d + 1) := ⟨level - l - 1, by omega⟩
        have heven : (index + 1) * 2 ^ d * 2 * 2 ^ l = (2 * m + 1) * 2 ^ l := by
          rw [hlen, ← hend]
          ring
        have := Nat.eq_of_mul_eq_mul_right hpos heven
        omega
    · have hdouble : (m + 1) * 2 ^ (l + 1) = leaves.length := by
        rw [← hlen, pow_succ]
        ring
      have hstart : (2 * m + 1) * 2 ^ l - 1 <<< l = m * 2 ^ (l + 1) := by
        have : (2 * m + 1) * 2 ^ l = m * 2 ^ (l + 1) + 2 ^ l := by rw [pow_succ]; ring
        rw [Nat.one_shiftLeft, this, Nat.add_sub_cancel]
      have hindex : (m * 2 ^ (l + 1)) >>> (l + 1) = m := by
        rw [Nat.shiftRight_eq_div_pow, Nat.mul_div_cancel _ (by positivity)]
      have hhalf : (2 * m + 1) >>> 1 = m := by
        rw [Nat.shiftRight_eq_div_pow]
        omega
      have hcarry : nodeHash sha256 ((treeHash sha256).block leaves l (2 * m))
          ((treeHash sha256).block leaves l (2 * m + 1)) =
            (treeHash sha256).block leaves (l + 1) m := by
        rw [TreeHash.block_succ _ hdouble.le]
        rfl
      obtain ⟨carry, peaks, more, hrun, hpeaks, hmore⟩ := ih m (by omega) hdouble
        (emitted ++ [(l + 1, m, (treeHash sha256).block leaves (l + 1) m)])
      refine ⟨carry, peaks, (l + 1, m, (treeHash sha256).block leaves (l + 1) m) :: more, ?_, ?_,
          ?_⟩
      · rw [TreeHash.peaks_odd, carryMerge, if_pos (by omega)]
        simp only
        rw [hstart, hindex, hhalf, hcarry, hrun, List.append_assoc, List.singleton_append]
      · have hsucc : 2 * m + 1 + 1 = 2 * (m + 1) := by omega
        rw [hpeaks, hsucc, TreeHash.peaks_even]
      · intro level index hash
        rw [List.mem_cons, hmore]
        constructor
        · rintro (heq | ⟨hlevel, hend⟩)
          · obtain ⟨rfl, rfl, rfl⟩ : level = l + 1 ∧ index = m ∧ _ := by simpa using heq
            exact ⟨by omega, hdouble, rfl⟩
          · exact ⟨by omega, hend⟩
        · rintro ⟨hlevel, hend, rfl⟩
          by_cases hl : level = l + 1
          · subst level
            have : index + 1 = m + 1 :=
              Nat.eq_of_mul_eq_mul_right (by positivity) (hend.trans hdouble.symm)
            obtain rfl : index = m := by omega
            exact Or.inl rfl
          · exact Or.inr ⟨by omega, hend, rfl⟩

theorem pushEmit_spec (leaves : List Digest) (leaf : Digest) :
    ∃ emitted, (frontierOf sha256 leaves).pushEmit sha256 leaf =
        some (frontierOf sha256 (leaves ++ [leaf]), emitted) ∧
      Completes sha256 (leaves ++ [leaf]) 0 emitted := by
  have hlen : (leaves.length + 1) * 2 ^ 0 = (leaves ++ [leaf]).length := by simp
  obtain ⟨carry, peaks, more, hrun, hpeaks, hmore⟩ := carryMerge_spec sha256 hlen []
  have hblock : (treeHash sha256).block (leaves ++ [leaf]) 0 leaves.length = leaf := by
    rw [TreeHash.block_zero _ (by simp)]
    simp
  have hold : (treeHash sha256).peaks (leaves ++ [leaf]) 0 leaves.length =
      (treeHash sha256).peaks leaves 0 leaves.length :=
    TreeHash.peaks_append _ (by simp) _
  rw [hblock, hold, pow_zero, mul_one, List.nil_append] at hrun
  refine ⟨more, ?_, hmore⟩
  simp [Frontier.pushEmit, frontierOf, hrun, hpeaks]

theorem root_frontierOf (leaves : List Digest) :
    (frontierOf sha256 leaves).root sha256 = merkleRoot sha256 leaves := by
  have hbag : (treeHash sha256).bag ((treeHash sha256).peaks leaves 0 leaves.length) =
      (treeHash sha256).root leaves := TreeHash.bag_peaks _ (by simp)
  rw [merkleRoot_eq_root, ← hbag, Frontier.root, frontierOf]
  cases (treeHash sha256).peaks leaves 0 leaves.length <;> rfl

end BlueDB.Evidence
