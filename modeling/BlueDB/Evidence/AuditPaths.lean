import BlueDB.Lib.Sha256
import BlueDB.Evidence.Merkle

/-!
# Inclusion and consistency proofs against their verifiers

The proofs are built from the top, splitting at the largest power of two. The
verifiers walk the bits of a leaf index from the bottom: up to the highest bit
in which the index and the last index differ a sibling can lie on either side,
above it every sibling lies on the left. Both are followed along the splitting
of the tree, over full trees first.
-/

namespace BlueDB.Evidence

variable (sha256 : List UInt8 → Digest)

/-- The audit path of the leaf at `index`, from the bottom; an index out of
range is a panic. -/
def inclusionProof (leaves : List Digest) (index : ℕ) : Option (List Digest) :=
  if index < leaves.length then
    if leaves.length = 1 then some []
    else
      let k := largestPow2Lt leaves.length
      if index < k then
        (inclusionProof (leaves.take k) index).map (· ++ [merkleRoot sha256 (leaves.drop k)])
      else
        (inclusionProof (leaves.drop k) (index - k)).map
          (· ++ [merkleRoot sha256 (leaves.take k)])
  else none
termination_by leaves.length
decreasing_by
  · have := largestPow2Lt_lt (n := leaves.length) (by omega)
    simp only [List.length_take]
    omega
  · have := largestPow2Lt_pos (n := leaves.length) (by omega)
    simp only [List.length_drop]
    omega

/-- The nodes that show the first `m` leaves to be a prefix of `leaves`; with `b`
the verifier knows the root of the prefix. A split of fewer than two leaves
fails the assertion of `largest_pow2_lt`. -/
def subproof (m : ℕ) (leaves : List Digest) (b : Bool) : Option (List Digest) :=
  if m = leaves.length then some (if b then [] else [merkleRoot sha256 leaves])
  else if 2 ≤ leaves.length then
    let k := largestPow2Lt leaves.length
    if m ≤ k then
      (subproof m (leaves.take k) b).map (· ++ [merkleRoot sha256 (leaves.drop k)])
    else
      (subproof (m - k) (leaves.drop k) false).map (· ++ [merkleRoot sha256 (leaves.take k)])
  else none
termination_by leaves.length
decreasing_by
  · have := largestPow2Lt_lt ‹2 ≤ leaves.length›
    simp only [List.length_take]
    omega
  · have := largestPow2Lt_pos ‹2 ≤ leaves.length›
    simp only [List.length_drop]
    omega

def consistencyProof (leaves : List Digest) (first : ℕ) : Option (List Digest) :=
  if first = 0 then some [] else subproof sha256 first leaves true

def chainBorderRight (seed : Digest) (proof : List Digest) : Digest :=
  proof.foldl (fun seed h => nodeHash sha256 h seed) seed

def chainInner (seed : Digest) (proof : List Digest) (index : ℕ) : Digest :=
  proof.zipIdx.foldl (fun seed (h, i) =>
    if index.testBit i = false then nodeHash sha256 seed h else nodeHash sha256 h seed) seed

def chainInnerRight (seed : Digest) (proof : List Digest) (index : ℕ) : Digest :=
  proof.zipIdx.foldl (fun seed (h, i) =>
    if index.testBit i = true then nodeHash sha256 h seed else seed) seed

/-- Number of levels at which the leaf and the last leaf may have separate paths. -/
def innerLength (index size : ℕ) : ℕ := Nat.size (index ^^^ (size - 1))

/-- Number of left siblings above those levels. -/
def borderLength (index size : ℕ) : ℕ := countOnes (index >>> innerLength index size)

/-- The root that an audit path leads to. -/
def rootFromInclusion (leaf : Digest) (index size : ℕ) (proof : List Digest) : Option Digest :=
  if size ≤ index then none
  else
    let inner := innerLength index size
    if proof.length ≠ inner + borderLength index size then none
    else some (chainBorderRight sha256 (chainInner sha256 leaf (proof.take inner) index)
      (proof.drop inner))

/-- Whether `proof` shows the tree of `first` leaves with `root1` to be a prefix
of the tree of `second` leaves with `root2`; reading past the proof is a panic. -/
def verifyConsistency (first second : ℕ) (proof : List Digest) (root1 root2 : Digest) :
    Option Bool :=
  if second < first then some false
  else if first = second then some (proof.isEmpty && root1 == root2)
  else if first = 0 then some proof.isEmpty
  else
    let border := borderLength (first - 1) second
    let shift := trailingZeros first
    let inner := innerLength (first - 1) second - shift
    match if first = 1 <<< shift then some (root1, 0) else proof.head?.map (·, 1) with
    | none => none
    | some (seed, start) =>
      if proof.length ≠ start + inner + border then some false
      else
        let proof := proof.drop start
        let mask := (first - 1) >>> shift
        let hash1 := chainBorderRight sha256
          (chainInnerRight sha256 seed (proof.take inner) mask) (proof.drop inner)
        let hash2 := chainBorderRight sha256
          (chainInner sha256 seed (proof.take inner) mask) (proof.drop inner)
        some (hash1 == root1 && hash2 == root2)

section Split

variable {left right : List Digest} {t : ℕ}

theorem merkleRoot_append (hleft : left.length = 2 ^ t) (hpos : 0 < right.length)
    (hle : right.length ≤ 2 ^ t) :
    merkleRoot sha256 (left ++ right) =
      nodeHash sha256 (merkleRoot sha256 left) (merkleRoot sha256 right) := by
  rw [merkleRoot_eq_root, merkleRoot_eq_root, merkleRoot_eq_root,
    TreeHash.root_append _ hleft hpos hle]
  rfl

theorem largestPow2Lt_append (hleft : left.length = 2 ^ t) (hpos : 0 < right.length)
    (hle : right.length ≤ 2 ^ t) : largestPow2Lt (left ++ right).length = left.length := by
  rw [List.length_append, hleft, largestPow2Lt_two_pow_add hpos hle]

theorem inclusionProof_append_left (hleft : left.length = 2 ^ t) (hpos : 0 < right.length)
    (hle : right.length ≤ 2 ^ t) {index : ℕ} (hindex : index < 2 ^ t) :
    inclusionProof sha256 (left ++ right) index =
      (inclusionProof sha256 left index).map (· ++ [merkleRoot sha256 right]) := by
  have hlen : (left ++ right).length = 2 ^ t + right.length := by rw [List.length_append, hleft]
  rw [inclusionProof.eq_def, if_pos (by omega), if_neg (by omega)]
  simp only [largestPow2Lt_append hleft hpos hle]
  rw [if_pos (by omega), List.take_left, List.drop_left]

theorem inclusionProof_append_right (hleft : left.length = 2 ^ t) (hle : right.length ≤ 2 ^ t)
    {index : ℕ} (hindex : index < right.length) :
    inclusionProof sha256 (left ++ right) (2 ^ t + index) =
      (inclusionProof sha256 right index).map (· ++ [merkleRoot sha256 left]) := by
  have hlen : (left ++ right).length = 2 ^ t + right.length := by rw [List.length_append, hleft]
  have htwo : 0 < 2 ^ t := by positivity
  rw [inclusionProof.eq_def, if_pos (by omega), if_neg (by omega)]
  simp only [largestPow2Lt_append hleft (by omega) hle]
  rw [if_neg (by omega), List.take_left, List.drop_left, hleft, Nat.add_sub_cancel_left]

theorem subproof_append_left (hleft : left.length = 2 ^ t) (hpos : 0 < right.length)
    (hle : right.length ≤ 2 ^ t) {m : ℕ} (hm : m ≤ 2 ^ t) (b : Bool) :
    subproof sha256 m (left ++ right) b =
      (subproof sha256 m left b).map (· ++ [merkleRoot sha256 right]) := by
  have hlen : (left ++ right).length = 2 ^ t + right.length := by rw [List.length_append, hleft]
  have htwo : 0 < 2 ^ t := by positivity
  rw [subproof.eq_def, if_neg (by omega), if_pos (by omega)]
  simp only [largestPow2Lt_append hleft hpos hle]
  rw [if_pos (by omega), List.take_left, List.drop_left]

theorem subproof_append_right (hleft : left.length = 2 ^ t) (hle : right.length ≤ 2 ^ t)
    {m : ℕ} (hpos : 0 < m) (hm : m < right.length) (b : Bool) :
    subproof sha256 (2 ^ t + m) (left ++ right) b =
      (subproof sha256 m right false).map (· ++ [merkleRoot sha256 left]) := by
  have hlen : (left ++ right).length = 2 ^ t + right.length := by rw [List.length_append, hleft]
  have htwo : 0 < 2 ^ t := by positivity
  rw [subproof.eq_def, if_neg (by omega), if_pos (by omega)]
  simp only [largestPow2Lt_append hleft (by omega) hle]
  rw [if_neg (by omega), List.take_left, List.drop_left, hleft, Nat.add_sub_cancel_left]

theorem subproof_self (leaves : List Digest) (b : Bool) :
    subproof sha256 leaves.length leaves b =
      some (if b then [] else [merkleRoot sha256 leaves]) := by
  rw [subproof.eq_def, if_pos rfl]

end Split

section Walk

variable (seed h : Digest) (p : List Digest)

theorem chainBorderRight_concat :
    chainBorderRight sha256 seed (p ++ [h]) =
      nodeHash sha256 h (chainBorderRight sha256 seed p) := by
  simp [chainBorderRight]

theorem chainInner_concat (index : ℕ) :
    chainInner sha256 seed (p ++ [h]) index =
      if index.testBit p.length = false then
        nodeHash sha256 (chainInner sha256 seed p index) h
      else nodeHash sha256 h (chainInner sha256 seed p index) := by
  simp [chainInner, List.zipIdx_append]

theorem chainInnerRight_concat (index : ℕ) :
    chainInnerRight sha256 seed (p ++ [h]) index =
      if index.testBit p.length = true then
        nodeHash sha256 h (chainInnerRight sha256 seed p index)
      else chainInnerRight sha256 seed p index := by
  simp [chainInnerRight, List.zipIdx_append]

variable {seed p}

theorem chainInner_congr {a b : ℕ} (hbits : ∀ i < p.length, a.testBit i = b.testBit i) :
    chainInner sha256 seed p a = chainInner sha256 seed p b := by
  induction p using List.reverseRecOn with
  | nil => rfl
  | append_singleton p h ih =>
    rw [chainInner_concat, chainInner_concat, ih fun i hi => hbits i (by simp; omega),
      hbits p.length (by simp)]

theorem chainInnerRight_congr {a b : ℕ} (hbits : ∀ i < p.length, a.testBit i = b.testBit i) :
    chainInnerRight sha256 seed p a = chainInnerRight sha256 seed p b := by
  induction p using List.reverseRecOn with
  | nil => rfl
  | append_singleton p h ih =>
    rw [chainInnerRight_concat, chainInnerRight_concat,
      ih fun i hi => hbits i (by simp; omega), hbits p.length (by simp)]

end Walk

/-- In a full tree every level has a sibling, on the side the index bit says. -/
theorem inclusionProof_full {t : ℕ} {leaves : List Digest} (hlen : leaves.length = 2 ^ t)
    {index : ℕ} {leaf : Digest} (hleaf : leaves[index]? = some leaf) :
    ∃ p, inclusionProof sha256 leaves index = some p ∧ p.length = t ∧
      chainInner sha256 leaf p index = merkleRoot sha256 leaves := by
  revert index leaf
  apply full_induction _ _ hlen
  · intro a index leaf hleaf
    obtain ⟨rfl, rfl⟩ : index = 0 ∧ a = leaf := by simpa [List.getElem?_singleton] using hleaf
    exact ⟨[], by simp [inclusionProof], rfl, by simp [chainInner, merkleRoot]⟩
  · intro t left right hleft hright ihl ihr index leaf hleaf
    have htwo : 0 < 2 ^ t := by positivity
    by_cases hside : index < 2 ^ t
    · rw [List.getElem?_append_left (by omega)] at hleaf
      obtain ⟨p, hp, hplen, hroot⟩ := ihl hleaf
      refine ⟨p ++ [merkleRoot sha256 right], ?_, by simp [hplen], ?_⟩
      · rw [inclusionProof_append_left sha256 hleft (by omega) (by omega) hside, hp]
        rfl
      · rw [chainInner_concat, hplen, Nat.testBit_lt_two_pow hside, if_pos rfl, hroot,
          merkleRoot_append sha256 hleft (by omega) (by omega)]
    · obtain ⟨i, rfl⟩ : ∃ i, index = 2 ^ t + i := ⟨index - 2 ^ t, by omega⟩
      rw [List.getElem?_append_right (by omega), hleft, Nat.add_sub_cancel_left] at hleaf
      obtain ⟨hi, -⟩ := List.getElem?_eq_some_iff.mp hleaf
      have hlt : i < 2 ^ t := by omega
      obtain ⟨p, hp, hplen, hroot⟩ := ihr hleaf
      refine ⟨p ++ [merkleRoot sha256 left], ?_, by simp [hplen], ?_⟩
      · rw [inclusionProof_append_right sha256 hleft (by omega) hi, hp]
        rfl
      · have hsame : chainInner sha256 leaf p (2 ^ t + i) = chainInner sha256 leaf p i := by
          apply chainInner_congr
          intro j hj
          rw [testBit_two_pow_add hlt, decide_eq_false (by omega), Bool.false_or]
        rw [chainInner_concat, hplen, testBit_two_pow_add hlt, hsame, hroot,
          merkleRoot_append sha256 hleft (by omega) (by omega)]
        simp

theorem rootFromInclusion_eq_some {leaf root : Digest} {index size : ℕ} {p : List Digest} :
    rootFromInclusion sha256 leaf index size p = some root ↔
      index < size ∧ p.length = innerLength index size + borderLength index size ∧
        chainBorderRight sha256 (chainInner sha256 leaf (p.take (innerLength index size)) index)
          (p.drop (innerLength index size)) = root := by
  unfold rootFromInclusion
  by_cases hsize : size ≤ index
  · rw [if_pos hsize]
    simp [Nat.not_lt.mpr hsize]
  · rw [if_neg hsize]
    by_cases hlen : p.length = innerLength index size + borderLength index size
    · simp [hlen, Nat.lt_of_not_le hsize]
    · simp [hlen]

/-- In the left part every level up to the split belongs to the inner walk. -/
theorem innerLength_left {t i r : ℕ} (hi : i < 2 ^ t) (hpos : 0 < r) (hle : r ≤ 2 ^ t) :
    innerLength i (2 ^ t + r) = t + 1 ∧ borderLength i (2 ^ t + r) = 0 := by
  have hlast : 2 ^ t + r - 1 = 2 ^ t + (r - 1) := by omega
  have hinner : innerLength i (2 ^ t + r) = t + 1 := by
    rw [innerLength, hlast, size_xor_two_pow_add hi (by omega)]
  have hzero : i >>> (t + 1) = 0 := by
    rw [Nat.shiftRight_eq_div_pow]
    apply Nat.div_eq_of_lt
    rw [pow_succ]
    omega
  exact ⟨hinner, by rw [borderLength, hinner, hzero, countOnes_zero]⟩

/-- In the right part the split adds one left sibling to the border. -/
theorem innerLength_right {t i r : ℕ} (hi : i < r) (hle : r ≤ 2 ^ t) :
    innerLength (2 ^ t + i) (2 ^ t + r) = innerLength i r ∧ innerLength i r ≤ t ∧
      borderLength (2 ^ t + i) (2 ^ t + r) = borderLength i r + 1 := by
  have hlast : 2 ^ t + r - 1 = 2 ^ t + (r - 1) := by omega
  have hinner : innerLength (2 ^ t + i) (2 ^ t + r) = innerLength i r := by
    rw [innerLength, hlast, two_pow_add_xor (by omega) (by omega), innerLength]
  have hle : innerLength i r ≤ t := size_xor_le (by omega) (by omega)
  exact ⟨hinner, hle, by rw [borderLength, hinner, countOnes_two_pow_add_shiftRight (by omega) hle,
    borderLength]⟩

theorem rootFromInclusion_inclusionProof {leaves : List Digest} {index : ℕ} {leaf : Digest}
    (hleaf : leaves[index]? = some leaf) :
    ∃ p, inclusionProof sha256 leaves index = some p ∧
      rootFromInclusion sha256 leaf index leaves.length p = some (merkleRoot sha256 leaves) := by
  have hne : leaves ≠ [] := by
    rintro rfl
    simp at hleaf
  revert index leaf
  apply split_induction _ _ leaves hne
  · intro a index leaf hleaf
    obtain ⟨rfl, rfl⟩ : index = 0 ∧ a = leaf := by simpa [List.getElem?_singleton] using hleaf
    exact ⟨[], by simp [inclusionProof], by
      simp [rootFromInclusion, innerLength, borderLength, countOnes, chainInner, chainBorderRight,
        merkleRoot]⟩
  · intro t left right hleft hpos hle _ ihr index leaf hleaf
    have hlen : (left ++ right).length = 2 ^ t + right.length := by rw [List.length_append, hleft]
    by_cases hside : index < 2 ^ t
    · rw [List.getElem?_append_left (by omega)] at hleaf
      obtain ⟨p, hp, hplen, hroot⟩ := inclusionProof_full sha256 hleft hleaf
      obtain ⟨hinner, hborder⟩ := innerLength_left hside hpos hle
      have hptake : (p ++ [merkleRoot sha256 right]).length = t + 1 := by simp [hplen]
      refine ⟨p ++ [merkleRoot sha256 right], ?_, ?_⟩
      · rw [inclusionProof_append_left sha256 hleft hpos hle hside, hp]
        rfl
      · rw [rootFromInclusion_eq_some, hlen, hinner, hborder]
        refine ⟨by omega, hptake, ?_⟩
        rw [← hptake, List.take_length, List.drop_length, chainInner_concat, hplen,
          Nat.testBit_lt_two_pow hside, if_pos rfl, hroot, merkleRoot_append sha256 hleft hpos hle]
        rfl
    · obtain ⟨i, rfl⟩ : ∃ i, index = 2 ^ t + i := ⟨index - 2 ^ t, by omega⟩
      rw [List.getElem?_append_right (by omega), hleft, Nat.add_sub_cancel_left] at hleaf
      obtain ⟨hi, -⟩ := List.getElem?_eq_some_iff.mp hleaf
      obtain ⟨p, hp, hroot⟩ := ihr hleaf
      rw [rootFromInclusion_eq_some] at hroot
      obtain ⟨-, hplen, hwalk⟩ := hroot
      obtain ⟨hinner, hle', hborder⟩ := innerLength_right hi hle
      refine ⟨p ++ [merkleRoot sha256 left], ?_, ?_⟩
      · rw [inclusionProof_append_right sha256 hleft hle hi, hp]
        rfl
      · have hsame : chainInner sha256 leaf (p.take (innerLength i right.length)) (2 ^ t + i) =
            chainInner sha256 leaf (p.take (innerLength i right.length)) i := by
          apply chainInner_congr
          intro j hj
          rw [List.length_take] at hj
          rw [testBit_two_pow_add (by omega), decide_eq_false (by omega), Bool.false_or]
        rw [rootFromInclusion_eq_some, hlen, hinner, hborder]
        refine ⟨by omega, by rw [List.length_append, hplen, List.length_singleton]; omega, ?_⟩
        rw [List.take_append_of_le_length (by omega), List.drop_append_of_le_length (by omega),
          chainBorderRight_concat, hsame, hwalk, merkleRoot_append sha256 hleft hpos hle]

/-- Every audit path leads its verifier from the leaf to the root. -/
theorem inclusion_proof_verifies (leaves : List Digest) (size index : ℕ)
    (hsize : size ≤ leaves.length) (hindex : index < size) :
    ∃ p, inclusionProof sha256 (leaves.take size) index = some p ∧
      rootFromInclusion sha256 (leaves.get ⟨index, hindex.trans_le hsize⟩) index size p =
        some (merkleRoot sha256 (leaves.take size)) := by
  have hleaf : (leaves.take size)[index]? = some (leaves.get ⟨index, hindex.trans_le hsize⟩) := by
    rw [List.getElem?_take_of_lt hindex]
    exact List.getElem?_eq_getElem _
  obtain ⟨p, hp, hroot⟩ := rootFromInclusion_inclusionProof sha256 hleaf
  rw [List.length_take, Nat.min_eq_left hsize] at hroot
  exact ⟨p, hp, hroot⟩

/-- The leaf hashes of three one-byte leaves. -/
def threeLeaves : List Digest := [Sha256.hash [0, 1], Sha256.hash [0, 2], Sha256.hash [0, 3]]

theorem inclusion_proof_verifies_three :
    ∃ p, inclusionProof Sha256.hash (threeLeaves.take 3) 2 = some p ∧
      rootFromInclusion Sha256.hash (Sha256.hash [0, 3]) 2 3 p =
        some (merkleRoot Sha256.hash (threeLeaves.take 3)) :=
  inclusion_proof_verifies Sha256.hash threeLeaves 3 2 (by simp [threeLeaves]) (by decide)

/-- The bits of a prefix size that a walk from its lowest full subtree follows. -/
def walkMask (m : ℕ) : ℕ := (m - 1) >>> trailingZeros m

theorem testBit_walkMask (m j : ℕ) :
    (walkMask m).testBit j = (m - 1).testBit (trailingZeros m + j) := by
  rw [walkMask, Nat.testBit_shiftRight]

theorem testBit_walkMask_two_pow_add {t m j : ℕ} (hpos : 0 < m) (hlt : m < 2 ^ t)
    (hj : j < t - trailingZeros m) : (walkMask (2 ^ t + m)).testBit j = (walkMask m).testBit j := by
  have hsub : 2 ^ t + m - 1 = 2 ^ t + (m - 1) := by omega
  rw [testBit_walkMask, testBit_walkMask, trailingZeros_two_pow_add hpos hlt, hsub,
    testBit_two_pow_add (by omega), decide_eq_false (by omega), Bool.false_or]

theorem testBit_walkMask_left {m t k : ℕ} (hpos : 0 < m) (hm : m ≤ 2 ^ t)
    (hk : k = t - trailingZeros m) : (walkMask m).testBit k = false := by
  rw [testBit_walkMask, hk, Nat.add_sub_cancel' (trailingZeros_le hpos hm)]
  exact Nat.testBit_lt_two_pow (by omega)

/-- In a full tree the proof starts with the lowest full subtree of the prefix,
and the walk from it reaches the root of the prefix and that of the tree. -/
theorem subproof_full {t : ℕ} {leaves : List Digest} (hlen : leaves.length = 2 ^ t) {m : ℕ}
    (hpos : 0 < m) (hm : m ≤ 2 ^ t) :
    ∃ seed p, subproof sha256 m leaves false = some (seed :: p) ∧
      p.length = t - trailingZeros m ∧
      chainInner sha256 seed p (walkMask m) = merkleRoot sha256 leaves ∧
      chainInnerRight sha256 seed p (walkMask m) = merkleRoot sha256 (leaves.take m) := by
  have hwhole : ∀ {t : ℕ} {leaves : List Digest}, leaves.length = 2 ^ t →
      ∃ seed p, subproof sha256 (2 ^ t) leaves false = some (seed :: p) ∧
        p.length = t - trailingZeros (2 ^ t) ∧
        chainInner sha256 seed p (walkMask (2 ^ t)) = merkleRoot sha256 leaves ∧
        chainInnerRight sha256 seed p (walkMask (2 ^ t)) =
          merkleRoot sha256 (leaves.take (2 ^ t)) := by
    intro t leaves hlen
    rw [trailingZeros_two_pow, ← hlen, subproof_self, List.take_length]
    exact ⟨_, [], rfl, by simp, rfl, rfl⟩
  revert m
  apply full_induction _ _ hlen
  · intro a m hpos hm
    obtain rfl : m = 2 ^ 0 := by
      rw [pow_zero] at hm ⊢
      omega
    exact hwhole (by simp)
  · intro t left right hleft hright ihl ihr m hpos hm
    have htwo : 0 < 2 ^ t := by positivity
    have hjoin : (left ++ right).length = 2 ^ (t + 1) := by
      rw [List.length_append, hleft, hright, pow_succ]
      omega
    rw [pow_succ] at hm
    by_cases hside : m ≤ 2 ^ t
    · obtain ⟨seed, p, hp, hplen, hroot, hfirst⟩ := ihl hpos hside
      have hzeros : trailingZeros m ≤ t := trailingZeros_le hpos hside
      have hbit := testBit_walkMask_left hpos hside hplen
      refine ⟨seed, p ++ [merkleRoot sha256 right], ?_, ?_, ?_, ?_⟩
      · rw [subproof_append_left sha256 hleft (by omega) (by omega) hside, hp]
        rfl
      · rw [List.length_append, hplen, List.length_singleton]
        omega
      · rw [chainInner_concat, hbit, if_pos rfl, hroot,
          merkleRoot_append sha256 hleft (by omega) (by omega)]
      · rw [chainInnerRight_concat, hbit, if_neg (by simp), hfirst,
          List.take_append_of_le_length (by omega)]
    · by_cases hfull : m = 2 ^ (t + 1)
      · subst m
        exact hwhole hjoin
      · rw [pow_succ] at hfull
        obtain ⟨m, rfl⟩ : ∃ m', m = 2 ^ t + m' := ⟨m - 2 ^ t, by omega⟩
        have hmpos : 0 < m := by omega
        have hmlt : m < 2 ^ t := by omega
        obtain ⟨seed, p, hp, hplen, hroot, hfirst⟩ := ihr hmpos hmlt.le
        have hzeros : trailingZeros m ≤ t := trailingZeros_le hmpos hmlt.le
        have hbit : (walkMask (2 ^ t + m)).testBit p.length = true := by
          have hsub : 2 ^ t + m - 1 = 2 ^ t + (m - 1) := by omega
          rw [testBit_walkMask, trailingZeros_two_pow_add hmpos hmlt, hplen,
            Nat.add_sub_cancel' hzeros, hsub, testBit_two_pow_add (by omega)]
          simp
        have hsame : ∀ i < p.length,
            (walkMask (2 ^ t + m)).testBit i = (walkMask m).testBit i := by
          intro i hi
          exact testBit_walkMask_two_pow_add hmpos hmlt (by omega)
        refine ⟨seed, p ++ [merkleRoot sha256 left], ?_, ?_, ?_, ?_⟩
        · rw [subproof_append_right sha256 hleft (by omega) hmpos (by omega), hp]
          rfl
        · rw [List.length_append, hplen, List.length_singleton,
            trailingZeros_two_pow_add hmpos hmlt]
          omega
        · rw [chainInner_concat, hbit, if_neg (by simp), chainInner_congr sha256 hsame, hroot,
            merkleRoot_append sha256 hleft (by omega) (by omega)]
        · have htake : (left ++ right).take (2 ^ t + m) = left ++ right.take m := by
            rw [← hleft, List.take_length_add_append]
          rw [chainInnerRight_concat, hbit, if_pos rfl, chainInnerRight_congr sha256 hsame, hfirst,
            htake, merkleRoot_append sha256 hleft (by simp; omega) (by simp; omega)]

/-- The walk of the consistency verifier from `seed` over the whole proof. -/
structure Walks (m : ℕ) (leaves : List Digest) (seed : Digest) (p : List Digest) : Prop where
  shift_le : trailingZeros m ≤ innerLength (m - 1) leaves.length
  length : p.length = innerLength (m - 1) leaves.length - trailingZeros m +
    borderLength (m - 1) leaves.length
  root : chainBorderRight sha256
    (chainInner sha256 seed (p.take (innerLength (m - 1) leaves.length - trailingZeros m))
      (walkMask m)) (p.drop (innerLength (m - 1) leaves.length - trailingZeros m)) =
    merkleRoot sha256 leaves
  first_root : chainBorderRight sha256
    (chainInnerRight sha256 seed (p.take (innerLength (m - 1) leaves.length - trailingZeros m))
      (walkMask m)) (p.drop (innerLength (m - 1) leaves.length - trailingZeros m)) =
    merkleRoot sha256 (leaves.take m)

theorem subproof_walks {leaves : List Digest} {m : ℕ} (hpos : 0 < m) (hm : m < leaves.length) :
    ∃ seed p, subproof sha256 m leaves false = some (seed :: p) ∧ Walks sha256 m leaves seed p := by
  have hne : leaves ≠ [] := List.ne_nil_of_length_pos (by omega)
  revert m
  apply split_induction _ _ leaves hne
  · intro a m hpos hm
    rw [List.length_singleton] at hm
    omega
  · intro t left right hleft hright hle _ ihr m hpos hm
    have htwo : 0 < 2 ^ t := by positivity
    have hlen : (left ++ right).length = 2 ^ t + right.length := by rw [List.length_append, hleft]
    by_cases hside : m ≤ 2 ^ t
    · obtain ⟨seed, p, hp, hplen, hroot, hfirst⟩ := subproof_full sha256 hleft hpos hside
      obtain ⟨hinner, hborder⟩ := innerLength_left (i := m - 1) (by omega) hright hle
      have hzeros : trailingZeros m ≤ t := trailingZeros_le hpos hside
      have hbit := testBit_walkMask_left hpos hside hplen
      have hplen' : (p ++ [merkleRoot sha256 right]).length = t + 1 - trailingZeros m := by
        rw [List.length_append, hplen, List.length_singleton]
        omega
      refine ⟨seed, p ++ [merkleRoot sha256 right], ?_, ?_, ?_, ?_, ?_⟩
      · rw [subproof_append_left sha256 hleft hright hle hside, hp]
        rfl
      · rw [hlen, hinner]
        omega
      · rw [hlen, hinner, hborder, hplen']
        rfl
      · rw [hlen, hinner, ← hplen', List.take_length, List.drop_length, chainInner_concat, hbit,
          if_pos rfl, hroot, merkleRoot_append sha256 hleft hright hle]
        rfl
      · rw [hlen, hinner, ← hplen', List.take_length, List.drop_length, chainInnerRight_concat,
          hbit, if_neg (by simp), hfirst, List.take_append_of_le_length (by omega)]
        rfl
    · obtain ⟨m, rfl⟩ : ∃ m', m = 2 ^ t + m' := ⟨m - 2 ^ t, by omega⟩
      have hmpos : 0 < m := by omega
      have hmlt : m < right.length := by omega
      obtain ⟨seed, p, hp, hshift, hplen, hroot, hfirst⟩ := ihr hmpos hmlt
      have hsub : 2 ^ t + m - 1 = 2 ^ t + (m - 1) := by omega
      have hzeros := trailingZeros_two_pow_add hmpos (hmlt.trans_le hle)
      obtain ⟨hinner, hle', hborder⟩ := innerLength_right (i := m - 1) (r := right.length)
        (by omega) hle
      have hsame : ∀ i < (p.take (innerLength (m - 1) right.length - trailingZeros m)).length,
          (walkMask (2 ^ t + m)).testBit i = (walkMask m).testBit i := by
        intro i hi
        rw [List.length_take] at hi
        exact testBit_walkMask_two_pow_add hmpos (hmlt.trans_le hle) (by omega)
      refine ⟨seed, p ++ [merkleRoot sha256 left], ?_, ?_, ?_, ?_, ?_⟩
      · rw [subproof_append_right sha256 hleft hle hmpos hmlt, hp]
        rfl
      · rw [hlen, hsub, hinner, hzeros]
        exact hshift
      · rw [hlen, hsub, hinner, hborder, hzeros, List.length_append, hplen, List.length_singleton,
          Nat.add_assoc]
      · rw [hlen, hsub, hinner, hzeros, List.take_append_of_le_length (by omega),
          List.drop_append_of_le_length (by omega), chainBorderRight_concat,
          chainInner_congr sha256 hsame, hroot, merkleRoot_append sha256 hleft hright hle]
      · have htake : (left ++ right).take (2 ^ t + m) = left ++ right.take m := by
          rw [← hleft, List.take_length_add_append]
        rw [hlen, hsub, hinner, hzeros, List.take_append_of_le_length (by omega),
          List.drop_append_of_le_length (by omega), chainBorderRight_concat,
          chainInnerRight_congr sha256 hsame, hfirst, htake,
          merkleRoot_append sha256 hleft (by simp; omega) (by simp; omega)]

/-- A prefix that is itself a full subtree is left out of the proof when the
verifier knows its root; nothing else changes. -/
theorem subproof_true {leaves : List Digest} {m : ℕ} (hpos : 0 < m) (hm : m < leaves.length) :
    (m = 2 ^ trailingZeros m → subproof sha256 m leaves false =
      (subproof sha256 m leaves true).map (merkleRoot sha256 (leaves.take m) :: ·)) ∧
    (m ≠ 2 ^ trailingZeros m → subproof sha256 m leaves true = subproof sha256 m leaves false) := by
  have hne : leaves ≠ [] := List.ne_nil_of_length_pos (by omega)
  revert m
  apply split_induction _ _ leaves hne
  · intro a m hpos hm
    rw [List.length_singleton] at hm
    omega
  · intro t left right hleft hright hle ihl _ m hpos hm
    have hlen : (left ++ right).length = 2 ^ t + right.length := by rw [List.length_append, hleft]
    by_cases hside : m ≤ 2 ^ t
    · rw [subproof_append_left sha256 hleft hright hle hside,
        subproof_append_left sha256 hleft hright hle hside,
        List.take_append_of_le_length (by omega)]
      by_cases hall : m = 2 ^ t
      · subst m
        rw [← hleft, subproof_self, subproof_self, List.take_length]
        constructor
        · intro _
          rfl
        · intro hpow
          rw [hleft, trailingZeros_two_pow] at hpow
          exact absurd rfl hpow
      · obtain ⟨hpow, hnot⟩ := ihl hpos (by omega)
        constructor
        · intro h
          rw [hpow h, Option.map_map, Option.map_map]
          rfl
        · intro h
          rw [hnot h]
    · obtain ⟨m, rfl⟩ : ∃ m', m = 2 ^ t + m' := ⟨m - 2 ^ t, by omega⟩
      have hmpos : 0 < m := by omega
      have hmlt : m < right.length := by omega
      constructor
      · -- `2 ^ t + m` lies strictly between two powers of two
        intro hpow
        exfalso
        have hzeros := trailingZeros_two_pow_add hmpos (hmlt.trans_le hle)
        have hsmall : trailingZeros m ≤ t := trailingZeros_le hmpos (hmlt.le.trans hle)
        have : 2 ^ trailingZeros m ≤ 2 ^ t := Nat.pow_le_pow_right (by omega) hsmall
        rw [hzeros] at hpow
        omega
      · intro _
        rw [subproof_append_right sha256 hleft hle hmpos hmlt,
          subproof_append_right sha256 hleft hle hmpos hmlt]

theorem verifyConsistency_of_walks {leaves : List Digest} {m : ℕ} {seed : Digest}
    {p proof : List Digest} (hpos : 0 < m) (hm : m < leaves.length)
    (hwalk : Walks sha256 m leaves seed p)
    (hproof : if m = 2 ^ trailingZeros m then seed = merkleRoot sha256 (leaves.take m) ∧ proof = p
      else proof = seed :: p) :
    verifyConsistency sha256 m leaves.length proof (merkleRoot sha256 (leaves.take m))
      (merkleRoot sha256 leaves) = some true := by
  have hmask : (m - 1) >>> trailingZeros m = walkMask m := rfl
  unfold verifyConsistency
  rw [if_neg (by omega), if_neg (by omega), if_neg (by omega)]
  simp only [Nat.one_shiftLeft, hmask]
  by_cases hpow : m = 2 ^ trailingZeros m
  · rw [if_pos hpow] at hproof ⊢
    obtain ⟨rfl, rfl⟩ := hproof
    simp [hwalk.length, hwalk.root, hwalk.first_root]
  · rw [if_neg hpow] at hproof ⊢
    subst proof
    simp [hwalk.length, hwalk.root, hwalk.first_root, Nat.add_comm, Nat.add_left_comm]

/-- Every consistency proof is accepted against the roots of both sizes. -/
theorem consistency_proof_verifies (leaves : List Digest) (first second : ℕ) (hpos : 1 ≤ first)
    (hle : first ≤ second) (hsecond : second ≤ leaves.length) :
    ∃ proof, consistencyProof sha256 (leaves.take second) first = some proof ∧
      verifyConsistency sha256 first second proof (merkleRoot sha256 (leaves.take first))
        (merkleRoot sha256 (leaves.take second)) = some true := by
  have hlen : (leaves.take second).length = second := by
    rw [List.length_take, Nat.min_eq_left hsecond]
  have htake : (leaves.take second).take first = leaves.take first := by
    rw [List.take_take, Nat.min_eq_left hle]
  rw [consistencyProof, if_neg (by omega)]
  rcases Nat.eq_or_lt_of_le hle with rfl | hlt
  · have hself := subproof_self sha256 (leaves.take first) true
    rw [hlen] at hself
    exact ⟨[], hself, by simp [verifyConsistency]⟩
  · generalize leaves.take second = tree at hlen htake
    rw [← htake, ← hlen]
    rw [← hlen] at hlt
    obtain ⟨seed, p, hp, hwalk⟩ := subproof_walks sha256 hpos hlt
    obtain ⟨hpow, hnot⟩ := subproof_true sha256 hpos hlt
    by_cases h : first = 2 ^ trailingZeros first
    · rw [hpow h, Option.map_eq_some_iff] at hp
      obtain ⟨proof, hproof, hcons⟩ := hp
      obtain ⟨rfl, rfl⟩ := List.cons.inj hcons
      exact ⟨proof, hproof, verifyConsistency_of_walks sha256 hpos hlt hwalk
        (by rw [if_pos h]; exact ⟨rfl, rfl⟩)⟩
    · exact ⟨seed :: p, (hnot h).trans hp, verifyConsistency_of_walks sha256 hpos hlt hwalk
        (by rw [if_neg h])⟩

theorem consistency_proof_verifies_three :
    ∃ proof, consistencyProof Sha256.hash (threeLeaves.take 3) 2 = some proof ∧
      verifyConsistency Sha256.hash 2 3 proof (merkleRoot Sha256.hash (threeLeaves.take 2))
        (merkleRoot Sha256.hash (threeLeaves.take 3)) = some true :=
  consistency_proof_verifies Sha256.hash threeLeaves 2 3 (by decide) (by decide)
      (by simp [threeLeaves])

end BlueDB.Evidence
