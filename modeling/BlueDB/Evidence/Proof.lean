import BlueDB.Evidence.AuditPaths
import BlueDB.Evidence.History

/-!
# Proofs from persisted nodes

The served proofs read one node for every aligned full range and the leaf hash
of an entry record for a single leaf. On a verified chain all of these are
there, for every size the chain ever had, and what is served is the proof of the
reference recursion over the leaf hashes.
-/

namespace BlueDB.Evidence

variable (sha256 : List UInt8 → Digest)

section Storage

variable (s : Store) (t c : Name)

def isPowerOfTwo (n : ℕ) : Bool := n == 1 <<< trailingZeros n

/-- Root over the leaves `[lo, hi)`. An empty range fails the assertion of
`largest_pow2_lt`. -/
def subtreeRoot (lo hi : ℕ) : Except EvidenceError Digest :=
  if hi - lo = 1 then
    match getEntry s t c (lo + 1) with
    | none => .error (.storage s!"entry {lo + 1} missing for proof")
    | some rec =>
      match rec.leafHash with
      | none => .error (.storage s!"entry {lo + 1} has no leaf_hash")
      | some hash => .ok hash
  else if isPowerOfTwo (hi - lo) ∧ lo % (hi - lo) = 0 then
    let level := trailingZeros (hi - lo)
    let index := lo >>> level
    match getMerkleNode s t c level index with
    | none => .error (.storage s!"merkle node (L{level},{index}) missing")
    | some hash => .ok hash
  else if 2 ≤ hi - lo then do
    let k := largestPow2Lt (hi - lo)
    let left ← subtreeRoot lo (lo + k)
    let right ← subtreeRoot (lo + k) hi
    return nodeHash sha256 left right
  else .error (.storage "assertion failed: n >= 2")
termination_by hi - lo
decreasing_by
  · have := largestPow2Lt_lt ‹2 ≤ hi - lo›
    omega
  · have := largestPow2Lt_pos ‹2 ≤ hi - lo›
    omega

def incl (lo hi index : ℕ) : Except EvidenceError (List Digest) :=
  if hi - lo = 1 then .ok []
  else if 2 ≤ hi - lo then do
    let mid := lo + largestPow2Lt (hi - lo)
    if index < mid then do
      let p ← incl lo mid index
      let sibling ← subtreeRoot sha256 s t c mid hi
      return p ++ [sibling]
    else do
      let p ← incl mid hi index
      let sibling ← subtreeRoot sha256 s t c lo mid
      return p ++ [sibling]
  else .error (.storage "assertion failed: n >= 2")
termination_by hi - lo
decreasing_by
  · have := largestPow2Lt_lt ‹2 ≤ hi - lo›
    omega
  · have := largestPow2Lt_pos ‹2 ≤ hi - lo›
    omega

/-- Audit path of the leaf `index` in the tree of `size` leaves. -/
def proofInclusion (index size : ℕ) : Except EvidenceError (List Digest) :=
  incl sha256 s t c 0 size index

def storedSubproof (m lo hi : ℕ) (b : Bool) : Except EvidenceError (List Digest) :=
  if m = hi - lo then
    if b then .ok [] else (subtreeRoot sha256 s t c lo hi).map ([·])
  else if 2 ≤ hi - lo then
    let k := largestPow2Lt (hi - lo)
    if m ≤ k then do
      let p ← storedSubproof m lo (lo + k) b
      let sibling ← subtreeRoot sha256 s t c (lo + k) hi
      return p ++ [sibling]
    else do
      let p ← storedSubproof (m - k) (lo + k) hi false
      let sibling ← subtreeRoot sha256 s t c lo (lo + k)
      return p ++ [sibling]
  else .error (.storage "assertion failed: n >= 2")
termination_by hi - lo
decreasing_by
  · have := largestPow2Lt_lt ‹2 ≤ hi - lo›
    omega
  · have := largestPow2Lt_pos ‹2 ≤ hi - lo›
    omega

def proofConsistency (first second : ℕ) : Except EvidenceError (List Digest) :=
  if first = 0 then .ok [] else storedSubproof sha256 s t c first 0 second true

end Storage

structure TreeDigest where
  size : ℕ
  root : Digest
  deriving DecidableEq

structure InclusionProof where
  seq : ℤ
  size : ℤ
  auditPath : List Digest
  deriving DecidableEq

structure ConsistencyProof where
  first : ℤ
  second : ℤ
  proof : List Digest
  deriving DecidableEq

section Requests

variable (s : Store) (t c : Name)

def requireVerified : Except EvidenceError Unit :=
  match getChainMeta s t c with
  | some m => if m.verified then .ok () else .error (.notVerified c)
  | none => .ok ()

def digest : Except EvidenceError TreeDigest := do
  requireVerified s t c
  match getFrontier s t c with
  | some f => return ⟨f.size, f.root sha256⟩
  | none => return ⟨0, emptyRoot sha256⟩

def inclusion (seq : ℤ) (size : Option ℤ) : Except EvidenceError InclusionProof := do
  requireVerified s t c
  let head : ℤ := getSeq s t c
  let size := size.getD head
  if size < 1 ∨ head < size then
    .error (.invalidArgument s!"size {size} out of range (head={head})")
  else if seq < 1 then
    .error (.invalidArgument s!"seq {seq} out of range (size={size})")
  else if size < seq then .error (.entryNotFound c seq)
  else do
    let auditPath ← proofInclusion sha256 s t c (seq - 1).toNat size.toNat
    return ⟨seq, size, auditPath⟩

def consistency (first : ℤ) (second : Option ℤ) : Except EvidenceError ConsistencyProof := do
  requireVerified s t c
  let head : ℤ := getSeq s t c
  let second := second.getD head
  if first < 1 ∨ second < first ∨ head < second then
    .error (.invalidArgument
      s!"require 1 <= first <= second <= head ({first}, {second}, head={head})")
  else do
    let proof ← proofConsistency sha256 s t c first.toNat second.toNat
    return ⟨first, second, proof⟩

end Requests

/-- The records hold the leaf hashes and the nodes of `leaves`. -/
structure StoresTree (s : Store) (t c : Name) (leaves : List Digest) : Prop where
  leaf : ∀ i, (h : i < leaves.length) → ∃ rec : EntryRecord,
    getEntry s t c (i + 1) = some rec ∧ rec.leafHash = some leaves[i]
  nodes : NodesComplete sha256 (getMerkleNode s t c) leaves

theorem isPowerOfTwo_iff {n : ℕ} : isPowerOfTwo n = true ↔ n = 2 ^ trailingZeros n := by
  rw [isPowerOfTwo, beq_iff_eq, Nat.one_shiftLeft]

theorem merkleRoot_slice_split {leaves : List Digest} {lo hi t : ℕ} (hhi : hi ≤ leaves.length)
    (hlt : lo + 2 ^ t < hi) (hle : hi ≤ lo + 2 ^ t + 2 ^ t) :
    merkleRoot sha256 (slice leaves lo hi) =
      nodeHash sha256 (merkleRoot sha256 (slice leaves lo (lo + 2 ^ t)))
        (merkleRoot sha256 (slice leaves (lo + 2 ^ t) hi)) := by
  simp only [merkleRoot_eq_root]
  exact TreeHash.root_slice_split _ hhi hlt hle

section StoresTree

variable {s : Store} {t c : Name} {leaves : List Digest}

/-- A range of at least two leaves splits behind a full left part. -/
theorem exists_largestPow2Lt {lo hi : ℕ} (h : 2 ≤ hi - lo) :
    ∃ n, largestPow2Lt (hi - lo) = 2 ^ n ∧ lo + 2 ^ n < hi ∧ hi ≤ lo + 2 ^ n + 2 ^ n := by
  obtain ⟨n, r, hsum, hpos, hle⟩ := exists_two_pow_add h
  refine ⟨n, ?_, by omega, by omega⟩
  rw [hsum, largestPow2Lt_two_pow_add hpos hle]

theorem subtreeRoot_eq (hs : StoresTree sha256 s t c leaves) {lo hi : ℕ} (hlo : lo < hi)
    (hhi : hi ≤ leaves.length) :
    subtreeRoot sha256 s t c lo hi = .ok (merkleRoot sha256 (slice leaves lo hi)) := by
  induction hn : hi - lo using Nat.strong_induction_on generalizing lo hi with
  | _ n ih =>
    rw [subtreeRoot]
    by_cases hone : hi - lo = 1
    · obtain rfl : hi = lo + 1 := by omega
      obtain ⟨rec, hrec, hleaf⟩ := hs.leaf lo (by omega)
      rw [if_pos hone, slice_succ (by omega), merkleRoot_eq_root, TreeHash.root_singleton]
      simp only [hrec, hleaf]
    rw [if_neg hone]
    by_cases hnode : isPowerOfTwo (hi - lo) ∧ lo % (hi - lo) = 0
    · -- an aligned full range is the block of one persisted node
      have hpow := isPowerOfTwo_iff.mp hnode.1
      generalize trailingZeros (hi - lo) = level at hpow
      have hstart : lo = lo / 2 ^ level * 2 ^ level := by
        rw [← hpow]
        exact (Nat.div_mul_cancel (Nat.dvd_of_mod_eq_zero hnode.2)).symm
      have hend : hi = (lo / 2 ^ level + 1) * 2 ^ level := by
        rw [Nat.add_mul, one_mul, ← hstart, ← hpow]
        omega
      have hpos : 1 ≤ level := by
        rcases Nat.eq_zero_or_pos level with rfl | hpos
        · exact absurd hpow hone
        · exact hpos
      have hget := hs.nodes level (lo / 2 ^ level) hpos (by rw [← hend]; exact hhi)
      rw [TreeHash.block, ← hstart, ← hend, ← merkleRoot_eq_root] at hget
      rw [if_pos hnode]
      simp only [Nat.shiftRight_eq_div_pow, hget]
    · have htwo : 2 ≤ hi - lo := by omega
      obtain ⟨d, hd, hlt, hle⟩ := exists_largestPow2Lt htwo
      have hpos : 0 < 2 ^ d := by positivity
      have hleft := @ih (lo + 2 ^ d - lo) (by omega) lo (lo + 2 ^ d) (by omega) (by omega) rfl
      have hright := ih (hi - (lo + 2 ^ d)) (by omega) hlt hhi rfl
      rw [if_neg hnode, if_pos htwo, merkleRoot_slice_split sha256 hhi hlt hle]
      simp only [hd]
      rw [hleft, hright]
      rfl

theorem incl_eq (hs : StoresTree sha256 s t c leaves) {lo hi index : ℕ} (hlo : lo ≤ index)
    (hindex : index < hi) (hhi : hi ≤ leaves.length) :
    ∃ p, incl sha256 s t c lo hi index = .ok p ∧
      inclusionProof sha256 (slice leaves lo hi) (index - lo) = some p := by
  induction hn : hi - lo using Nat.strong_induction_on generalizing lo hi with
  | _ n ih =>
    rw [incl]
    by_cases hone : hi - lo = 1
    · refine ⟨[], if_pos hone, ?_⟩
      rw [inclusionProof, length_slice hhi, if_pos (by omega), if_pos hone]
    have htwo : 2 ≤ hi - lo := by omega
    obtain ⟨d, hd, hlt, hle⟩ := exists_largestPow2Lt htwo
    have hpos : 0 < 2 ^ d := by positivity
    have hleft : (slice leaves lo (lo + 2 ^ d)).length = 2 ^ d := by
      rw [length_slice (by omega)]
      omega
    have hright : (slice leaves (lo + 2 ^ d) hi).length = hi - (lo + 2 ^ d) := length_slice hhi
    rw [if_neg hone, if_pos htwo, ← slice_append_slice (m := lo + 2 ^ d) (by omega) hlt.le]
    simp only [hd]
    by_cases hside : index < lo + 2 ^ d
    · obtain ⟨p, hp, hproof⟩ := ih (lo + 2 ^ d - lo) (by omega) hlo hside (by omega) rfl
      rw [if_pos hside, hp, subtreeRoot_eq sha256 hs hlt hhi,
        inclusionProof_append_left sha256 hleft (by omega) (by omega) (by omega), hproof]
      exact ⟨_, rfl, rfl⟩
    · obtain ⟨p, hp, hproof⟩ := @ih (hi - (lo + 2 ^ d)) (by omega) (lo + 2 ^ d) hi (by omega)
        hindex hhi rfl
      have hsplit : index - lo = 2 ^ d + (index - (lo + 2 ^ d)) := by omega
      rw [if_neg hside, hp, subtreeRoot_eq sha256 hs (by omega) (by omega), hsplit,
        inclusionProof_append_right sha256 hleft (by omega) (by omega), hproof]
      exact ⟨_, rfl, rfl⟩

theorem storedSubproof_eq (hs : StoresTree sha256 s t c leaves) {m lo hi : ℕ} (hm : 0 < m)
    (hle : m ≤ hi - lo) (hhi : hi ≤ leaves.length) (b : Bool) :
    ∃ p, storedSubproof sha256 s t c m lo hi b = .ok p ∧
      subproof sha256 m (slice leaves lo hi) b = some p := by
  induction hn : hi - lo using Nat.strong_induction_on generalizing m lo hi b with
  | _ n ih =>
    rw [storedSubproof]
    by_cases hall : m = hi - lo
    · have hlen : m = (slice leaves lo hi).length := by rw [length_slice hhi, hall]
      rw [if_pos hall, subtreeRoot_eq sha256 hs (by omega) hhi]
      rw [hlen, subproof_self]
      cases b with
      | true => exact ⟨_, rfl, rfl⟩
      | false => exact ⟨_, rfl, rfl⟩
    have htwo : 2 ≤ hi - lo := by omega
    obtain ⟨d, hd, hlt, hle'⟩ := exists_largestPow2Lt htwo
    have hpos : 0 < 2 ^ d := by positivity
    have hleft : (slice leaves lo (lo + 2 ^ d)).length = 2 ^ d := by
      rw [length_slice (by omega)]
      omega
    have hright : (slice leaves (lo + 2 ^ d) hi).length = hi - (lo + 2 ^ d) := length_slice hhi
    rw [if_neg hall, if_pos htwo, ← slice_append_slice (m := lo + 2 ^ d) (by omega) hlt.le]
    simp only [hd]
    by_cases hside : m ≤ 2 ^ d
    · obtain ⟨p, hp, hproof⟩ := ih (lo + 2 ^ d - lo) (by omega) hm (by omega) (by omega) b rfl
      rw [if_pos hside, hp, subtreeRoot_eq sha256 hs hlt hhi,
        subproof_append_left sha256 hleft (by omega) (by omega) hside, hproof]
      exact ⟨_, rfl, rfl⟩
    · have hrest : 0 < m - 2 ^ d := by omega
      obtain ⟨p, hp, hproof⟩ := ih (hi - (lo + 2 ^ d)) (by omega) hrest (by omega) hhi false rfl
      have hsplit : m = 2 ^ d + (m - 2 ^ d) := by omega
      rw [if_neg hside, hp, subtreeRoot_eq sha256 hs (by omega) (by omega), hsplit,
        subproof_append_right sha256 hleft (by omega) (by omega) (by omega), hproof]
      exact ⟨_, rfl, rfl⟩

end StoresTree

/-- The leaf hashes of a chain's history, in order. -/
def historyLeaves (t c : Name) (ops : List Op) : List Digest :=
  (history sha256 t c ops).map (·.leaf sha256)

section Runs

variable {ops : List Op} {t c : Name}

theorem length_historyLeaves (ops : List Op) (t c : Name) :
    (historyLeaves sha256 t c ops).length = getSeq (run sha256 ops) t c := by
  rw [historyLeaves, List.length_map]
  exact (represents_run sha256 ops t c).seq.symm

theorem storesTree_run (hverified : chainVerified (run sha256 ops) t c = true) :
    StoresTree sha256 (run sha256 ops) t c (historyLeaves sha256 t c ops) where
  leaf := by
    intro i hi
    have hr := represents_run sha256 ops t c
    have hlt : i < getSeq (run sha256 ops) t c := by
      rw [← length_historyLeaves]
      exact hi
    obtain ⟨rec, hrec⟩ := Option.isSome_iff_exists.mp (hr.live hverified i hlt)
    obtain ⟨n, e, hn, he, hof⟩ := hr.entry _ _ hrec
    obtain rfl : i = n := by omega
    have hleaf : rec.leafHash = some (e.leaf sha256) := hof.leafHash.trans (if_pos hverified)
    refine ⟨rec, hrec, ?_⟩
    rw [hleaf]
    simp only [historyLeaves, List.getElem_map]
    rw [(List.getElem?_eq_some_iff.mp he).2]
  nodes := (represents_run sha256 ops t c).nodes hverified

theorem frontier_run (hverified : chainVerified (run sha256 ops) t c = true) :
    (getFrontier (run sha256 ops) t c).getD .default =
      frontierOf sha256 (historyLeaves sha256 t c ops) :=
  (represents_run sha256 ops t c).frontier hverified

theorem frontier_run_isSome (hverified : chainVerified (run sha256 ops) t c = true)
    (hhead : 0 < getSeq (run sha256 ops) t c) :
    (getFrontier (run sha256 ops) t c).isSome = true := by
  have hr := represents_run sha256 ops t c
  apply hr.stored hverified
  intro hempty
  have hseq : getSeq (run sha256 ops) t c = (history sha256 t c ops).length := hr.seq
  rw [hempty] at hseq
  simp at hseq
  omega

theorem proofInclusion_run (hverified : chainVerified (run sha256 ops) t c = true)
    {index size : ℕ} (hindex : index < size) (hsize : size ≤ getSeq (run sha256 ops) t c) :
    ∃ p, proofInclusion sha256 (run sha256 ops) t c index size = .ok p ∧
      inclusionProof sha256 ((historyLeaves sha256 t c ops).take size) index = some p := by
  rw [← length_historyLeaves] at hsize
  exact incl_eq sha256 (storesTree_run sha256 hverified) (Nat.zero_le index) hindex hsize

theorem proofConsistency_run (hverified : chainVerified (run sha256 ops) t c = true)
    {first second : ℕ} (hfirst : first ≤ second) (hsecond : second ≤ getSeq (run sha256 ops) t c) :
    ∃ p, proofConsistency sha256 (run sha256 ops) t c first second = .ok p ∧
      consistencyProof sha256 ((historyLeaves sha256 t c ops).take second) first = some p := by
  rw [← length_historyLeaves] at hsecond
  rw [proofConsistency, consistencyProof]
  by_cases hzero : first = 0
  · rw [if_pos hzero, if_pos hzero]
    exact ⟨[], rfl, rfl⟩
  · rw [if_neg hzero, if_neg hzero]
    exact storedSubproof_eq sha256 (storesTree_run sha256 hverified) (by omega) hfirst hsecond true

end Runs

/-- In every run a verified chain has its leaf hashes, its frontier and all of
its nodes, and the proofs served from them for any size up to the head are the
proofs of the reference recursion. -/
theorem stored_tree_complete (ops : List Op) (t c : Name)
    (hverified : chainVerified (run sha256 ops) t c = true) :
    ∃ leaves : List Digest, leaves.length = getSeq (run sha256 ops) t c ∧
      (∀ i, (h : i < leaves.length) → ∃ rec : EntryRecord,
        getEntry (run sha256 ops) t c (i + 1) = some rec ∧ rec.leafHash = some leaves[i]) ∧
      (0 < getSeq (run sha256 ops) t c → (getFrontier (run sha256 ops) t c).isSome = true) ∧
      ((getFrontier (run sha256 ops) t c).getD .default).size = getSeq (run sha256 ops) t c ∧
      ((getFrontier (run sha256 ops) t c).getD .default).root sha256 = merkleRoot sha256 leaves ∧
      (∀ level index, 1 ≤ level → (index + 1) * 2 ^ level ≤ getSeq (run sha256 ops) t c →
        getMerkleNode (run sha256 ops) t c level index =
          some (merkleRoot sha256 (slice leaves (index * 2 ^ level) ((index + 1) * 2 ^ level)))) ∧
      (∀ index size, index < size → size ≤ getSeq (run sha256 ops) t c →
        ∃ p, proofInclusion sha256 (run sha256 ops) t c index size = .ok p ∧
          inclusionProof sha256 (leaves.take size) index = some p) ∧
      (∀ first second, first ≤ second → second ≤ getSeq (run sha256 ops) t c →
        ∃ p, proofConsistency sha256 (run sha256 ops) t c first second = .ok p ∧
          consistencyProof sha256 (leaves.take second) first = some p) := by
  have hlen := length_historyLeaves sha256 ops t c
  have htree := storesTree_run sha256 hverified
  refine ⟨historyLeaves sha256 t c ops, hlen, htree.leaf, frontier_run_isSome sha256 hverified,
    ?_, ?_, ?_, ?_, ?_⟩
  · rw [frontier_run sha256 hverified, ← hlen]
    rfl
  · rw [frontier_run sha256 hverified, root_frontierOf]
  · intro level index hlevel hrange
    rw [merkleRoot_eq_root]
    rw [← hlen] at hrange
    exact htree.nodes level index hlevel hrange
  · intro index size hindex hsize
    exact proofInclusion_run sha256 hverified hindex hsize
  · intro first second hfirst hsecond
    exact proofConsistency_run sha256 hverified hfirst hsecond

/-- Three appends, the second entry redacted before the third. -/
def sampleOps : List Op :=
  [.append true sampleTenant sampleChain ⟨[sampleEntry 1, sampleEntry 2], by decide⟩ none,
    .redact true sampleTenant sampleChain 2,
    .append true sampleTenant sampleChain (sampleBatch 3) none]

theorem stored_tree_complete_sample :
    chainVerified (run Sha256.hash sampleOps) sampleTenant sampleChain = true ∧
      getSeq (run Sha256.hash sampleOps) sampleTenant sampleChain = 3 ∧
      ∃ leaves : List Digest, leaves.length = 3 ∧
        getMerkleNode (run Sha256.hash sampleOps) sampleTenant sampleChain 1 0 =
          some (merkleRoot Sha256.hash (slice leaves 0 2)) ∧
        ∃ p, proofInclusion Sha256.hash (run Sha256.hash sampleOps) sampleTenant sampleChain 1 3 =
            .ok p ∧ inclusionProof Sha256.hash (leaves.take 3) 1 = some p := by
  have hverified : chainVerified (run Sha256.hash sampleOps) sampleTenant sampleChain = true := by
    decide +kernel
  have hhead : getSeq (run Sha256.hash sampleOps) sampleTenant sampleChain = 3 := by decide +kernel
  obtain ⟨leaves, hlen, -, -, -, -, hnodes, hinclusion, -⟩ :=
    stored_tree_complete Sha256.hash sampleOps sampleTenant sampleChain hverified
  rw [hhead] at hlen hnodes hinclusion
  exact ⟨hverified, hhead, leaves, hlen, hnodes 1 0 le_rfl (by decide),
    hinclusion 1 3 (by decide) le_rfl⟩

end BlueDB.Evidence
