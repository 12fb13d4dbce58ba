import BlueDB.Evidence.Proof

/-!
# What a verifier can be made to accept

Both verifiers climb from a hash to the root along sides that only the position and the size
decide. A path that is accepted against a root the store served is therefore the served one,
unless two inputs hashed on the two paths collide.
-/

namespace BlueDB.Evidence

variable (sha256 : List UInt8 → Digest)

def nodeInput (left right : Digest) : List UInt8 := 0x01 :: (left.toList ++ right.toList)

theorem nodeInput_injective : Function.Injective2 nodeInput := by
  intro left left' right right' h
  have hlen : left.toList.length = left'.toList.length := by simp
  obtain ⟨hleft, hright⟩ := List.append_inj (List.cons.inj h).2 hlen
  exact ⟨Vector.toList_inj.mp hleft, Vector.toList_inj.mp hright⟩

/-- A walk over `p`: the bits of `index` are the sides of the first `inner` levels, and all other
siblings are on the left. -/
def sides (index inner : ℕ) (p : List Digest) : List (Bool × Digest) :=
  ((p.take inner).zipIdx.map fun q => (index.testBit q.2, q.1)) ++
    (p.drop inner).map fun h => (true, h)

theorem chainInner_climb (seed : Digest) (p : List Digest) (index : ℕ) :
    chainInner sha256 seed p index =
      climb sha256 nodeInput seed (p.zipIdx.map fun q => (index.testBit q.2, q.1)) := by
  induction p using List.reverseRecOn with
  | nil => rfl
  | append_singleton p h ih =>
    rw [chainInner_concat, ih, List.zipIdx_append, List.map_append, climb_append]
    cases hbit : index.testBit p.length <;> simp [climb, levelInput, nodeHash, nodeInput, hbit]

theorem chainBorderRight_climb (seed : Digest) (p : List Digest) :
    chainBorderRight sha256 seed p = climb sha256 nodeInput seed (p.map fun h => (true, h)) := by
  unfold chainBorderRight climb
  rw [List.foldl_map]
  rfl

theorem climb_sides (seed : Digest) (p : List Digest) (index inner : ℕ) :
    climb sha256 nodeInput seed (sides index inner p) =
      chainBorderRight sha256 (chainInner sha256 seed (p.take inner) index) (p.drop inner) := by
  rw [sides, climb_append, chainInner_climb, chainBorderRight_climb]

theorem sides_fst {index inner : ℕ} {p p' : List Digest} (hlen : p.length = p'.length) :
    (sides index inner p).map Prod.fst = (sides index inner p').map Prod.fst := by
  unfold sides
  apply List.ext_getElem
  · simp [hlen]
  · intro i h h'
    simp only [List.map_append, List.map_map, List.getElem_append, List.getElem_map]
    simp [hlen]

theorem sides_injective {index inner : ℕ} {p p' : List Digest}
    (h : sides index inner p = sides index inner p') : p = p' := by
  have hsnd : ∀ p : List Digest, (sides index inner p).map Prod.snd = p := by
    intro p
    simp [sides, Function.comp_def, List.zipIdx_map_fst]
  rw [← hsnd p, h, hsnd]

/-- The hashed inputs of a walk from `seed`. -/
def walkInputs (seed : Digest) (p : List Digest) (index inner : ℕ) : List (List UInt8) :=
  climbInputs sha256 nodeInput seed (sides index inner p)

/-- Two walks of one length to one root are the same walk. -/
theorem walk_binding {seed seed' : Digest} {p p' : List Digest} {index inner : ℕ}
    (hlen : p.length = p'.length)
    (h : chainBorderRight sha256 (chainInner sha256 seed (p.take inner) index) (p.drop inner) =
      chainBorderRight sha256 (chainInner sha256 seed' (p'.take inner) index) (p'.drop inner)) :
    (seed = seed' ∧ p = p') ∨
      Collide sha256 (walkInputs sha256 seed p index inner)
        (walkInputs sha256 seed' p' index inner) := by
  rw [← climb_sides, ← climb_sides] at h
  rcases climb_binding sha256 nodeInput nodeInput_injective (sides_fst hlen) h with ⟨hseed, hp⟩ | hc
  · exact Or.inl ⟨hseed, sides_injective hp⟩
  · exact Or.inr hc

/-- What the inclusion verifier hashes. -/
def auditInputs (leaf : Digest) (index size : ℕ) (p : List Digest) : List (List UInt8) :=
  walkInputs sha256 leaf p index (innerLength index size)

theorem inclusion_binding {leaf leaf' root : Digest} {index size : ℕ} {p p' : List Digest}
    (h : rootFromInclusion sha256 leaf index size p = some root)
    (h' : rootFromInclusion sha256 leaf' index size p' = some root) :
    (leaf = leaf' ∧ p = p') ∨
      Collide sha256 (auditInputs sha256 leaf index size p)
        (auditInputs sha256 leaf' index size p') := by
  obtain ⟨-, hlen, hroot⟩ := (rootFromInclusion_eq_some sha256).mp h
  obtain ⟨-, hlen', hroot'⟩ := (rootFromInclusion_eq_some sha256).mp h'
  exact walk_binding sha256 (hlen.trans hlen'.symm) (hroot.trans hroot'.symm)

/-- The hash the consistency verifier starts from, and the rest of its proof. -/
def consistencySeed (first : ℕ) (root1 : Digest) (proof : List Digest) :
    Option (Digest × List Digest) :=
  if first = 2 ^ trailingZeros first then some (root1, proof)
  else proof.head?.map fun seed => (seed, proof.drop 1)

/-- What the consistency verifier hashes for the second root. -/
def consistencyInputs (first second : ℕ) (root1 : Digest) (proof : List Digest) :
    List (List UInt8) :=
  (consistencySeed first root1 proof).elim [] fun w =>
    walkInputs sha256 w.1 w.2 (walkMask first)
      (innerLength (first - 1) second - trailingZeros first)

theorem verifyConsistency_eq_true {first second : ℕ} {proof : List Digest} {root1 root2 : Digest}
    (hpos : 1 ≤ first) (hlt : first < second)
    (h : verifyConsistency sha256 first second proof root1 root2 = some true) :
    ∃ w, consistencySeed first root1 proof = some w ∧
      w.2.length = innerLength (first - 1) second - trailingZeros first +
        borderLength (first - 1) second ∧
      chainBorderRight sha256 (chainInnerRight sha256 w.1
        (w.2.take (innerLength (first - 1) second - trailingZeros first)) (walkMask first))
        (w.2.drop (innerLength (first - 1) second - trailingZeros first)) = root1 ∧
      chainBorderRight sha256 (chainInner sha256 w.1
        (w.2.take (innerLength (first - 1) second - trailingZeros first)) (walkMask first))
        (w.2.drop (innerLength (first - 1) second - trailingZeros first)) = root2 := by
  have hmask : (first - 1) >>> trailingZeros first = walkMask first := rfl
  unfold verifyConsistency at h
  rw [if_neg (by omega), if_neg (by omega), if_neg (by omega)] at h
  simp only [Nat.one_shiftLeft, hmask] at h
  unfold consistencySeed
  by_cases hpow : first = 2 ^ trailingZeros first
  · rw [if_pos hpow] at h ⊢
    refine ⟨_, rfl, ?_⟩
    simpa [ite_eq_iff] using h
  · rw [if_neg hpow] at h ⊢
    cases proof with
    | nil => cases h
    | cons seed p =>
      refine ⟨_, rfl, ?_⟩
      simpa [ite_eq_iff, Nat.add_comm, Nat.add_left_comm] using h

/-- The honest proof starts where the walks to the two honest roots do. -/
theorem consistencyProof_walks {leaves : List Digest} {first : ℕ} (hpos : 1 ≤ first)
    (hlt : first < leaves.length) :
    ∃ proof w, consistencyProof sha256 leaves first = some proof ∧
      consistencySeed first (merkleRoot sha256 (leaves.take first)) proof = some w ∧
      Walks sha256 first leaves w.1 w.2 := by
  obtain ⟨seed, p, hp, hwalk⟩ := subproof_walks sha256 hpos hlt
  obtain ⟨hpow, hnot⟩ := subproof_true sha256 hpos hlt
  unfold consistencySeed consistencyProof
  rw [if_neg (by omega)]
  by_cases h : first = 2 ^ trailingZeros first
  · rw [hpow h, Option.map_eq_some_iff] at hp
    obtain ⟨proof, hproof, hcons⟩ := hp
    obtain ⟨rfl, rfl⟩ := List.cons.inj hcons
    exact ⟨proof, _, hproof, if_pos h, hwalk⟩
  · exact ⟨seed :: p, (seed, p), (hnot h).trans hp, if_neg h, hwalk⟩

theorem exists_accepted {leaves : List Digest} {first : ℕ} (hpos : 1 ≤ first)
    (hlt : first < leaves.length) :
    ∃ proof, verifyConsistency sha256 first leaves.length proof
      (merkleRoot sha256 (leaves.take first)) (merkleRoot sha256 leaves) = some true := by
  obtain ⟨proof, w, -, hseed, hwalk⟩ := consistencyProof_walks sha256 hpos hlt
  refine ⟨proof, verifyConsistency_of_walks sha256 hpos hlt hwalk ?_⟩
  unfold consistencySeed at hseed
  split_ifs at hseed ⊢ with hpow
  · obtain rfl := Option.some.inj hseed
    exact ⟨rfl, rfl⟩
  · obtain ⟨seed, hhead, rfl⟩ := Option.map_eq_some_iff.mp hseed
    rw [List.drop_one]
    exact (List.cons_head?_tail hhead).symm

/-- A tree has one prefix of a size. -/
theorem consistency_binding {leaves proof : List Digest} {first : ℕ} {root1 : Digest}
    (hpos : 1 ≤ first) (hle : first ≤ leaves.length)
    (h : verifyConsistency sha256 first leaves.length proof root1 (merkleRoot sha256 leaves) =
      some true) :
    root1 = merkleRoot sha256 (leaves.take first) ∨
      ∃ proof', consistencyProof sha256 leaves first = some proof' ∧
        Collide sha256 (consistencyInputs sha256 first leaves.length root1 proof)
          (consistencyInputs sha256 first leaves.length (merkleRoot sha256 (leaves.take first))
            proof') := by
  rcases Nat.eq_or_lt_of_le hle with rfl | hlt
  · simp only [verifyConsistency, lt_self_iff_false, if_false, if_true, Option.some.injEq,
      Bool.and_eq_true, beq_iff_eq] at h
    left
    rw [List.take_length]
    exact h.2
  · obtain ⟨w, hw, hlen, hfirst, hroot⟩ := verifyConsistency_eq_true sha256 hpos hlt h
    obtain ⟨proof', w', hproof', hw', hwalk⟩ := consistencyProof_walks sha256 hpos hlt
    rcases walk_binding sha256 (hlen.trans hwalk.length.symm) (hroot.trans hwalk.root.symm) with
      ⟨hseed, hrest⟩ | hcollide
    · left
      rw [← hfirst, ← hwalk.first_root, hseed, hrest]
    · right
      refine ⟨proof', hproof', ?_⟩
      unfold consistencyInputs
      rw [hw, hw']
      exact hcollide

def Served (ops : List Op) (t c : Name) (d : TreeDigest) : Prop :=
  chainVerified (run sha256 ops) t c = true ∧ digest sha256 (run sha256 ops) t c = .ok d

section Runs

variable {ops later : List Op} {t c : Name} {d d' : TreeDigest}

theorem Served.eq (h : Served sha256 ops t c d) :
    d = ⟨(historyLeaves sha256 t c ops).length,
      merkleRoot sha256 (historyLeaves sha256 t c ops)⟩ := by
  obtain ⟨hverified, h⟩ := h
  have hsize : (frontierOf sha256 (historyLeaves sha256 t c ops)).size =
      (historyLeaves sha256 t c ops).length := rfl
  rw [← hsize, ← root_frontierOf, ← frontier_run sha256 hverified]
  unfold digest at h
  cases hready : requireVerified (run sha256 ops) t c with
  | error e =>
    rw [hready] at h
    cases h
  | ok _ =>
    rw [hready] at h
    cases hstored : getFrontier (run sha256 ops) t c with
    | some f =>
      simp only [hstored] at h
      exact (Except.ok.inj h).symm
    | none =>
      simp only [hstored] at h
      exact (Except.ok.inj h).symm

theorem historyLeaves_prefix (ops later : List Op) (t c : Name) :
    historyLeaves sha256 t c ops <+: historyLeaves sha256 t c (ops ++ later) := by
  induction later using List.reverseRecOn with
  | nil => rw [List.append_nil]
  | append_singleton later op ih =>
    unfold historyLeaves at ih ⊢
    rw [← List.append_assoc, history_concat, List.map_append]
    exact ih.trans (List.prefix_append ..)

/-- The leaves under a served root stay the first ones. -/
theorem Served.root (h : Served sha256 ops t c d) (later : List Op) :
    d.size ≤ (historyLeaves sha256 t c (ops ++ later)).length ∧
      d.root = merkleRoot sha256 ((historyLeaves sha256 t c (ops ++ later)).take d.size) := by
  obtain rfl := h.eq
  have hgrown := historyLeaves_prefix sha256 ops later t c
  exact ⟨hgrown.length_le, congrArg _ (List.prefix_iff_eq_take.mp hgrown)⟩

/-- Whoever holds a served digest accepts at each position the leaf of the entry that is and stays
there. Another one shows two inputs of the two paths with one hash. -/
theorem served_leaf_binding (h : Served sha256 ops t c d) (h' : Served sha256 (ops ++ later) t c d')
    {leaf : Digest} {index : ℕ} {p : List Digest}
    (haccept : rootFromInclusion sha256 leaf index d.size p = some d.root) :
    ∃ rec leaf', getEntry (run sha256 (ops ++ later)) t c (index + 1) = some rec ∧
      rec.leafHash = some leaf' ∧
      (leaf = leaf' ∨ ∃ p',
        proofInclusion sha256 (run sha256 (ops ++ later)) t c index d.size = .ok p' ∧
          Collide sha256 (auditInputs sha256 leaf index d.size p)
            (auditInputs sha256 leaf' index d.size p')) := by
  obtain ⟨hsize, hroot⟩ := h.root sha256 later
  have hindex := ((rootFromInclusion_eq_some sha256).mp haccept).1
  have hbound := hindex.trans_le hsize
  obtain ⟨rec, hrec, hleaf⟩ := (storesTree_run sha256 h'.1).leaf index hbound
  refine ⟨rec, _, hrec, hleaf, ?_⟩
  obtain ⟨p', hserved, hp'⟩ := proofInclusion_run sha256 h'.1 hindex
    (hsize.trans (length_historyLeaves sha256 (ops ++ later) t c).le)
  have htake := (List.getElem?_take_of_lt hindex).trans (List.getElem?_eq_getElem hbound)
  obtain ⟨p'', hp'', hhonest⟩ := rootFromInclusion_inclusionProof sha256 htake
  obtain rfl : p' = p'' := Option.some.inj (hp'.symm.trans hp'')
  rw [List.length_take_of_le hsize, ← hroot] at hhonest
  rcases inclusion_binding sha256 haccept hhonest with ⟨heq, -⟩ | hcollide
  · exact Or.inl heq
  · exact Or.inr ⟨p', hserved, hcollide⟩

/-- Whoever is shown a root as that of an earlier size, with a proof that a served digest accepts,
is shown the root that was served at that size. -/
theorem served_digest_binding (h : Served sha256 ops t c d)
    (h' : Served sha256 (ops ++ later) t c d') (hpos : 1 ≤ d.size) {root1 : Digest}
    {proof : List Digest}
    (haccept : verifyConsistency sha256 d.size d'.size proof root1 d'.root = some true) :
    root1 = d.root ∨ ∃ proof',
      proofConsistency sha256 (run sha256 (ops ++ later)) t c d.size d'.size = .ok proof' ∧
        Collide sha256 (consistencyInputs sha256 d.size d'.size root1 proof)
          (consistencyInputs sha256 d.size d'.size d.root proof') := by
  obtain ⟨hsize, hroot⟩ := h.root sha256 later
  obtain rfl := h'.eq
  obtain ⟨proof', hserved, hproof'⟩ := proofConsistency_run sha256 h'.1 hsize
    (length_historyLeaves sha256 (ops ++ later) t c).le
  rw [List.take_length] at hproof'
  rw [hroot]
  rcases consistency_binding sha256 hpos hsize haccept with heq | ⟨proof'', hproof'', hcollide⟩
  · exact Or.inl heq
  · obtain rfl : proof' = proof'' := Option.some.inj (hproof'.symm.trans hproof'')
    exact Or.inr ⟨proof', hserved, hcollide⟩

end Runs

theorem exists_served (ops : List Op) (n : ℕ)
    (h : chainVerified (run Sha256.hash ops) sampleTenant sampleChain = true ∧
      ((digest Sha256.hash (run Sha256.hash ops) sampleTenant
        sampleChain).toOption.map TreeDigest.size) = some n) :
    ∃ d, Served Sha256.hash ops sampleTenant sampleChain d ∧ d.size = n := by
  obtain ⟨hverified, hdigest⟩ := h
  cases hd : digest Sha256.hash (run Sha256.hash ops) sampleTenant sampleChain with
  | ok d =>
    rw [hd] at hdigest
    exact ⟨d, ⟨hverified, hd⟩, Option.some.inj hdigest⟩
  | error e =>
    rw [hd] at hdigest
    cases hdigest

theorem served_leaf_binding_sample : ∃ (d : TreeDigest) (leaf : Digest) (p : List Digest),
    ∃ rec leaf', getEntry (run Sha256.hash sampleOps) sampleTenant sampleChain 2 = some rec ∧
      rec.leafHash = some leaf' ∧
      (leaf = leaf' ∨ ∃ p', proofInclusion Sha256.hash (run Sha256.hash sampleOps) sampleTenant
          sampleChain 1 d.size = .ok p' ∧
        Collide Sha256.hash (auditInputs Sha256.hash leaf 1 d.size p)
          (auditInputs Sha256.hash leaf' 1 d.size p')) := by
  obtain ⟨d, hd, hsize⟩ := exists_served sampleOps 3 (by decide +kernel)
  obtain rfl := hd.eq
  obtain ⟨p, -, hroot⟩ := rootFromInclusion_inclusionProof Sha256.hash
    (List.getElem?_eq_getElem (hsize.ge.trans' (by decide : 1 < 3)))
  exact ⟨_, _, p, @served_leaf_binding Sha256.hash sampleOps [] _ _ _ _ hd hd _ _ _ hroot⟩

/-- The first two entries, and the third that was appended later. -/
theorem served_digest_binding_sample : ∃ (d d' : TreeDigest) (root1 : Digest) (proof : List Digest),
    d.size = 2 ∧ d'.size = 3 ∧
    verifyConsistency Sha256.hash d.size d'.size proof root1 d'.root = some true ∧
    (root1 = d.root ∨ ∃ proof', proofConsistency Sha256.hash (run Sha256.hash sampleOps)
        sampleTenant sampleChain d.size d'.size = .ok proof' ∧
      Collide Sha256.hash (consistencyInputs Sha256.hash d.size d'.size root1 proof)
        (consistencyInputs Sha256.hash d.size d'.size d.root proof')) := by
  obtain ⟨d, hd, hsize⟩ := exists_served (sampleOps.take 1) 2 (by decide +kernel)
  obtain ⟨d', hd', hsize'⟩ := exists_served sampleOps 3 (by decide +kernel)
  obtain ⟨hle, hroot⟩ := hd.root Sha256.hash (sampleOps.drop 1)
  rw [List.take_append_drop] at hle hroot
  obtain rfl := hd'.eq
  have hlen : (historyLeaves Sha256.hash sampleTenant sampleChain sampleOps).length = 3 := hsize'
  have hlt : d.size < (historyLeaves Sha256.hash sampleTenant sampleChain sampleOps).length := by
    omega
  have hpos : 1 ≤ d.size := by omega
  obtain ⟨proof, haccept⟩ := exists_accepted Sha256.hash hpos hlt
  rw [← hroot] at haccept
  exact ⟨d, _, d.root, proof, hsize, hsize', haccept,
    @served_digest_binding Sha256.hash (sampleOps.take 1) (sampleOps.drop 1) _ _ _ _ hd hd'
      hpos _ _ haccept⟩

end BlueDB.Evidence
