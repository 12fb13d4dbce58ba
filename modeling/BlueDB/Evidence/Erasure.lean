import BlueDB.Evidence.Proof

/-!
# Erasure

Two stores that differ in the payloads of entries only answer every later
request alike: payloads are written and blanked, but nothing that decides a
write, a digest or a proof reads them. A run and the run without some of its
redactions keep such stores.
-/

namespace BlueDB.Evidence

variable (sha256 : List UInt8 → Digest)

def EntryRecord.blank (rec : EntryRecord) : EntryRecord :=
  { rec with payload := emptyBlob, redacted := true }

/-- A record without what a redaction changes. -/
def withoutPayload : (k : Key) → Value k → Value k
  | ⟨_, .entry _ _⟩, rec => EntryRecord.blank rec
  | ⟨_, .seqCounter _⟩, n => n
  | ⟨_, .idem _ _⟩, rec => rec
  | ⟨_, .merkle _⟩, f => f
  | ⟨_, .chainMeta _⟩, m => m
  | ⟨_, .graphEdge _ _ _ _⟩, w => w
  | ⟨_, .graphOut _ _ _ _ _⟩, u => u
  | ⟨_, .graphIn _ _ _ _ _⟩, u => u
  | ⟨_, .merkleNode _ _ _⟩, hash => hash

def SamePayloadsAt (k : Key) (v v' : Option (Value k)) : Prop :=
  v.map (withoutPayload k) = v'.map (withoutPayload k)

/-- The stores differ in payloads and redaction marks of entries at most. -/
def DifferInPayloads (s s' : Store) : Prop := ∀ k, SamePayloadsAt k (s.get k) (s'.get k)

theorem DifferInPayloads.refl (s : Store) : DifferInPayloads s s := fun _ => rfl

theorem DifferInPayloads.trans {s₁ s₂ s₃ : Store} (h : DifferInPayloads s₁ s₂)
    (h' : DifferInPayloads s₂ s₃) : DifferInPayloads s₁ s₃ := fun k => (h k).trans (h' k)

section Reads

variable {s s' : Store} (h : DifferInPayloads s s')

include h

theorem DifferInPayloads.get {k : Key} (hk : k.record.kind ≠ .entry) : s.get k = s'.get k := by
  have hsame := h k
  have hid : withoutPayload k = id := by
    obtain ⟨t, record⟩ := k
    cases record with
    | entry c seq => exact absurd rfl hk
    | _ => rfl
  rwa [SamePayloadsAt, hid, Option.map_id] at hsame

theorem DifferInPayloads.entry_cases (t c : Name) (seq : ℤ) :
    (getEntry s t c seq = none ∧ getEntry s' t c seq = none) ∨
      ∃ rec rec', getEntry s t c seq = some rec ∧ getEntry s' t c seq = some rec' ∧
        rec.blank = rec'.blank := by
  have hentry : (getEntry s t c seq).map EntryRecord.blank =
      (getEntry s' t c seq).map EntryRecord.blank := h ⟨t, .entry c seq⟩
  cases hrec : getEntry s t c seq with
  | none =>
    rw [hrec, Option.map_none] at hentry
    exact Or.inl ⟨rfl, Option.map_eq_none_iff.mp hentry.symm⟩
  | some rec =>
    rw [hrec, Option.map_some] at hentry
    obtain ⟨rec', hrec', hblank⟩ := Option.map_eq_some_iff.mp hentry.symm
    exact Or.inr ⟨rec, rec', rfl, hrec', hblank.symm⟩

theorem DifferInPayloads.chainMeta (t c : Name) : getChainMeta s t c = getChainMeta s' t c :=
  h.get (by simp)

theorem DifferInPayloads.chainVerified (t c : Name) :
    chainVerified s t c = chainVerified s' t c := by
  rw [Evidence.chainVerified, Evidence.chainVerified, h.chainMeta]

theorem DifferInPayloads.seq (t c : Name) : getSeq s t c = getSeq s' t c := by
  rw [getSeq, getSeq, h.get (by simp)]

theorem DifferInPayloads.idem (t c : Name) : getIdem s t c = getIdem s' t c := by
  funext token
  exact h.get (by simp)

theorem DifferInPayloads.frontier (t c : Name) : getFrontier s t c = getFrontier s' t c :=
  h.get (by simp)

theorem DifferInPayloads.node (t c : Name) (level index : ℕ) :
    getMerkleNode s t c level index = getMerkleNode s' t c level index :=
  h.get (by simp)

theorem DifferInPayloads.weight (t : Name) : getEdgeWeight s t = getEdgeWeight s' t := by
  funext e
  exact h.get (by simp [graphEdgeKey])

theorem DifferInPayloads.edgeDeltas (t : Name) (acc : Batch × Overlay) (ds : List EdgeDelta) :
    applyEdgeDeltas s t acc ds = applyEdgeDeltas s' t acc ds := by
  have hstep : applyEdgeDelta s t = applyEdgeDelta s' t := by
    funext acc d
    simp only [applyEdgeDelta, currentWeight, h.weight t]
  simp only [applyEdgeDeltas, hstep]

theorem DifferInPayloads.commit (batch : Batch) :
    DifferInPayloads (s.commit batch) (s'.commit batch) := by
  intro k
  exact Kv.get_commit_rel (R := SamePayloadsAt k) (fun _ => rfl) batch (h k)

end Reads

theorem redact_eq (s : Store) (w : Bool) (t c : Name) (seq : ℤ) :
    redact s w t c seq = (requireWriter w >>= fun _ =>
      match getEntry s t c seq with
      | none => .error (.entryNotFound c seq)
      | some rec => .ok [.put ⟨t, .entry c seq⟩ rec.blank]) := rfl

section Steps

variable {s s' : Store} (h : DifferInPayloads s s')

include h

theorem DifferInPayloads.freshAppend (t c : Name) (entries : Sized EntryInput (256 ^ 8))
    (idemKey : Option (List UInt8)) :
    freshAppend sha256 s t c entries idemKey = freshAppend sha256 s' t c entries idemKey := by
  simp only [Evidence.freshAppend, merkleWrites, metaWrites, h.seq, h.chainVerified, h.frontier,
    h.chainMeta, h.edgeDeltas]

theorem DifferInPayloads.append (w : Bool) (t c : Name) (entries : Sized EntryInput (256 ^ 8))
    (idemKey : Option (List UInt8)) :
    append sha256 s w t c entries idemKey = append sha256 s' w t c entries idemKey := by
  simp only [Evidence.append, h.seq, h.idem, h.freshAppend]

theorem DifferInPayloads.hardDelete (w : Bool) (t c : Name) (seq : ℤ) (retract : Bool) :
    hardDelete s w t c seq retract = hardDelete s' w t c seq retract := by
  simp only [Evidence.hardDelete, h.chainVerified, h.edgeDeltas]
  rcases h.entry_cases t c seq with ⟨hnone, hnone'⟩ | ⟨rec, rec', hrec, hrec', hblank⟩
  · rw [hnone, hnone']
  · have hedges := congrArg EntryRecord.edges hblank
    simp only [EntryRecord.blank] at hedges
    simp only [hrec, hrec', hedges]

/-- Redacting an entry leaves the same record in both stores. -/
theorem DifferInPayloads.redact (w : Bool) (t c : Name) (seq : ℤ) :
    redact s w t c seq = redact s' w t c seq := by
  rw [redact_eq, redact_eq]
  rcases h.entry_cases t c seq with ⟨hnone, hnone'⟩ | ⟨rec, rec', hrec, hrec', hblank⟩
  · rw [hnone, hnone']
  · simp only [hrec, hrec', hblank]

theorem DifferInPayloads.step (op : Op) :
    DifferInPayloads (step sha256 s op) (step sha256 s' op) := by
  -- every batch is the same but for the order in which a drop meets the keys
  have hbatch : op.batch sha256 s = op.batch sha256 s' →
      DifferInPayloads (Evidence.step sha256 s op) (Evidence.step sha256 s' op) := by
    intro hsame
    rw [Evidence.step, Evidence.step, ← hsame]
    cases op.batch sha256 s with
    | ok batch => exact h.commit batch
    | error e => exact h
  cases op with
  | createChain w t c verified =>
    apply hbatch
    simp only [Op.batch, createChain, h.chainMeta]
  | append w t c entries idemKey =>
    apply hbatch
    rw [Op.batch, Op.batch, h.append]
  | redact w t c seq =>
    apply hbatch
    exact h.redact w t c seq
  | hardDelete w t c seq retract =>
    apply hbatch
    exact h.hardDelete w t c seq retract
  | upsert w t graph edges merge =>
    apply hbatch
    simp only [Op.batch, Graph.upsert, h.edgeDeltas]
  | delete w t graph edges =>
    apply hbatch
    simp only [Op.batch, Graph.delete, h.edgeDeltas]
  | mutate w t graph upserts deletes merge =>
    apply hbatch
    simp only [Op.batch, Graph.mutate, h.edgeDeltas]
  | dropGraph w t graph =>
    cases w with
    | false => exact h
    | true =>
      intro k
      change SamePayloadsAt k ((s.commit _).get k) ((s'.commit _).get k)
      rw [get_commit_dropGraph, get_commit_dropGraph]
      split
      · rfl
      · exact h k

end Steps

theorem differInPayloads_redact (s : Store) (w : Bool) (t c : Name) (seq : ℤ) :
    DifferInPayloads (step sha256 s (.redact w t c seq)) s := by
  rw [step, Op.batch, redact_eq]
  cases hw : requireWriter w with
  | error e => exact DifferInPayloads.refl s
  | ok _ =>
    cases hrec : getEntry s t c seq with
    | none => exact DifferInPayloads.refl s
    | some rec =>
      intro k
      change SamePayloadsAt k ((s.write (.put ⟨t, .entry c seq⟩ rec.blank)).get k) (s.get k)
      by_cases hk : k = ⟨t, .entry c seq⟩
      · subst k
        have hget : s.get ⟨t, .entry c seq⟩ = some rec := hrec
        rw [Kv.get_write_put, hget]
        rfl
      · rw [Kv.get_write_of_ne hk]
        rfl

/-- The second list is the first without some of its redactions. -/
inductive ErasesRedacts : List Op → List Op → Prop
  | nil : ErasesRedacts [] []
  | keep (op : Op) {ops ops' : List Op} : ErasesRedacts ops ops' →
      ErasesRedacts (op :: ops) (op :: ops')
  | erase (w : Bool) (t c : Name) (seq : ℤ) {ops ops' : List Op} : ErasesRedacts ops ops' →
      ErasesRedacts (.redact w t c seq :: ops) ops'

theorem ErasesRedacts.foldl {ops ops' : List Op} (h : ErasesRedacts ops ops') {s s' : Store}
    (hs : DifferInPayloads s s') :
    DifferInPayloads (ops.foldl (step sha256) s) (ops'.foldl (step sha256) s') := by
  induction h generalizing s s' with
  | nil => exact hs
  | keep op _ ih => exact ih (hs.step sha256 op)
  | erase w t c seq _ ih => exact ih ((differInPayloads_redact sha256 s w t c seq).trans hs)

theorem ErasesRedacts.run {ops ops' : List Op} (h : ErasesRedacts ops ops') :
    DifferInPayloads (run sha256 ops) (run sha256 ops') :=
  h.foldl sha256 (DifferInPayloads.refl _)

section Proofs

variable {s s' : Store} (h : DifferInPayloads s s') (t c : Name)

include h

theorem DifferInPayloads.subtreeRoot (lo hi : ℕ) :
    subtreeRoot sha256 s t c lo hi = subtreeRoot sha256 s' t c lo hi := by
  induction hn : hi - lo using Nat.strong_induction_on generalizing lo hi with
  | _ n ih =>
    rw [Evidence.subtreeRoot, Evidence.subtreeRoot.eq_def sha256 s']
    by_cases hone : hi - lo = 1
    · rw [if_pos hone, if_pos hone]
      rcases h.entry_cases t c (lo + 1) with ⟨hnone, hnone'⟩ | ⟨rec, rec', hrec, hrec', hblank⟩
      · rw [hnone, hnone']
      · have hleaf := congrArg EntryRecord.leafHash hblank
        simp only [EntryRecord.blank] at hleaf
        simp only [hrec, hrec', hleaf]
    · rw [if_neg hone, if_neg hone]
      simp only [h.node]
      by_cases htwo : 2 ≤ hi - lo
      · have hlt := largestPow2Lt_lt htwo
        have hpos := largestPow2Lt_pos htwo
        rw [ih (lo + largestPow2Lt (hi - lo) - lo) (by omega) lo _ rfl,
          ih (hi - (lo + largestPow2Lt (hi - lo))) (by omega) _ hi rfl]
      · rw [if_neg htwo, if_neg htwo]

theorem DifferInPayloads.incl (lo hi index : ℕ) :
    incl sha256 s t c lo hi index = incl sha256 s' t c lo hi index := by
  induction hn : hi - lo using Nat.strong_induction_on generalizing lo hi with
  | _ n ih =>
    rw [Evidence.incl, Evidence.incl.eq_def sha256 s']
    by_cases htwo : 2 ≤ hi - lo
    · have hlt := largestPow2Lt_lt htwo
      have hpos := largestPow2Lt_pos htwo
      simp only [h.subtreeRoot sha256 t c]
      rw [ih (lo + largestPow2Lt (hi - lo) - lo) (by omega) lo _ rfl,
        ih (hi - (lo + largestPow2Lt (hi - lo))) (by omega) _ hi rfl]
    · rw [if_neg htwo, if_neg htwo]

theorem DifferInPayloads.storedSubproof (m lo hi : ℕ) (b : Bool) :
    storedSubproof sha256 s t c m lo hi b = storedSubproof sha256 s' t c m lo hi b := by
  induction hn : hi - lo using Nat.strong_induction_on generalizing m lo hi b with
  | _ n ih =>
    rw [Evidence.storedSubproof, Evidence.storedSubproof.eq_def sha256 s']
    simp only [h.subtreeRoot sha256 t c]
    by_cases htwo : 2 ≤ hi - lo
    · have hlt := largestPow2Lt_lt htwo
      have hpos := largestPow2Lt_pos htwo
      rw [ih (lo + largestPow2Lt (hi - lo) - lo) (by omega) m lo _ b rfl,
        ih (hi - (lo + largestPow2Lt (hi - lo))) (by omega) (m - largestPow2Lt (hi - lo)) _ hi
          false rfl]
    · rw [if_neg htwo, if_neg htwo]

theorem DifferInPayloads.requireVerified : requireVerified s t c = requireVerified s' t c := by
  rw [Evidence.requireVerified, Evidence.requireVerified, h.chainMeta]

theorem DifferInPayloads.digest : digest sha256 s t c = digest sha256 s' t c := by
  rw [Evidence.digest, Evidence.digest, h.requireVerified, h.frontier]

theorem DifferInPayloads.inclusion (seq : ℤ) (size : Option ℤ) :
    inclusion sha256 s t c seq size = inclusion sha256 s' t c seq size := by
  simp only [Evidence.inclusion, proofInclusion, h.requireVerified, h.seq, h.incl]

theorem DifferInPayloads.consistency (first : ℤ) (second : Option ℤ) :
    consistency sha256 s t c first second = consistency sha256 s' t c first second := by
  simp only [Evidence.consistency, proofConsistency, h.requireVerified, h.seq, h.storedSubproof]

end Proofs

theorem leafHash_run {ops : List Op} {t c : Name}
    (hverified : chainVerified (run sha256 ops) t c = true) {i : ℤ} {rec : EntryRecord}
    (hrec : getEntry (run sha256 ops) t c i = some rec) :
    ∃ (n : ℕ) (e : EntryInput), i = n + 1 ∧ (history sha256 t c ops)[n]? = some e ∧
      rec.leafHash = some (leafHash sha256 rec.etype e.payload rec.atTime rec.edges) ∧
      (rec.redacted = false → rec.payload = e.payload) := by
  obtain ⟨n, e, hn, he, hof⟩ := (represents_run sha256 ops t c).entry i rec hrec
  have hleaf : rec.leafHash = some (e.leaf sha256) := hof.leafHash.trans (if_pos hverified)
  refine ⟨n, e, hn, he, ?_, hof.payload⟩
  rw [hleaf, hof.etype, hof.atTime, hof.edges]
  rfl

theorem hardDelete_of_verified {s : Store} {t c : Name} (hverified : chainVerified s t c = true)
    (w : Bool) (seq : ℤ) (retract : Bool) : ∃ e, hardDelete s w t c seq retract = .error e := by
  cases w with
  | false => exact ⟨.notWriter, rfl⟩
  | true =>
    refine ⟨.verifiedNoDelete c, ?_⟩
    simp only [hardDelete, requireWriter, hverified, if_true]
    rfl

/-- Leaving redactions out of a run changes no digest and no proof. On a verified
chain every entry keeps the leaf hash of its original payload, and a hard delete
fails and changes nothing. -/
theorem erasure_preserves_verifiability (ops ops' : List Op) (herase : ErasesRedacts ops ops')
    (t c : Name) :
    digest sha256 (run sha256 ops) t c = digest sha256 (run sha256 ops') t c ∧
    (∀ seq size, inclusion sha256 (run sha256 ops) t c seq size =
      inclusion sha256 (run sha256 ops') t c seq size) ∧
    (∀ first second, consistency sha256 (run sha256 ops) t c first second =
      consistency sha256 (run sha256 ops') t c first second) ∧
    (chainVerified (run sha256 ops) t c = true →
      (∀ i rec, getEntry (run sha256 ops) t c i = some rec →
        ∃ (n : ℕ) (e : EntryInput), i = n + 1 ∧ (history sha256 t c ops)[n]? = some e ∧
          rec.leafHash = some (leafHash sha256 rec.etype e.payload rec.atTime rec.edges) ∧
          (rec.redacted = false → rec.payload = e.payload)) ∧
      ∀ w seq retract, (∃ e, hardDelete (run sha256 ops) w t c seq retract = .error e) ∧
        step sha256 (run sha256 ops) (.hardDelete w t c seq retract) = run sha256 ops) := by
  have hsame := herase.run sha256
  refine ⟨hsame.digest sha256 t c, hsame.inclusion sha256 t c, hsame.consistency sha256 t c, ?_⟩
  intro hverified
  constructor
  · intro i rec hrec
    exact leafHash_run sha256 hverified hrec
  · intro w seq retract
    obtain ⟨e, he⟩ := hardDelete_of_verified hverified w seq retract
    exact ⟨⟨e, he⟩, step_of_error sha256 he⟩

/-- The sample run with its redaction and without. -/
theorem erasure_preserves_verifiability_sample :
    chainVerified (run Sha256.hash sampleOps) sampleTenant sampleChain = true ∧
      digest Sha256.hash (run Sha256.hash sampleOps) sampleTenant sampleChain =
        digest Sha256.hash (run Sha256.hash (sampleOps.eraseIdx 1)) sampleTenant sampleChain ∧
      ∃ e, hardDelete (run Sha256.hash sampleOps) true sampleTenant sampleChain 2 true =
        .error e := by
  have hverified : chainVerified (run Sha256.hash sampleOps) sampleTenant sampleChain = true := by
    decide +kernel
  have herase : ErasesRedacts sampleOps (sampleOps.eraseIdx 1) :=
    .keep _ (.erase _ _ _ _ (.keep _ .nil))
  obtain ⟨hdigest, -, -, hchain⟩ := erasure_preserves_verifiability Sha256.hash sampleOps _ herase
    sampleTenant sampleChain
  exact ⟨hverified, hdigest, ((hchain hverified).2 true 2 true).1⟩

end BlueDB.Evidence
