import BlueDB.Evidence.Graph
import BlueDB.Evidence.Merkle

/-!
# Chains

Every write runs under the write lease: it reads the committed store, collects
one batch and commits it as a whole, or fails and commits nothing. A run is
therefore a list of operations, of any tenants, chains and graphs, in commit
order.
-/

namespace BlueDB.Evidence

variable (sha256 : List UInt8 → Digest)

section Reads

variable (s : Store) (t c : Name)

def getChainMeta : Option ChainMeta := s.get ⟨t, .chainMeta c⟩

/-- Last assigned sequence number, zero for an empty or absent chain. -/
def getSeq : ℕ :=
  match s.get ⟨t, .seqCounter c⟩ with
  | some n => n
  | none => 0

def getIdem (token : List UInt8) : Option IdemRecord := s.get ⟨t, .idem c token⟩

def getFrontier : Option Frontier := s.get ⟨t, .merkle c⟩

def getMerkleNode (level index : ℕ) : Option Digest := s.get ⟨t, .merkleNode c level index⟩

def getEntry (seq : ℤ) : Option EntryRecord := s.get ⟨t, .entry c seq⟩

/-- A chain without a metadata record counts as verified. -/
def chainVerified : Bool := ((getChainMeta s t c).map (·.verified)).getD true

end Reads

structure Appended where
  baseSeq : ℕ
  seqs : List ℕ
  deriving DecidableEq

def entryFrame (e : EntryInput) : List UInt8 :=
  frameField e.etype.1 ++ (frameField e.payload.1 ++ (frameField e.atTime.1 ++
    (beBytes 8 e.edges.1.length ++ e.edges.1.flatMap edgeFrame)))

/-- What the fingerprint of a batch is taken of. -/
def batchFrame (entries : Sized EntryInput (256 ^ 8)) : List UInt8 :=
  beBytes 8 entries.1.length ++ entries.1.flatMap entryFrame

def fingerprint (entries : Sized EntryInput (256 ^ 8)) : Digest := sha256 (batchFrame entries)

def EntryInput.leaf (e : EntryInput) : Digest :=
  leafHash sha256 e.etype e.payload e.atTime e.edges

/-- The record an entry is stored as. -/
def EntryInput.toRecord (verified : Bool) (e : EntryInput) : EntryRecord :=
  ⟨e.etype, e.payload, e.atTime, e.edges, if verified then some (e.leaf sha256) else none, false⟩

def metaWrites (s : Store) (t c : Name) : Batch :=
  match getChainMeta s t c with
  | some _ => []
  | none => [.put ⟨t, .chainMeta c⟩ ⟨true⟩]

def entryWrites (t c : Name) (records : List EntryRecord) (seqs : List ℕ) : Batch :=
  (records.zip seqs).map fun (record, seq) => .put ⟨t, .entry c seq⟩ record

def nodeWrites (t c : Name) (emitted : List (ℕ × ℕ × Digest)) : Batch :=
  emitted.map fun (level, index, hash) => .put ⟨t, .merkleNode c level index⟩ hash

/-- Push leaves in order, persisting the nodes each push completes. -/
def pushLeaves (t c : Name) : Frontier → List Digest → Option (Frontier × Batch)
  | frontier, [] => some (frontier, [])
  | frontier, leaf :: rest =>
    match frontier.pushEmit sha256 leaf with
    | none => none
    | some (frontier, emitted) =>
      (pushLeaves t c frontier rest).map fun (frontier, batch) =>
        (frontier, nodeWrites t c emitted ++ batch)

/-- The Merkle part of an append to a verified chain; a frontier without the
peak it needs is a panic. -/
def merkleWrites (s : Store) (t c : Name) (verified : Bool) (leaves : List Digest) :
    Except EvidenceError Batch :=
  if verified then
    match pushLeaves sha256 t c ((getFrontier s t c).getD .default) leaves with
    | some (frontier, batch) => .ok (batch ++ [.put ⟨t, .merkle c⟩ frontier])
    | none => .error (.storage "frontier peak underflow")
  else .ok []

def idemWrites (t c : Name) (idemKey : Option (List UInt8)) (rec : IdemRecord) : Batch :=
  match idemKey with
  | some token => [.put ⟨t, .idem c token⟩ rec]
  | none => []

/-- The part of an append behind the idempotency check. -/
def freshAppend (s : Store) (t c : Name) (entries : Sized EntryInput (256 ^ 8))
    (idemKey : Option (List UInt8)) : Except EvidenceError (Appended × Batch) := do
  let base := getSeq s t c
  let k := entries.1.length
  let seqs := List.range' (base + 1) k
  let verified := chainVerified s t c
  let records := entries.1.map (·.toRecord sha256 verified)
  let allEdges := entries.1.flatMap (·.edges.1)
  let ((edgeWrites, _), _) := applyEdgeDeltas s t ([], .empty) allEdges
  let merkle ← merkleWrites sha256 s t c verified (entries.1.map (·.leaf sha256))
  return (⟨base, seqs⟩, metaWrites s t c ++ entryWrites t c records seqs ++ edgeWrites ++
    [.put ⟨t, .seqCounter c⟩ (base + k)] ++ merkle ++
    idemWrites t c idemKey ⟨base, seqs, fingerprint sha256 entries⟩)

/-- Append `entries` at dense sequence numbers. A token that was used before
replays its append or, for other entries, conflicts. -/
def append (s : Store) (writer : Bool) (t c : Name) (entries : Sized EntryInput (256 ^ 8))
    (idemKey : Option (List UInt8)) : Except EvidenceError (Appended × Batch) :=
  if entries.1 = [] then .ok (⟨getSeq s t c, []⟩, [])
  else do
    requireWriter writer
    match idemKey.bind (getIdem s t c) with
    | some rec =>
      if rec.fingerprint = fingerprint sha256 entries then .ok (⟨rec.baseSeq, rec.seqs⟩, [])
      else .error .idemConflict
    | none => freshAppend sha256 s t c entries idemKey

def createChain (s : Store) (writer : Bool) (t c : Name) (verified : Bool) :
    Except EvidenceError Batch := do
  requireWriter writer
  match getChainMeta s t c with
  | some existing => if existing.verified ≠ verified then .error (.chainModeConflict c) else .ok []
  | none => .ok [.put ⟨t, .chainMeta c⟩ ⟨verified⟩]

def emptyBlob : Blob := ⟨[], by decide⟩

/-- Blank the payload of an entry and keep the rest. -/
def redact (s : Store) (writer : Bool) (t c : Name) (seq : ℤ) : Except EvidenceError Batch := do
  requireWriter writer
  match getEntry s t c seq with
  | none => .error (.entryNotFound c seq)
  | some rec => .ok [.put ⟨t, .entry c seq⟩ { rec with payload := emptyBlob, redacted := true }]

/-- The deletion of the edge an entry referred to. -/
def EdgeDelta.retraction (e : EdgeDelta) : EdgeDelta :=
  { e with weight := 0, op := .delete }

/-- Remove an entry of a plain chain, and its edges if asked to. -/
def hardDelete (s : Store) (writer : Bool) (t c : Name) (seq : ℤ) (retractEdges : Bool) :
    Except EvidenceError Batch := do
  requireWriter writer
  if chainVerified s t c then .error (.verifiedNoDelete c)
  else
    match getEntry s t c seq with
    | none => .error (.entryNotFound c seq)
    | some rec =>
      let retracted := if retractEdges then
        (applyEdgeDeltas s t ([], .empty) (rec.edges.1.map (·.retraction))).1.1 else []
      .ok (.delete ⟨t, .entry c seq⟩ :: retracted)

/-- A request; `writer` tells whether the node that takes it holds the writer. -/
inductive Op where
  | createChain (writer : Bool) (t c : Name) (verified : Bool)
  | append (writer : Bool) (t c : Name) (entries : Sized EntryInput (256 ^ 8))
      (idemKey : Option (List UInt8))
  | redact (writer : Bool) (t c : Name) (seq : ℤ)
  | hardDelete (writer : Bool) (t c : Name) (seq : ℤ) (retractEdges : Bool)
  | upsert (writer : Bool) (t graph : Name) (edges : List EdgeUpsert) (merge : Merge)
  | delete (writer : Bool) (t graph : Name) (edges : List EdgeRef)
  | mutate (writer : Bool) (t graph : Name) (upserts : List EdgeUpsert) (deletes : List EdgeRef)
      (merge : Merge)
  | dropGraph (writer : Bool) (t graph : Name)

/-- The batch a request commits. -/
def Op.batch (s : Store) : Op → Except EvidenceError Batch
  | .createChain writer t c verified => Evidence.createChain s writer t c verified
  | .append writer t c entries idemKey =>
      (Evidence.append sha256 s writer t c entries idemKey).map Prod.snd
  | .redact writer t c seq => Evidence.redact s writer t c seq
  | .hardDelete writer t c seq retractEdges => Evidence.hardDelete s writer t c seq retractEdges
  | .upsert writer t graph edges merge => (Graph.upsert s writer t graph edges merge).map Prod.snd
  | .delete writer t graph edges => (Graph.delete s writer t graph edges).map Prod.snd
  | .mutate writer t graph upserts deletes merge =>
      (Graph.mutate s writer t graph upserts deletes merge).map Prod.snd
  | .dropGraph writer t graph => (Graph.dropGraph s writer t graph).map Prod.snd

/-- A failed request leaves the store alone. -/
def step (s : Store) (op : Op) : Store :=
  match op.batch sha256 s with
  | .ok batch => s.commit batch
  | .error _ => s

def run (ops : List Op) : Store := ops.foldl (step sha256) Kv.empty

theorem run_concat (ops : List Op) (op : Op) :
    run sha256 (ops ++ [op]) = step sha256 (run sha256 ops) op := by
  simp [run]

theorem step_of_ok {s : Store} {op : Op} {batch : Batch} (h : op.batch sha256 s = .ok batch) :
    step sha256 s op = s.commit batch := by
  rw [step, h]

theorem step_of_error {s : Store} {op : Op} {e : EvidenceError}
    (h : op.batch sha256 s = .error e) : step sha256 s op = s := by
  rw [step, h]

theorem step_append_of_ok {s : Store} {w : Bool} {t c : Name}
    {entries : Sized EntryInput (256 ^ 8)} {idemKey : Option (List UInt8)} {res : Appended}
    {batch : Batch} (h : append sha256 s w t c entries idemKey = .ok (res, batch)) :
    step sha256 s (.append w t c entries idemKey) = s.commit batch := by
  apply step_of_ok
  rw [Op.batch, h]
  rfl

theorem step_append_of_error {s : Store} {w : Bool} {t c : Name}
    {entries : Sized EntryInput (256 ^ 8)} {idemKey : Option (List UInt8)} {e : EvidenceError}
    (h : append sha256 s w t c entries idemKey = .error e) :
    step sha256 s (.append w t c entries idemKey) = s := by
  apply step_of_error (e := e)
  rw [Op.batch, h]
  rfl

/-- What the store holds for one chain. -/
structure ChainView where
  chainMeta : Option ChainMeta
  seq : ℕ
  idem : List UInt8 → Option IdemRecord
  frontier : Option Frontier
  node : ℕ → ℕ → Option Digest
  entry : ℤ → Option EntryRecord

def chainView (s : Store) (t c : Name) : ChainView :=
  ⟨getChainMeta s t c, getSeq s t c, getIdem s t c, getFrontier s t c, getMerkleNode s t c,
    getEntry s t c⟩

def ChainView.verified (v : ChainView) : Bool := (v.chainMeta.map (·.verified)).getD true

def ChainView.empty : ChainView := ⟨none, 0, fun _ => none, none, fun _ _ => none, fun _ => none⟩

def RecordKey.chain? : RecordKey → Option Name
  | .entry chain _ => some chain
  | .seqCounter chain => some chain
  | .idem chain _ => some chain
  | .merkle chain => some chain
  | .chainMeta chain => some chain
  | .merkleNode chain _ _ => some chain
  | _ => none

theorem chainView_congr {s s' : Store} {t c : Name}
    (h : ∀ k : Key, k.tenant = t → k.record.chain? = some c → s.get k = s'.get k) :
    chainView s t c = chainView s' t c := by
  have hseq : getSeq s t c = getSeq s' t c := by
    unfold getSeq
    rw [h ⟨t, .seqCounter c⟩ rfl rfl]
  simp only [chainView, ChainView.mk.injEq]
  refine ⟨h ⟨t, .chainMeta c⟩ rfl rfl, hseq, ?_, h ⟨t, .merkle c⟩ rfl rfl, ?_, ?_⟩
  · funext token
    exact h ⟨t, .idem c token⟩ rfl rfl
  · funext level index
    exact h ⟨t, .merkleNode c level index⟩ rfl rfl
  · funext seq
    exact h ⟨t, .entry c seq⟩ rfl rfl

theorem WritesGraphs.chainView {t t' c : Name} {graphs : List Name} {batch : Batch}
    (h : WritesGraphs t graphs batch) (s : Store) :
    chainView (s.commit batch) t' c = chainView s t' c := by
  apply chainView_congr
  intro k _ hk
  apply h.get_commit
  right
  intro g _ hg
  cases hrec : k.record <;> simp [hrec, RecordKey.graph?, RecordKey.chain?] at hg hk

/-- The families of records an append writes. -/
inductive Kind where
  | entry
  | seqCounter
  | idem
  | merkle
  | chainMeta
  | edge
  | merkleNode
  deriving DecidableEq

@[simp] def RecordKey.kind : RecordKey → Kind
  | .entry _ _ => .entry
  | .seqCounter _ => .seqCounter
  | .idem _ _ => .idem
  | .merkle _ => .merkle
  | .chainMeta _ => .chainMeta
  | .graphEdge _ _ _ _ => .edge
  | .graphOut _ _ _ _ _ => .edge
  | .graphIn _ _ _ _ _ => .edge
  | .merkleNode _ _ _ => .merkleNode

/-- All writes of a batch go to records of the given families in tenant `t`, and
to no chain but `c`. -/
def Part (t c : Name) (kinds : List Kind) (batch : Batch) : Prop :=
  ∀ x ∈ batch, x.key.tenant = t ∧ x.key.record.kind ∈ kinds ∧
    ∀ c', x.key.record.chain? = some c' → c' = c

section Part

variable {t c : Name} {kinds : List Kind} {batch : Batch}

theorem Part.get_commit (h : Part t c kinds batch) (s : Store) {k : Key}
    (hk : k.record.kind ∉ kinds) : (s.commit batch).get k = s.get k := by
  apply Kv.get_commit_of_forall_ne
  intro x hx heq
  exact hk (heq ▸ (h x hx).2.1)

theorem Part.chainView_of_ne (h : Part t c kinds batch) (s : Store) {t' c' : Name}
    (hne : ¬(t' = t ∧ c' = c)) : chainView (s.commit batch) t' c' = chainView s t' c' := by
  apply chainView_congr
  intro k htenant hchain
  apply Kv.get_commit_of_forall_ne
  intro x hx heq
  obtain ⟨hx₁, -, hx₂⟩ := h x hx
  rw [heq] at hx₁ hx₂
  exact hne ⟨htenant.symm.trans hx₁, hx₂ c' hchain⟩

theorem Part.append {more : Batch} (h : Part t c kinds batch) (h' : Part t c kinds more) :
    Part t c kinds (batch ++ more) := by
  intro x hx
  rcases List.mem_append.mp hx with hx | hx
  · exact h x hx
  · exact h' x hx

theorem Part.mono {kinds' : List Kind} (h : Part t c kinds batch) (hsub : kinds ⊆ kinds') :
    Part t c kinds' batch :=
  fun x hx => ⟨(h x hx).1, hsub (h x hx).2.1, (h x hx).2.2⟩

theorem Part.nil (t c : Name) (kinds : List Kind) : Part t c kinds [] := by
  intro x hx
  simp at hx

theorem Part.singleton {x : Write Value} (htenant : x.key.tenant = t)
    (hchain : x.key.record.chain? = some c) : Part t c [x.key.record.kind] [x] := by
  intro y hy
  obtain rfl := List.mem_singleton.mp hy
  exact ⟨htenant, by simp, fun c' hc' => Option.some.inj (hc'.symm.trans hchain)⟩

theorem WritesGraphs.part {graphs : List Name} (h : WritesGraphs t graphs batch) (c : Name) :
    Part t c [.edge] batch := by
  intro x hx
  obtain ⟨htenant, g, -, hg⟩ := h x hx
  cases hrec : x.key.record <;> simp [hrec, RecordKey.graph?] at hg
  all_goals
    refine ⟨htenant, by simp, ?_⟩
    intro c' hc'
    simp [RecordKey.chain?] at hc'

end Part

theorem part_metaWrites (s : Store) (t c : Name) : Part t c [.chainMeta] (metaWrites s t c) := by
  unfold metaWrites
  split
  · exact Part.nil t c _
  · exact Part.singleton rfl rfl

theorem part_entryWrites (t c : Name) (records : List EntryRecord) (seqs : List ℕ) :
    Part t c [.entry] (entryWrites t c records seqs) := by
  intro x hx
  obtain ⟨pair, -, rfl⟩ := List.mem_map.mp hx
  exact Part.singleton (x := Write.put ⟨t, .entry c pair.2⟩ pair.1) rfl rfl _ (by simp)

theorem part_nodeWrites (t c : Name) (emitted : List (ℕ × ℕ × Digest)) :
    Part t c [.merkleNode] (nodeWrites t c emitted) := by
  intro x hx
  obtain ⟨node, -, rfl⟩ := List.mem_map.mp hx
  exact Part.singleton (x := Write.put ⟨t, .merkleNode c node.1 node.2.1⟩ node.2.2) rfl rfl _
    (by simp)

theorem part_idemWrites (t c : Name) (idemKey : Option (List UInt8)) (rec : IdemRecord) :
    Part t c [.idem] (idemWrites t c idemKey rec) := by
  unfold idemWrites
  split
  · exact Part.singleton rfl rfl
  · exact Part.nil t c _

theorem getEntry_commit_entryWrites (s : Store) (t c : Name) (records : List EntryRecord)
    (start : ℕ) (i : ℤ) :
    getEntry (s.commit (entryWrites t c records (List.range' start records.length))) t c i =
      if (start : ℤ) ≤ i ∧ i < start + records.length then records[(i - start).toNat]?
      else getEntry s t c i := by
  induction records generalizing s start with
  | nil =>
    rw [if_neg (by simp)]
    rfl
  | cons record records ih =>
    have hcons : entryWrites t c (record :: records)
        (List.range' start (record :: records).length) =
          .put ⟨t, .entry c start⟩ record ::
            entryWrites t c records (List.range' (start + 1) records.length) := by
      simp [entryWrites, List.range'_succ]
    rw [hcons, Kv.commit_cons, ih]
    by_cases hi : i = start
    · subst i
      rw [if_neg (by simp), if_pos (by simp)]
      simp only [sub_self, Int.toNat_zero, List.getElem?_cons_zero]
      exact Kv.get_write_put s _ _
    · have hkey : getEntry (s.write (.put ⟨t, .entry c start⟩ record)) t c i =
        getEntry s t c i := by
        apply Kv.get_write_of_ne
        simpa using hi
      by_cases hrange : (start : ℤ) ≤ i ∧ i < start + (record :: records).length
      · simp only [List.length_cons, Nat.cast_add, Nat.cast_one] at hrange
        have hindex : (i - start).toNat = (i - ↑(start + 1)).toNat + 1 := by
          push_cast
          omega
        rw [if_pos (by push_cast; omega),
            if_pos (by simp only [List.length_cons]; push_cast; omega),
          hindex, List.getElem?_cons_succ]
      · simp only [List.length_cons, Nat.cast_add, Nat.cast_one] at hrange
        rw [if_neg (by push_cast; omega),
            if_neg (by simp only [List.length_cons]; push_cast; omega),
          hkey]

/-- Every node whose range lies within the leaves is there and is the root of
its range. -/
def NodesComplete (node : ℕ → ℕ → Option Digest) (leaves : List Digest) : Prop :=
  ∀ level index, 1 ≤ level → (index + 1) * 2 ^ level ≤ leaves.length →
    node level index = some ((treeHash sha256).block leaves level index)

theorem getMerkleNode_commit_nodeWrites (s : Store) (t c : Name)
    (emitted : List (ℕ × ℕ × Digest)) {level index : ℕ} {hash : Digest}
    (hmem : (level, index, hash) ∈ emitted)
    (hfun : ∀ h, (level, index, h) ∈ emitted → h = hash) :
    getMerkleNode (s.commit (nodeWrites t c emitted)) t c level index = some hash := by
  induction emitted using List.reverseRecOn with
  | nil => simp at hmem
  | append_singleton emitted last ih =>
    obtain ⟨l, i, h⟩ := last
    have hsnoc : nodeWrites t c (emitted ++ [(l, i, h)]) =
        nodeWrites t c emitted ++ [.put ⟨t, .merkleNode c l i⟩ h] := by simp [nodeWrites]
    rw [hsnoc, Kv.commit_append, Kv.commit_cons, Kv.commit_nil]
    by_cases hlast : level = l ∧ index = i
    · obtain ⟨rfl, rfl⟩ := hlast
      rw [← hfun h (by simp)]
      exact Kv.get_write_put _ _ _
    · have hne : (⟨t, .merkleNode c level index⟩ : Key) ≠ ⟨t, .merkleNode c l i⟩ := by
        simpa using hlast
      have hold : (level, index, hash) ∈ emitted := by
        rcases List.mem_append.mp hmem with hold | hnew
        · exact hold
        · simp only [List.mem_singleton, Prod.mk.injEq] at hnew
          exact absurd ⟨hnew.1, hnew.2.1⟩ hlast
      rw [getMerkleNode, Kv.get_write_of_ne hne]
      exact ih hold fun h' hh' => hfun h' (by simp [hh'])

theorem getMerkleNode_commit_nodeWrites_of_notMem (s : Store) (t c : Name)
    (emitted : List (ℕ × ℕ × Digest)) {level index : ℕ}
    (hnot : ∀ h, (level, index, h) ∉ emitted) :
    getMerkleNode (s.commit (nodeWrites t c emitted)) t c level index =
      getMerkleNode s t c level index := by
  apply Kv.get_commit_of_forall_ne
  intro x hx heq
  obtain ⟨⟨l, i, h⟩, hmem, rfl⟩ := List.mem_map.mp hx
  have : l = level ∧ i = index := by simpa using heq
  obtain ⟨rfl, rfl⟩ := this
  exact hnot h hmem

theorem nodesComplete_push {s : Store} {t c : Name} {leaves : List Digest} {leaf : Digest}
    {emitted : List (ℕ × ℕ × Digest)}
    (hnodes : NodesComplete sha256 (getMerkleNode s t c) leaves)
    (hemitted : Completes sha256 (leaves ++ [leaf]) 0 emitted) :
    NodesComplete sha256 (getMerkleNode (s.commit (nodeWrites t c emitted)) t c)
      (leaves ++ [leaf]) := by
  intro level index hlevel hrange
  by_cases hlast : (index + 1) * 2 ^ level = (leaves ++ [leaf]).length
  · apply getMerkleNode_commit_nodeWrites
    · rw [hemitted]
      exact ⟨by omega, hlast, rfl⟩
    · intro h hh
      rw [hemitted] at hh
      exact hh.2.2
  · have hlen : (leaves ++ [leaf]).length = leaves.length + 1 := by simp
    have hold : (index + 1) * 2 ^ level ≤ leaves.length := by omega
    rw [getMerkleNode_commit_nodeWrites_of_notMem, hnodes level index hlevel hold,
      TreeHash.block_append _ hold]
    intro h hh
    rw [hemitted] at hh
    exact hlast hh.2.1

theorem pushLeaves_spec {t c : Name} (more leaves : List Digest) :
    ∃ batch, pushLeaves sha256 t c (frontierOf sha256 leaves) more =
        some (frontierOf sha256 (leaves ++ more), batch) ∧
      Part t c [.merkleNode] batch ∧
      ∀ s : Store, NodesComplete sha256 (getMerkleNode s t c) leaves →
        NodesComplete sha256 (getMerkleNode (s.commit batch) t c) (leaves ++ more) := by
  induction more generalizing leaves with
  | nil =>
    refine ⟨[], by simp [pushLeaves], Part.nil t c _, ?_⟩
    intro s h
    simpa using h
  | cons leaf more ih =>
    obtain ⟨emitted, hpush, hemitted⟩ := pushEmit_spec sha256 leaves leaf
    obtain ⟨batch, hrest, htags, hnodes⟩ := ih (leaves ++ [leaf])
    refine ⟨nodeWrites t c emitted ++ batch, ?_, (part_nodeWrites t c emitted).append htags, ?_⟩
    · rw [pushLeaves, hpush]
      simp only [hrest, Option.map_some, List.append_assoc, List.singleton_append]
    · intro s h
      have := hnodes _ (nodesComplete_push sha256 h hemitted)
      rwa [← Kv.commit_append, List.append_assoc, List.singleton_append] at this

/-- The chain behind a fresh append. -/
structure AppendsTo (v v' : ChainView) (entries : List EntryInput)
    (idemKey : Option (List UInt8)) (fp : Digest) : Prop where
  chainMeta : v'.chainMeta = some (v.chainMeta.getD ⟨true⟩)
  seq : v'.seq = v.seq + entries.length
  entry : ∀ i : ℤ, v'.entry i =
    if (v.seq : ℤ) < i ∧ i ≤ v.seq + entries.length then
      (entries.map (·.toRecord sha256 v.verified))[(i - v.seq - 1).toNat]?
    else v.entry i
  idem : ∀ token, v'.idem token =
    if idemKey = some token then some ⟨v.seq, List.range' (v.seq + 1) entries.length, fp⟩
    else v.idem token
  merkle : v.verified = true → ∀ leaves, v.frontier.getD .default = frontierOf sha256 leaves →
    NodesComplete sha256 v.node leaves →
      v'.frontier = some (frontierOf sha256 (leaves ++ entries.map (·.leaf sha256))) ∧
        NodesComplete sha256 v'.node (leaves ++ entries.map (·.leaf sha256))

theorem freshAppend_eq_ok {s : Store} {t c : Name} {entries : Sized EntryInput (256 ^ 8)}
    {idemKey : Option (List UInt8)} {res : Appended} {batch : Batch}
    (h : freshAppend sha256 s t c entries idemKey = .ok (res, batch)) :
    ∃ merkle, merkleWrites sha256 s t c (chainVerified s t c) (entries.1.map (·.leaf sha256)) =
        .ok merkle ∧
      res = ⟨getSeq s t c, List.range' (getSeq s t c + 1) entries.1.length⟩ ∧
      batch = metaWrites s t c ++
        entryWrites t c (entries.1.map (·.toRecord sha256 (chainVerified s t c)))
          (List.range' (getSeq s t c + 1) entries.1.length) ++
        (applyEdgeDeltas s t ([], .empty) (entries.1.flatMap (·.edges.1))).1.1 ++
        [.put ⟨t, .seqCounter c⟩ (getSeq s t c + entries.1.length)] ++ merkle ++
        idemWrites t c idemKey ⟨getSeq s t c, List.range' (getSeq s t c + 1) entries.1.length,
          fingerprint sha256 entries⟩ := by
  simp only [freshAppend, bind_eq_ok] at h
  obtain ⟨merkle, hmerkle, hrest⟩ := h
  refine ⟨merkle, hmerkle, ?_⟩
  have hpair := Except.ok.inj hrest
  exact ⟨(congrArg Prod.fst hpair).symm, (congrArg Prod.snd hpair).symm⟩

theorem part_pushLeaves {t c : Name} {frontier frontier' : Frontier} {leaves : List Digest}
    {batch : Batch} (h : pushLeaves sha256 t c frontier leaves = some (frontier', batch)) :
    Part t c [.merkleNode] batch := by
  induction leaves generalizing frontier batch with
  | nil =>
    simp only [pushLeaves, Option.some.injEq, Prod.mk.injEq] at h
    rw [← h.2]
    exact Part.nil t c _
  | cons leaf leaves ih =>
    rw [pushLeaves] at h
    split at h
    · simp at h
    · rename_i frontier₁ emitted hpush
      obtain ⟨⟨frontier₂, more⟩, hrest, heq⟩ := Option.map_eq_some_iff.mp h
      simp only [Prod.mk.injEq] at heq
      rw [← heq.2]
      exact (part_nodeWrites t c emitted).append (ih (heq.1 ▸ hrest))

theorem part_merkleWrites {s : Store} {t c : Name} {verified : Bool} {leaves : List Digest}
    {batch : Batch} (h : merkleWrites sha256 s t c verified leaves = .ok batch) :
    Part t c [.merkleNode, .merkle] batch := by
  unfold merkleWrites at h
  split at h
  · split at h
    · rename_i frontier nodes hpush
      obtain rfl := Except.ok.inj h
      apply ((part_pushLeaves sha256 hpush).mono (by simp)).append
      exact (Part.singleton rfl rfl).mono (by simp)
    · cases h
  · obtain rfl := Except.ok.inj h
    exact Part.nil t c _

theorem freshAppend_spec {s : Store} {t c : Name} {entries : Sized EntryInput (256 ^ 8)}
    {idemKey : Option (List UInt8)} {res : Appended} {batch : Batch}
    (h : freshAppend sha256 s t c entries idemKey = .ok (res, batch)) :
    AppendsTo sha256 (chainView s t c) (chainView (s.commit batch) t c) entries.1 idemKey
      (fingerprint sha256 entries) := by
  obtain ⟨merkle, hmerkle, -, rfl⟩ := freshAppend_eq_ok sha256 h
  have htMeta := part_metaWrites s t c
  have htEntry := part_entryWrites t c
    (entries.1.map (·.toRecord sha256 (chainVerified s t c)))
    (List.range' (getSeq s t c + 1) entries.1.length)
  have htEdge : Part t c [.edge]
      (applyEdgeDeltas s t ([], .empty) (entries.1.flatMap (·.edges.1))).1.1 :=
    (writesGraphs_applyEdgeDeltas s t _).part c
  have htSeq : Part t c [.seqCounter] [Write.put (V := Value) ⟨t, .seqCounter c⟩
      (getSeq s t c + entries.1.length)] := Part.singleton rfl rfl
  have htMerkle := part_merkleWrites sha256 hmerkle
  have htIdem := part_idemWrites t c idemKey ⟨getSeq s t c,
    List.range' (getSeq s t c + 1) entries.1.length, fingerprint sha256 entries⟩
  -- the stores between the parts, and what each part leaves alone
  simp only [Kv.commit_append]
  generalize hs₁ : s.commit (metaWrites s t c) = s₁
  generalize hs₂ : s₁.commit (entryWrites t c _ _) = s₂
  generalize hs₃ : s₂.commit (applyEdgeDeltas s t _ _).1.1 = s₃
  generalize hs₄ : s₃.commit [_] = s₄
  generalize hs₅ : s₄.commit merkle = s₅
  generalize hs₆ : s₅.commit (idemWrites t c idemKey _) = s₆
  have keep₁ : ∀ {k : Key}, k.record.kind ∉ [.chainMeta] → s₁.get k = s.get k :=
    fun hk => hs₁ ▸ htMeta.get_commit s hk
  have keep₂ : ∀ {k : Key}, k.record.kind ∉ [.entry] → s₂.get k = s₁.get k :=
    fun hk => hs₂ ▸ htEntry.get_commit s₁ hk
  have keep₃ : ∀ {k : Key}, k.record.kind ∉ [.edge] → s₃.get k = s₂.get k :=
    fun hk => hs₃ ▸ htEdge.get_commit s₂ hk
  have keep₄ : ∀ {k : Key}, k.record.kind ∉ [.seqCounter] → s₄.get k = s₃.get k :=
    fun hk => hs₄ ▸ htSeq.get_commit s₃ hk
  have keep₅ : ∀ {k : Key}, k.record.kind ∉ [.merkleNode, .merkle] → s₅.get k = s₄.get k :=
    fun hk => hs₅ ▸ htMerkle.get_commit s₄ hk
  have keep₆ : ∀ {k : Key}, k.record.kind ∉ [.idem] → s₆.get k = s₅.get k :=
    fun hk => hs₆ ▸ htIdem.get_commit s₅ hk
  constructor
  · have hkeep : getChainMeta s₆ t c = getChainMeta s₁ t c :=
      ((keep₆ (by simp)).trans (keep₅ (by simp))).trans
        (((keep₄ (by simp)).trans (keep₃ (by simp))).trans
          (keep₂ (by simp)))
    change getChainMeta s₆ t c = _
    rw [hkeep, ← hs₁]
    unfold metaWrites
    cases hmeta : getChainMeta s t c with
    | none =>
      simp only [chainView, hmeta]
      exact Kv.get_write_put s _ _
    | some existing =>
      simp only [chainView, hmeta]
      exact hmeta
  · have hput : s₆.get ⟨t, .seqCounter c⟩ = some (getSeq s t c + entries.1.length) := by
      rw [keep₆ (by simp), keep₅ (by simp), ← hs₄]
      exact Kv.get_write_put s₃ _ _
    simp only [chainView]
    rw [getSeq, hput]
  · intro i
    have hkeep : getEntry s₆ t c i = getEntry s₂ t c i :=
      ((keep₆ (by simp)).trans (keep₅ (by simp))).trans ((keep₄ (by simp)).trans (keep₃ (by simp)))
    have hold : getEntry s₁ t c i = getEntry s t c i := keep₁ (by simp)
    have hlen : (entries.1.map (·.toRecord sha256 (chainVerified s t c))).length =
        entries.1.length := List.length_map _
    have hput := getEntry_commit_entryWrites s₁ t c
      (entries.1.map (·.toRecord sha256 (chainVerified s t c))) (getSeq s t c + 1) i
    rw [hlen, hs₂, hold] at hput
    change getEntry s₆ t c i = _
    rw [hkeep, hput]
    by_cases hi : ((getSeq s t c : ℕ) : ℤ) < i ∧ i ≤ getSeq s t c + entries.1.length
    · have hindex : (i - ((getSeq s t c + 1 : ℕ) : ℤ)).toNat = (i - getSeq s t c - 1).toNat := by
        push_cast
        omega
      rw [if_pos (by push_cast; omega), hindex]
      exact (if_pos hi).symm
    · rw [if_neg (by push_cast; omega)]
      exact (if_neg hi).symm
  · intro token
    have hkeep : s₅.get ⟨t, .idem c token⟩ = s.get ⟨t, .idem c token⟩ := by
      rw [keep₅ (by simp), keep₄ (by simp), keep₃ (by simp), keep₂ (by simp), keep₁ (by simp)]
    change s₆.get ⟨t, .idem c token⟩ = _
    rw [← hs₆]
    unfold idemWrites
    cases idemKey with
    | none => exact hkeep
    | some used =>
      by_cases htoken : used = token
      · subst token
        rw [if_pos rfl]
        exact Kv.get_write_put s₅ _ _
      · rw [if_neg (by simpa using htoken)]
        refine (Kv.get_write_of_ne ?_).trans hkeep
        simpa using Ne.symm htoken
  · intro hverified leaves hfrontier hnodes
    obtain ⟨nodes, hpush, -, hcomplete⟩ := pushLeaves_spec sha256 (t := t) (c := c)
      (entries.1.map (·.leaf sha256)) leaves
    have hwrites : merkle = nodes ++
        [.put ⟨t, .merkle c⟩ (frontierOf sha256 (leaves ++ entries.1.map (·.leaf sha256)))] := by
      have hfrontier' : (getFrontier s t c).getD .default = frontierOf sha256 leaves := hfrontier
      have hverified' : chainVerified s t c = true := hverified
      rw [merkleWrites, if_pos hverified', hfrontier', hpush] at hmerkle
      exact (Except.ok.inj hmerkle).symm
    have hold : NodesComplete sha256 (getMerkleNode s₄ t c) leaves := by
      intro level index hlevel hrange
      have hkeep : getMerkleNode s₄ t c level index = getMerkleNode s t c level index :=
        ((keep₄ (by simp)).trans (keep₃ (by simp))).trans
          ((keep₂ (by simp)).trans (keep₁ (by simp)))
      rw [hkeep]
      exact hnodes level index hlevel hrange
    rw [hwrites, Kv.commit_append] at hs₅
    constructor
    · change s₆.get ⟨t, .merkle c⟩ = _
      rw [keep₆ (by simp), ← hs₅]
      exact Kv.get_write_put _ _ _
    · intro level index hlevel hrange
      change s₆.get ⟨t, .merkleNode c level index⟩ = _
      rw [keep₆ (by simp), ← hs₅]
      refine (Kv.get_write_of_ne (by simp)).trans ?_
      exact hcomplete s₄ hold level index hlevel hrange

end BlueDB.Evidence
