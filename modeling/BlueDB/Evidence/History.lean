import BlueDB.Evidence.Chain

/-!
# Histories

The history of a chain is the list of entries that its fresh appends accepted,
in commit order. Every step of a run does one of five things to a chain, and
each keeps the stored records true to the history: the counter is its length,
an entry record is the entry at its position but for a blanked payload, and on a
verified chain the frontier and the nodes are those of its leaf hashes.
-/

namespace BlueDB.Evidence

variable (sha256 : List UInt8 → Digest)

section Append

variable {s : Store} {w : Bool} {t c : Name} {entries : Sized EntryInput (256 ^ 8)}
  {idemKey : Option (List UInt8)} {res : Appended} {batch : Batch}

theorem append_eq_ok (h : append sha256 s w t c entries idemKey = .ok (res, batch)) :
    (entries.1 = [] ∧ res = ⟨getSeq s t c, []⟩ ∧ batch = []) ∨
    (entries.1 ≠ [] ∧ (∃ rec, idemKey.bind (getIdem s t c) = some rec ∧
      rec.fingerprint = fingerprint sha256 entries ∧ res = ⟨rec.baseSeq, rec.seqs⟩) ∧ batch = []) ∨
    (entries.1 ≠ [] ∧ idemKey.bind (getIdem s t c) = none ∧
      freshAppend sha256 s t c entries idemKey = .ok (res, batch)) := by
  unfold append at h
  by_cases hempty : entries.1 = []
  · rw [if_pos hempty] at h
    have hpair := Except.ok.inj h
    exact Or.inl ⟨hempty, (congrArg Prod.fst hpair).symm, (congrArg Prod.snd hpair).symm⟩
  · rw [if_neg hempty, bind_eq_ok] at h
    obtain ⟨-, -, h⟩ := h
    cases hidem : idemKey.bind (getIdem s t c) with
    | none =>
      rw [hidem] at h
      exact Or.inr (Or.inr ⟨hempty, rfl, h⟩)
    | some rec =>
      simp only [hidem] at h
      split at h
      · rename_i hfp
        have hpair := Except.ok.inj h
        exact Or.inr (Or.inl ⟨hempty, ⟨rec, rfl, hfp, (congrArg Prod.fst hpair).symm⟩,
          (congrArg Prod.snd hpair).symm⟩)
      · cases h

theorem append_of_idem {rec : IdemRecord} {token : List UInt8} (hne : entries.1 ≠ [])
    (hidem : getIdem s t c token = some rec) :
    append sha256 s true t c entries (some token) =
      if rec.fingerprint = fingerprint sha256 entries then .ok (⟨rec.baseSeq, rec.seqs⟩, [])
      else .error .idemConflict := by
  unfold append
  rw [if_neg hne]
  simp only [requireWriter, if_true, Option.bind_some, hidem]
  rfl

end Append

/-- The sequence numbers and the entries of a fresh append to the chain. -/
def freshResult (s : Store) (t c : Name) : Op → Option (List ℕ × List EntryInput)
  | .append w t' c' entries idemKey =>
    if t' = t ∧ c' = c ∧ idemKey.bind (getIdem s t' c') = none then
      match append sha256 s w t' c' entries idemKey with
      | .ok (res, _) => some (res.seqs, entries.1)
      | .error _ => none
    else none
  | _ => none

def accepted (t c : Name) (s : Store) (op : Op) : List EntryInput :=
  ((freshResult sha256 s t c op).map Prod.snd).getD []

def assigned (t c : Name) (s : Store) (op : Op) : List ℕ :=
  ((freshResult sha256 s t c op).map Prod.fst).getD []

/-- What `f` reads off the steps of a run, in order. -/
def collect {α : Type} (f : Store → Op → List α) : Store → List Op → List α
  | _, [] => []
  | s, op :: ops => f s op ++ collect f (step sha256 s op) ops

theorem collect_concat {α : Type} (f : Store → Op → List α) (s : Store) (ops : List Op) (op : Op) :
    collect sha256 f s (ops ++ [op]) =
      collect sha256 f s ops ++ f (ops.foldl (step sha256) s) op := by
  induction ops generalizing s with
  | nil => simp [collect]
  | cons op' ops ih => simp [collect, ih]

/-- The entries the chain has accepted. -/
def history (t c : Name) (ops : List Op) : List EntryInput :=
  collect sha256 (accepted sha256 t c) Kv.empty ops

/-- The sequence numbers handed out by appends that were not replays. -/
def assignedSeqs (t c : Name) (ops : List Op) : List ℕ :=
  collect sha256 (assigned sha256 t c) Kv.empty ops

theorem history_concat (t c : Name) (ops : List Op) (op : Op) :
    history sha256 t c (ops ++ [op]) =
      history sha256 t c ops ++ accepted sha256 t c (run sha256 ops) op :=
  collect_concat sha256 _ _ _ _

theorem assignedSeqs_concat (t c : Name) (ops : List Op) (op : Op) :
    assignedSeqs sha256 t c (ops ++ [op]) =
      assignedSeqs sha256 t c ops ++ assigned sha256 t c (run sha256 ops) op :=
  collect_concat sha256 _ _ _ _

def ChainView.redactAt (v : ChainView) (seq : ℤ) (rec : EntryRecord) : ChainView :=
  { v with
    entry := Function.update v.entry seq
      (some { rec with payload := emptyBlob, redacted := true }) }

def ChainView.eraseAt (v : ChainView) (seq : ℤ) : ChainView :=
  { v with entry := Function.update v.entry seq none }

theorem ChainView.redactAt_entry (v : ChainView) (seq i : ℤ) (rec : EntryRecord) :
    (v.redactAt seq rec).entry i =
      if i = seq then some { rec with payload := emptyBlob, redacted := true } else v.entry i :=
  Function.update_apply ..

theorem ChainView.eraseAt_entry (v : ChainView) (seq i : ℤ) :
    (v.eraseAt seq).entry i = if i = seq then none else v.entry i :=
  Function.update_apply ..

/-- Whether a request is a hard delete on the chain. -/
def Op.erases (t c : Name) : Op → Bool
  | .hardDelete _ t' c' _ _ => t' = t ∧ c' = c
  | _ => false

/-- Everything a step can do to a chain, with the entries it accepts and the
sequence numbers it hands out; only a request that `erases` removes an entry. -/
inductive ChainStep (erases : Bool) (v : ChainView) :
    List EntryInput → List ℕ → ChainView → Prop
  | idle : ChainStep erases v [] [] v
  | create (verified : Bool) : v.chainMeta = none →
      ChainStep erases v [] [] { v with chainMeta := some ⟨verified⟩ }
  | append {v' : ChainView} {entries : List EntryInput} {idemKey : Option (List UInt8)}
      {fp : Digest} : idemKey.bind v.idem = none →
      AppendsTo sha256 v v' entries idemKey fp →
      ChainStep erases v entries (List.range' (v.seq + 1) entries.length) v'
  | redact {seq : ℤ} {rec : EntryRecord} : v.entry seq = some rec →
      ChainStep erases v [] [] (v.redactAt seq rec)
  | erase (seq : ℤ) : erases = true → v.verified = false →
      ChainStep erases v [] [] (v.eraseAt seq)

theorem chainView_write_entry (s : Store) (t c : Name) (seq : ℤ) (value : Option EntryRecord) :
    chainView (s.write ⟨⟨t, .entry c seq⟩, value⟩) t c =
      { chainView s t c with entry := Function.update (chainView s t c).entry seq value } := by
  have hkeep : ∀ {k : Key}, k.record.kind ≠ .entry →
      (s.write ⟨⟨t, .entry c seq⟩, value⟩).get k = s.get k := by
    intro k hk
    apply Kv.get_write_of_ne
    intro heq
    exact hk (by rw [heq]; rfl)
  have hseq : getSeq (s.write ⟨⟨t, .entry c seq⟩, value⟩) t c = getSeq s t c := by
    unfold getSeq
    rw [hkeep (by simp)]
  simp only [chainView, ChainView.mk.injEq]
  refine ⟨hkeep (by simp), hseq, ?_, hkeep (by simp), ?_, ?_⟩
  · funext token
    exact hkeep (by simp)
  · funext level index
    exact hkeep (by simp)
  · funext i
    rw [Function.update_apply]
    by_cases hi : i = seq
    · subst i
      rw [if_pos rfl]
      exact Kv.get_write_self s ⟨⟨t, .entry c seq⟩, value⟩
    · rw [if_neg hi]
      apply Kv.get_write_of_ne
      simpa using hi

theorem chainView_write_meta (s : Store) (t c : Name) (m : ChainMeta) :
    chainView (s.write (.put ⟨t, .chainMeta c⟩ m)) t c =
      { chainView s t c with chainMeta := some m } := by
  have hkeep : ∀ {k : Key}, k.record.kind ≠ .chainMeta →
      (s.write (.put ⟨t, .chainMeta c⟩ m)).get k = s.get k := by
    intro k hk
    apply Kv.get_write_of_ne
    intro heq
    exact hk (by rw [heq]; rfl)
  have hseq : getSeq (s.write (.put ⟨t, .chainMeta c⟩ m)) t c = getSeq s t c := by
    unfold getSeq
    rw [hkeep (by simp)]
  simp only [chainView, ChainView.mk.injEq]
  refine ⟨Kv.get_write_put s _ _, hseq, ?_, hkeep (by simp), ?_, ?_⟩
  · funext token
    exact hkeep (by simp)
  · funext level index
    exact hkeep (by simp)
  · funext i
    exact hkeep (by simp)

theorem chainStep_of_view_eq {erases : Bool} {v v' : ChainView} (h : v' = v) :
    ChainStep sha256 erases v [] [] v' := by
  subst h
  exact .idle

section Steps

variable {s : Store} {batch : Batch} (t c : Name)

theorem createChain_chainStep {w verified : Bool} {t' c' : Name}
    (h : createChain s w t' c' verified = .ok batch) :
    ChainStep sha256 false (chainView s t c) [] [] (chainView (s.commit batch) t c) := by
  simp only [createChain, bind_eq_ok] at h
  obtain ⟨-, -, h⟩ := h
  cases hmeta : getChainMeta s t' c' with
  | some existing =>
    simp only [hmeta] at h
    split at h
    · cases h
    · obtain rfl := Except.ok.inj h
      exact .idle
  | none =>
    simp only [hmeta] at h
    obtain rfl := Except.ok.inj h
    by_cases hsame : t = t' ∧ c = c'
    · obtain ⟨rfl, rfl⟩ := hsame
      rw [Kv.commit_cons, Kv.commit_nil, chainView_write_meta]
      exact .create verified hmeta
    · apply chainStep_of_view_eq
      exact (Part.singleton rfl rfl).chainView_of_ne s hsame

theorem redact_chainStep {w : Bool} {t' c' : Name} {seq : ℤ}
    (h : redact s w t' c' seq = .ok batch) :
    ChainStep sha256 false (chainView s t c) [] [] (chainView (s.commit batch) t c) := by
  simp only [redact, bind_eq_ok] at h
  obtain ⟨-, -, h⟩ := h
  cases hentry : getEntry s t' c' seq with
  | none =>
    simp only [hentry] at h
    cases h
  | some rec =>
    simp only [hentry] at h
    obtain rfl := Except.ok.inj h
    by_cases hsame : t = t' ∧ c = c'
    · obtain ⟨rfl, rfl⟩ := hsame
      rw [Kv.commit_cons, Kv.commit_nil, Write.put, chainView_write_entry]
      exact .redact hentry
    · apply chainStep_of_view_eq
      exact (Part.singleton rfl rfl).chainView_of_ne s hsame

theorem hardDelete_chainStep {w retract : Bool} {t' c' : Name} {seq : ℤ}
    (h : hardDelete s w t' c' seq retract = .ok batch) :
    ChainStep sha256 (Op.erases t c (.hardDelete w t' c' seq retract)) (chainView s t c) [] []
      (chainView (s.commit batch) t c) := by
  simp only [hardDelete, bind_eq_ok] at h
  obtain ⟨-, -, h⟩ := h
  by_cases hverified : chainVerified s t' c' = true
  · rw [if_pos hverified] at h
    cases h
  rw [if_neg hverified] at h
  cases hentry : getEntry s t' c' seq with
  | none =>
    simp only [hentry] at h
    cases h
  | some rec =>
    simp only [hentry] at h
    obtain rfl := Except.ok.inj h
    have hretracted : ∀ s' : Store, chainView (s'.commit (if retract then
        (applyEdgeDeltas s t' ([], .empty) (rec.edges.1.map (·.retraction))).1.1 else [])) t c =
          chainView s' t c := by
      intro s'
      split
      · exact (writesGraphs_applyEdgeDeltas s t' _).chainView s'
      · rfl
    rw [Kv.commit_cons, hretracted]
    by_cases hsame : t = t' ∧ c = c'
    · obtain ⟨rfl, rfl⟩ := hsame
      rw [Write.delete, chainView_write_entry]
      exact .erase seq (by simp [Op.erases]) (Bool.eq_false_iff.mpr hverified)
    · apply chainStep_of_view_eq
      exact (Part.singleton (x := Write.delete ⟨t', .entry c' seq⟩) rfl rfl).chainView_of_ne s hsame

theorem freshAppend_chainView_of_ne {t' c' : Name} {entries : Sized EntryInput (256 ^ 8)}
    {idemKey : Option (List UInt8)} {res : Appended}
    (h : freshAppend sha256 s t' c' entries idemKey = .ok (res, batch))
    (hne : ¬(t = t' ∧ c = c')) : chainView (s.commit batch) t c = chainView s t c := by
  obtain ⟨merkle, hmerkle, -, rfl⟩ := freshAppend_eq_ok sha256 h
  simp only [Kv.commit_append]
  rw [(part_idemWrites t' c' _ _).chainView_of_ne _ hne,
    (part_merkleWrites sha256 hmerkle).chainView_of_ne _ hne,
    (Part.singleton rfl rfl).chainView_of_ne _ hne,
    (writesGraphs_applyEdgeDeltas s t' _).chainView,
    (part_entryWrites t' c' _ _).chainView_of_ne _ hne,
    (part_metaWrites s t' c').chainView_of_ne _ hne]

theorem append_chainStep {w : Bool} {t' c' : Name} {entries : Sized EntryInput (256 ^ 8)}
    {idemKey : Option (List UInt8)} {res : Appended}
    (h : append sha256 s w t' c' entries idemKey = .ok (res, batch)) :
    ChainStep sha256 false (chainView s t c)
      (accepted sha256 t c s (.append w t' c' entries idemKey))
      (assigned sha256 t c s (.append w t' c' entries idemKey))
        (chainView (s.commit batch) t c) := by
  by_cases hsame : t' = t ∧ c' = c
  · obtain ⟨rfl, rfl⟩ := hsame
    rcases append_eq_ok sha256 h with ⟨hempty, rfl, rfl⟩ | ⟨-, ⟨rec, hrec, -⟩, rfl⟩ |
        ⟨-, hnone, hfresh⟩
    · have hno : accepted sha256 t' c' s (.append w t' c' entries idemKey) = [] ∧
          assigned sha256 t' c' s (.append w t' c' entries idemKey) = [] := by
        simp only [accepted, assigned, freshResult, h, hempty]
        split <;> simp
      rw [hno.1, hno.2]
      exact .idle
    · have hno : freshResult sha256 s t' c' (.append w t' c' entries idemKey) = none := by
        simp [freshResult, hrec]
      rw [accepted, assigned, hno]
      exact .idle
    · have hyes : freshResult sha256 s t' c' (.append w t' c' entries idemKey) =
          some (res.seqs, entries.1) := by
        simp [freshResult, hnone, h]
      obtain ⟨-, -, hres, -⟩ := freshAppend_eq_ok sha256 hfresh
      rw [accepted, assigned, hyes, hres]
      exact .append hnone (freshAppend_spec sha256 hfresh)
  · have hno : freshResult sha256 s t c (.append w t' c' entries idemKey) = none := by
      simp only [freshResult]
      rw [if_neg (fun hsame' => hsame ⟨hsame'.1, hsame'.2.1⟩)]
    rw [accepted, assigned, hno]
    apply chainStep_of_view_eq
    rcases append_eq_ok sha256 h with ⟨-, -, rfl⟩ | ⟨-, -, rfl⟩ | ⟨-, -, hfresh⟩
    · rfl
    · rfl
    · exact freshAppend_chainView_of_ne sha256 t c hfresh (fun h' => hsame ⟨h'.1.symm, h'.2.symm⟩)

theorem dropGraph_chainView {w : Bool} {t' graph : Name} {n : ℕ}
    (h : Graph.dropGraph s w t' graph = .ok (n, batch)) :
    chainView (s.commit batch) t c = chainView s t c := by
  simp only [Graph.dropGraph, bind_eq_ok] at h
  obtain ⟨-, -, h⟩ := h
  obtain rfl := (congrArg Prod.snd (Except.ok.inj h)).symm
  apply chainView_congr
  intro k _ hchain
  rw [get_commit_dropGraph]
  apply if_neg
  rintro ⟨-, hgraph⟩
  cases hrec : k.record <;> simp [hrec, RecordKey.graph?, RecordKey.chain?] at hgraph hchain

end Steps

theorem freshResult_of_error {s : Store} {op : Op} {e : EvidenceError} (t c : Name)
    (h : op.batch sha256 s = .error e) : freshResult sha256 s t c op = none := by
  cases op with
  | append w t' c' entries idemKey =>
    rw [Op.batch, map_eq_error] at h
    simp only [freshResult, h]
    split <;> rfl
  | _ => rfl

theorem chainStep_step (s : Store) (op : Op) (t c : Name) :
    ChainStep sha256 (op.erases t c) (chainView s t c) (accepted sha256 t c s op)
      (assigned sha256 t c s op) (chainView (step sha256 s op) t c) := by
  cases hbatch : op.batch sha256 s with
  | error e =>
    rw [step_of_error sha256 hbatch, accepted, assigned, freshResult_of_error sha256 t c hbatch]
    exact .idle
  | ok batch =>
    rw [step_of_ok sha256 hbatch]
    cases op with
    | createChain w t' c' verified => exact createChain_chainStep sha256 t c hbatch
    | append w t' c' entries idemKey =>
      obtain ⟨⟨res, batch'⟩, happend, rfl⟩ := map_eq_ok.mp hbatch
      exact append_chainStep sha256 t c happend
    | redact w t' c' seq => exact redact_chainStep sha256 t c hbatch
    | hardDelete w t' c' seq retract => exact hardDelete_chainStep sha256 t c hbatch
    | upsert w t' graph edges merge =>
      obtain ⟨⟨n, batch'⟩, hok, rfl⟩ := map_eq_ok.mp hbatch
      apply chainStep_of_view_eq
      rw [Graph.upsert_eq_ok hok]
      exact (writesGraphs_applyEdgeDeltas s t' _).chainView s
    | delete w t' graph edges =>
      obtain ⟨⟨n, batch'⟩, hok, rfl⟩ := map_eq_ok.mp hbatch
      apply chainStep_of_view_eq
      rw [Graph.delete_eq_ok hok]
      exact (writesGraphs_applyEdgeDeltas s t' _).chainView s
    | mutate w t' graph upserts deletes merge =>
      obtain ⟨⟨n, batch'⟩, hok, rfl⟩ := map_eq_ok.mp hbatch
      apply chainStep_of_view_eq
      rw [Graph.mutate_eq_ok hok]
      exact (writesGraphs_applyEdgeDeltas s t' _).chainView s
    | dropGraph w t' graph =>
      obtain ⟨⟨n, batch'⟩, hok, rfl⟩ := map_eq_ok.mp hbatch
      apply chainStep_of_view_eq
      exact dropGraph_chainView t c hok

/-- `rec` is the stored form of the entry `e`; only a redaction blanks the payload. -/
structure RecordOf (verified : Bool) (e : EntryInput) (rec : EntryRecord) : Prop where
  etype : rec.etype = e.etype
  atTime : rec.atTime = e.atTime
  edges : rec.edges = e.edges
  leafHash : rec.leafHash = if verified then some (e.leaf sha256) else none
  payload : rec.redacted = false → rec.payload = e.payload

/-- No entry of the chain was removed. -/
def ChainView.AllLive (v : ChainView) : Prop :=
  ∀ n : ℕ, n < v.seq → (v.entry (n + 1)).isSome = true

structure Represents (v : ChainView) (hist : List EntryInput) : Prop where
  seq : v.seq = hist.length
  created : hist ≠ [] → v.chainMeta.isSome = true
  entry : ∀ i rec, v.entry i = some rec →
    ∃ (n : ℕ) (e : EntryInput), i = n + 1 ∧ hist[n]? = some e ∧ RecordOf sha256 v.verified e rec
  live : v.verified = true → v.AllLive
  stored : v.verified = true → hist ≠ [] → v.frontier.isSome = true
  frontier : v.verified = true →
    v.frontier.getD .default = frontierOf sha256 (hist.map (·.leaf sha256))
  nodes : v.verified = true → NodesComplete sha256 v.node (hist.map (·.leaf sha256))

theorem frontierOf_nil : frontierOf sha256 [] = .default := by
  simp [frontierOf, Frontier.default]

theorem allLive_empty : ChainView.empty.AllLive := by
  intro n hn
  simp [ChainView.empty] at hn

theorem represents_empty : Represents sha256 ChainView.empty [] where
  seq := rfl
  created := by simp
  entry := by simp [ChainView.empty]
  live := fun _ => allLive_empty
  stored := by simp
  frontier := by
    intro _
    exact (frontierOf_nil sha256).symm
  nodes := by
    intro _ level index _ hrange
    have : 0 < (index + 1) * 2 ^ level := by positivity
    simp at hrange

theorem RecordOf.redact {verified : Bool} {e : EntryInput} {rec : EntryRecord}
    (h : RecordOf sha256 verified e rec) :
    RecordOf sha256 verified e { rec with payload := emptyBlob, redacted := true } :=
  ⟨h.etype, h.atTime, h.edges, h.leafHash, by simp⟩

theorem recordOf_toRecord (verified : Bool) (e : EntryInput) :
    RecordOf sha256 verified e (e.toRecord sha256 verified) :=
  ⟨rfl, rfl, rfl, rfl, fun _ => rfl⟩

theorem AppendsTo.verified_eq {v v' : ChainView} {entries : List EntryInput}
    {idemKey : Option (List UInt8)} {fp : Digest}
    (h : AppendsTo sha256 v v' entries idemKey fp) : v'.verified = v.verified := by
  rw [ChainView.verified, ChainView.verified, h.chainMeta]
  cases v.chainMeta <;> rfl

theorem AppendsTo.allLive {v v' : ChainView} {entries : List EntryInput}
    {idemKey : Option (List UInt8)} {fp : Digest} (h : AppendsTo sha256 v v' entries idemKey fp)
    (hlive : v.AllLive) : v'.AllLive := by
  intro n hn
  rw [h.seq] at hn
  rw [h.entry]
  by_cases hi : (v.seq : ℤ) < (n : ℤ) + 1 ∧ (n : ℤ) + 1 ≤ v.seq + entries.length
  · rw [if_pos hi, List.getElem?_eq_getElem (by rw [List.length_map]; omega)]
    rfl
  · rw [if_neg hi]
    exact hlive n (by omega)

theorem ChainView.AllLive.redactAt {v : ChainView} (h : v.AllLive) (seq : ℤ) (rec : EntryRecord) :
    (v.redactAt seq rec).AllLive := by
  intro n hn
  rw [ChainView.redactAt_entry]
  split
  · rfl
  · exact h n hn

theorem ChainStep.allLive {v v' : ChainView} {more : List EntryInput} {seqs : List ℕ}
    (h : ChainStep sha256 false v more seqs v') (hlive : v.AllLive) : v'.AllLive := by
  cases h with
  | idle => exact hlive
  | create => exact hlive
  | append _ happ => exact happ.allLive sha256 hlive
  | redact _ => exact hlive.redactAt _ _
  | erase _ herases => cases herases

theorem Represents.append {v v' : ChainView} {hist entries : List EntryInput}
    {idemKey : Option (List UInt8)} {fp : Digest} (hr : Represents sha256 v hist)
    (h : AppendsTo sha256 v v' entries idemKey fp) : Represents sha256 v' (hist ++ entries) where
  seq := by rw [h.seq, hr.seq, List.length_append]
  created := by
    intro _
    rw [h.chainMeta]
    rfl
  entry := by
    intro i rec hrec
    rw [h.verified_eq]
    rw [h.entry] at hrec
    by_cases hi : (v.seq : ℤ) < i ∧ i ≤ v.seq + entries.length
    · rw [if_pos hi, List.getElem?_map, Option.map_eq_some_iff] at hrec
      obtain ⟨e, he, rfl⟩ := hrec
      refine ⟨v.seq + (i - v.seq - 1).toNat, e, by omega, ?_, recordOf_toRecord sha256 _ e⟩
      rw [hr.seq, List.getElem?_append_right (by omega), Nat.add_sub_cancel_left, ← hr.seq]
      exact he
    · rw [if_neg hi] at hrec
      obtain ⟨n, e, hn, he, hof⟩ := hr.entry i rec hrec
      obtain ⟨hlt, -⟩ := List.getElem?_eq_some_iff.mp he
      exact ⟨n, e, hn, by rw [List.getElem?_append_left hlt]; exact he, hof⟩
  live := by
    intro hverified
    rw [h.verified_eq] at hverified
    exact h.allLive sha256 (hr.live hverified)
  stored := by
    intro hverified _
    rw [h.verified_eq] at hverified
    rw [(h.merkle hverified _ (hr.frontier hverified) (hr.nodes hverified)).1]
    rfl
  frontier := by
    intro hverified
    rw [h.verified_eq] at hverified
    rw [(h.merkle hverified _ (hr.frontier hverified) (hr.nodes hverified)).1, List.map_append]
    rfl
  nodes := by
    intro hverified
    rw [h.verified_eq] at hverified
    rw [List.map_append]
    exact (h.merkle hverified _ (hr.frontier hverified) (hr.nodes hverified)).2

theorem ChainStep.represents {erases : Bool} {v v' : ChainView} {hist more : List EntryInput}
    {seqs : List ℕ} (h : ChainStep sha256 erases v more seqs v') (hr : Represents sha256 v hist) :
    Represents sha256 v' (hist ++ more) := by
  cases h with
  | idle =>
    rw [List.append_nil]
    exact hr
  | create verified hmeta =>
    -- the chain has no metadata yet, so nothing has been appended to it
    have hempty : hist = [] := by
      by_contra hne
      have := hr.created hne
      rw [hmeta] at this
      simp at this
    subst hempty
    have hverified : v.verified = true := by rw [ChainView.verified, hmeta]; rfl
    exact ⟨hr.seq, by simp, fun i rec hrec => by simpa using hr.entry i rec hrec,
      fun _ => hr.live hverified, by simp, fun _ => hr.frontier hverified,
      fun _ => hr.nodes hverified⟩
  | append _ happ => exact hr.append sha256 happ
  | @redact seq rec hrec =>
    rw [List.append_nil]
    refine ⟨hr.seq, hr.created, ?_, fun hverified => (hr.live hverified).redactAt seq rec,
      hr.stored, hr.frontier, hr.nodes⟩
    intro i rec' hrec'
    rw [ChainView.redactAt_entry] at hrec'
    by_cases hi : i = seq
    · subst i
      obtain ⟨n, e, hn, he, hof⟩ := hr.entry seq rec hrec
      rw [if_pos rfl] at hrec'
      obtain rfl := Option.some.inj hrec'
      exact ⟨n, e, hn, he, hof.redact⟩
    · rw [if_neg hi] at hrec'
      exact hr.entry i rec' hrec'
  | erase seq _ hplain =>
    rw [List.append_nil]
    have hno : ¬(v.eraseAt seq).verified = true := by
      change ¬v.verified = true
      simp [hplain]
    refine ⟨hr.seq, hr.created, ?_, fun h => absurd h hno, fun h => absurd h hno,
      fun h => absurd h hno, fun h => absurd h hno⟩
    intro i rec' hrec'
    rw [ChainView.eraseAt_entry] at hrec'
    by_cases hi : i = seq
    · rw [if_pos hi] at hrec'
      cases hrec'
    · rw [if_neg hi] at hrec'
      exact hr.entry i rec' hrec'

theorem represents_run (ops : List Op) (t c : Name) :
    Represents sha256 (chainView (run sha256 ops) t c) (history sha256 t c ops) := by
  induction ops using List.reverseRecOn with
  | nil => exact represents_empty sha256
  | append_singleton ops op ih =>
    rw [run_concat, history_concat]
    exact (chainStep_step sha256 (run sha256 ops) op t c).represents sha256 ih

def sampleTenant : Name := ⟨[0x5f], by decide⟩

def sampleChain : Name := ⟨[0x63], by decide⟩

/-- An event without edges whose payload is one byte. -/
def sampleEntry (payload : UInt8) : EntryInput :=
  ⟨⟨[0x74], by decide⟩, ⟨[payload], by simp⟩, emptyBlob, ⟨[], by decide⟩⟩

def sampleBatch (payload : UInt8) : Sized EntryInput (256 ^ 8) :=
  ⟨[sampleEntry payload], by simp⟩

def sampleToken : List UInt8 := [0x6b]

end BlueDB.Evidence
