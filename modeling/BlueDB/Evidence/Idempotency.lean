import BlueDB.Lib.Sha256
import BlueDB.Evidence.History

/-!
# Dense sequence numbers and exactly-once appends

Fresh appends hand out consecutive numbers, and the record of a token, once
written, stays for good. The frame that a fingerprint is taken of separates any
two batches that differ anywhere. An append without entries is answered before
the token is looked at, so it is never recorded and never conflicts.
-/

namespace BlueDB.Evidence

variable (sha256 : List UInt8 → Digest)

theorem selfDelimiting_frameName : SelfDelimiting fun name : Name => frameField name.1 := by
  have hle : ∀ name : Name, name.1.length < 256 ^ 8 :=
    fun name => name.2.trans (by norm_num)
  apply (selfDelimiting_lengthPrefixed 8).comp (f := fun name : Name => ⟨name.1, hle name⟩)
  intro a b h
  exact Subtype.ext (Subtype.mk.inj h)

theorem selfDelimiting_weight : SelfDelimiting fun w : Int64 => beBytes 8 w.toUInt64.toNat := by
  apply SelfDelimiting.of_length (w := 8)
  · intro w
    exact length_beBytes _ _
  · intro a b h
    have hnat := beBytes_inj (UInt64.toNat_lt _) (UInt64.toNat_lt _) h
    rw [← Int64.toInt64_toUInt64 a, UInt64.toNat_inj.mp hnat, Int64.toInt64_toUInt64]

theorem selfDelimiting_op : SelfDelimiting fun op : EdgeOp => [opDiscriminant op] := by
  apply SelfDelimiting.of_length (w := 1)
  · intro op
    rfl
  · intro a b h
    match a, b with
    | .upsert .set, .upsert .set => rfl
    | .upsert .max, .upsert .max => rfl
    | .delete, .delete => rfl
    | .upsert .set, .upsert .max => exact absurd h (by decide)
    | .upsert .max, .upsert .set => exact absurd h (by decide)
    | .upsert .set, .delete => exact absurd h (by decide)
    | .upsert .max, .delete => exact absurd h (by decide)
    | .delete, .upsert .set => exact absurd h (by decide)
    | .delete, .upsert .max => exact absurd h (by decide)

theorem selfDelimiting_edgeFrame : SelfDelimiting edgeFrame := by
  have hframe := selfDelimiting_frameName.prod (selfDelimiting_frameName.prod
    (selfDelimiting_frameName.prod (selfDelimiting_frameName.prod
      (selfDelimiting_weight.prod selfDelimiting_op))))
  apply hframe.comp (f := fun d : EdgeDelta => (d.graph, d.src, d.dst, d.etype, d.weight, d.op))
  rintro ⟨graph, src, dst, weight, etype, op⟩ ⟨graph', src', dst', weight', etype', op'⟩ h
  simp only [Prod.mk.injEq] at h
  obtain ⟨rfl, rfl, rfl, rfl, rfl, rfl⟩ := h
  rfl

theorem selfDelimiting_entryFrame : SelfDelimiting entryFrame := by
  have hfield : SelfDelimiting fun b : Blob => frameField b.1 := selfDelimiting_lengthPrefixed 8
  have hframe := hfield.prod (hfield.prod (hfield.prod (selfDelimiting_edgeFrame.counted 8)))
  apply hframe.comp (f := fun e : EntryInput => (e.etype, e.payload, e.atTime, e.edges))
  rintro ⟨etype, payload, atTime, edges⟩ ⟨etype', payload', atTime', edges'⟩ h
  simp only [Prod.mk.injEq] at h
  obtain ⟨rfl, rfl, rfl, rfl⟩ := h
  rfl

theorem batchFrame_injective : Function.Injective batchFrame :=
  (selfDelimiting_entryFrame.counted 8).injective

theorem ChainStep.seq_eq {erases : Bool} {v v' : ChainView} {more : List EntryInput} {seqs : List ℕ}
    (h : ChainStep sha256 erases v more seqs v') :
    v'.seq = v.seq + seqs.length ∧ seqs = List.range' (v.seq + 1) seqs.length := by
  cases h with
  | append _ happ =>
    constructor
    · rw [happ.seq, List.length_range']
    · rw [List.length_range']
  | _ => exact ⟨rfl, rfl⟩

/-- The numbers handed out so far are the first ones, in order. -/
theorem assignedSeqs_eq (ops : List Op) (t c : Name) :
    assignedSeqs sha256 t c ops = List.range' 1 (getSeq (run sha256 ops) t c) := by
  induction ops using List.reverseRecOn with
  | nil => rfl
  | append_singleton ops op ih =>
    obtain ⟨hseq, hseqs⟩ := (chainStep_step sha256 (run sha256 ops) op t c).seq_eq
    have hseq' : getSeq (step sha256 (run sha256 ops) op) t c =
        getSeq (run sha256 ops) t c + (assigned sha256 t c (run sha256 ops) op).length := hseq
    have hseqs' : assigned sha256 t c (run sha256 ops) op =
        List.range' (1 + getSeq (run sha256 ops) t c)
          (assigned sha256 t c (run sha256 ops) op).length := by
      rw [Nat.add_comm]
      exact hseqs
    rw [run_concat, assignedSeqs_concat, ih, hseq', hseqs', List.range'_append_1,
      List.length_range']

theorem ChainStep.idem_of_some {erases : Bool} {v v' : ChainView} {more : List EntryInput}
    {seqs : List ℕ}
    (h : ChainStep sha256 erases v more seqs v') {token : List UInt8} {rec : IdemRecord}
    (hrec : v.idem token = some rec) : v'.idem token = some rec := by
  cases h with
  | @append _ _ idemKey _ hnone happ =>
    rw [happ.idem, if_neg]
    · exact hrec
    · rintro rfl
      rw [Option.bind_some, hrec] at hnone
      cases hnone
  | _ => exact hrec

theorem getIdem_foldl {s : Store} {t c : Name} {token : List UInt8} {rec : IdemRecord}
    (h : getIdem s t c token = some rec) (ops : List Op) :
    getIdem (ops.foldl (step sha256) s) t c token = some rec := by
  induction ops generalizing s with
  | nil => exact h
  | cons op ops ih =>
    apply ih
    exact (chainStep_step sha256 s op t c).idem_of_some sha256 h

/-- A successful append with a token leaves the token's record behind. -/
theorem getIdem_append {s : Store} {w : Bool} {t c : Name} {entries : Sized EntryInput (256 ^ 8)}
    {token : List UInt8} {res : Appended} {batch : Batch} (hne : entries.1 ≠ [])
    (h : append sha256 s w t c entries (some token) = .ok (res, batch)) :
    getIdem (s.commit batch) t c token =
      some ⟨res.baseSeq, res.seqs, fingerprint sha256 entries⟩ := by
  rcases append_eq_ok sha256 h with ⟨hempty, -⟩ | ⟨-, ⟨rec, hrec, hfp, rfl⟩, rfl⟩ | ⟨-, -, hfresh⟩
  · exact absurd hempty hne
  · rw [← hfp]
    exact hrec
  · have hidem := (freshAppend_spec sha256 hfresh).idem token
    rw [if_pos rfl] at hidem
    obtain ⟨-, -, rfl, -⟩ := freshAppend_eq_ok sha256 hfresh
    exact hidem

theorem getIdem_run {pre post : List Op} {w : Bool} {t c : Name}
    {entries : Sized EntryInput (256 ^ 8)} {token : List UInt8} {res : Appended} {batch : Batch}
    (hne : entries.1 ≠ [])
    (h : append sha256 (run sha256 pre) w t c entries (some token) = .ok (res, batch)) :
    getIdem (run sha256 (pre ++ .append w t c entries (some token) :: post)) t c token =
      some ⟨res.baseSeq, res.seqs, fingerprint sha256 entries⟩ := by
  rw [run, List.foldl_append, List.foldl_cons]
  apply getIdem_foldl
  change getIdem (step sha256 (run sha256 pre) _) t c token = _
  rw [step_append_of_ok sha256 h]
  exact getIdem_append sha256 hne h

/-- `sha256` does not map the frames of these two batches to one value. -/
def NoCollision (a b : Sized EntryInput (256 ^ 8)) : Prop :=
  sha256 (batchFrame a) = sha256 (batchFrame b) → batchFrame a = batchFrame b

/-- In every run the appends that are not replays hand out `1, 2, 3, …` in commit
order. A later append with the token of an earlier one returns what that one
returned if its entries are the same, conflicts if they differ, and changes
nothing either way, provided that neither batch is empty. -/
theorem append_dense_exactly_once (ops : List Op) (t c : Name) :
    assignedSeqs sha256 t c ops = List.range' 1 (getSeq (run sha256 ops) t c) ∧
    getSeq (run sha256 ops) t c = (assignedSeqs sha256 t c ops).length ∧
    ∀ (pre post : List Op) (w : Bool) (entries : Sized EntryInput (256 ^ 8))
      (token : List UInt8) (res : Appended) (batch : Batch),
      ops = pre ++ .append w t c entries (some token) :: post → entries.1 ≠ [] →
      append sha256 (run sha256 pre) w t c entries (some token) = .ok (res, batch) →
      (append sha256 (run sha256 ops) true t c entries (some token) = .ok (res, []) ∧
        step sha256 (run sha256 ops) (.append true t c entries (some token)) = run sha256 ops) ∧
      ∀ other : Sized EntryInput (256 ^ 8), other.1 ≠ [] → other ≠ entries →
        NoCollision sha256 entries other →
        append sha256 (run sha256 ops) true t c other (some token) = .error .idemConflict ∧
        step sha256 (run sha256 ops) (.append true t c other (some token)) = run sha256 ops := by
  have hassigned := assignedSeqs_eq sha256 ops t c
  refine ⟨hassigned, by rw [hassigned, List.length_range'], ?_⟩
  rintro pre post w entries token res batch rfl hne happend
  have hidem : getIdem (run sha256 (pre ++ .append w t c entries (some token) :: post)) t c token =
      some ⟨res.baseSeq, res.seqs, fingerprint sha256 entries⟩ :=
    getIdem_run sha256 hne happend
  constructor
  · have hreplay : append sha256 (run sha256 (pre ++ .append w t c entries (some token) :: post))
        true t c entries (some token) = .ok (res, []) := by
      rw [append_of_idem sha256 hne hidem, if_pos rfl]
    exact ⟨hreplay, step_append_of_ok sha256 hreplay⟩
  · intro other hother hdiff hcollision
    have hfp : ¬fingerprint sha256 entries = fingerprint sha256 other := by
      intro heq
      exact hdiff (batchFrame_injective (hcollision heq)).symm
    have hconflict : append sha256 (run sha256 (pre ++ .append w t c entries (some token) :: post))
        true t c other (some token) = .error .idemConflict := by
      rw [append_of_idem sha256 hother hidem, if_neg hfp]
    exact ⟨hconflict, step_append_of_error sha256 hconflict⟩

theorem append_dense_exactly_once_sample :
    ∃ res batch,
      append Sha256.hash Kv.empty true sampleTenant sampleChain (sampleBatch 1)
        (some sampleToken) = .ok (res, batch) ∧
      append Sha256.hash
        (run Sha256.hash [.append true sampleTenant sampleChain (sampleBatch 1) (some sampleToken)])
        true sampleTenant sampleChain (sampleBatch 1) (some sampleToken) = .ok (res, []) ∧
      append Sha256.hash
        (run Sha256.hash [.append true sampleTenant sampleChain (sampleBatch 1) (some sampleToken)])
        true sampleTenant sampleChain (sampleBatch 2) (some sampleToken) =
          .error .idemConflict := by
  have hsucceeds : (append Sha256.hash Kv.empty true sampleTenant sampleChain (sampleBatch 1)
      (some sampleToken)).toOption.isSome = true := by decide +kernel
  cases hfirst : append Sha256.hash Kv.empty true sampleTenant sampleChain (sampleBatch 1)
      (some sampleToken) with
  | error e =>
    rw [hfirst] at hsucceeds
    cases hsucceeds
  | ok pair =>
    obtain ⟨res, batch⟩ := pair
    have hmain := (append_dense_exactly_once Sha256.hash
      [.append true sampleTenant sampleChain (sampleBatch 1) (some sampleToken)]
      sampleTenant sampleChain).2.2 [] [] true (sampleBatch 1) sampleToken res batch rfl
      (by decide +kernel) hfirst
    have hhash : Sha256.hash (batchFrame (sampleBatch 1)) ≠
        Sha256.hash (batchFrame (sampleBatch 2)) := by decide +kernel
    exact ⟨res, batch, rfl, hmain.1.1,
      (hmain.2 (sampleBatch 2) (by decide +kernel) (by decide +kernel) (absurd · hhash)).1⟩

/-- An append without entries is not recorded: repeated with its token after
another append it returns another base. -/
theorem empty_append_not_replayed :
    ¬∀ (pre post : List Op) (entries : Sized EntryInput (256 ^ 8)) (token : List UInt8)
      (res : Appended) (batch : Batch),
      append Sha256.hash (run Sha256.hash pre) true sampleTenant sampleChain entries (some token) =
        .ok (res, batch) →
      append Sha256.hash
        (run Sha256.hash
          (pre ++ .append true sampleTenant sampleChain entries (some token) :: post))
        true sampleTenant sampleChain entries (some token) = .ok (res, []) := by
  intro hclaim
  have hreplay := hclaim [] [.append true sampleTenant sampleChain (sampleBatch 1) none]
    ⟨[], by decide⟩ sampleToken ⟨0, []⟩ [] rfl
  have hbase : (append Sha256.hash
      (run Sha256.hash ([] ++ .append true sampleTenant sampleChain ⟨[], by decide⟩
        (some sampleToken) ::
        [.append true sampleTenant sampleChain (sampleBatch 1) none]))
      true sampleTenant sampleChain ⟨[], by decide⟩ (some sampleToken)).toOption.map
        (·.1.baseSeq) = some 1 := by decide +kernel
  rw [hreplay] at hbase
  exact absurd hbase (by decide)

end BlueDB.Evidence
