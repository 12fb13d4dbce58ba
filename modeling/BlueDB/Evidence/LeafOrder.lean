import BlueDB.Evidence.Idempotency
import BlueDB.Evidence.Traverse
import BlueDB.Lib.StableSort

/-!
# The order of edges in a leaf

A leaf hash is taken of the edges sorted by identity and op, while the edges are applied in
the order they are stored in. The hash tells the effect of the edges when no identity is both
deleted and upserted, and no maximum exceeds the last weight that is set.
-/

namespace BlueDB.Evidence

def sortedEdges (edges : List EdgeDelta) : List EdgeDelta :=
  edges.mergeSort fun a b => decide (edgeSortKey a ≤ edgeSortKey b)

/-- The bytes that the leaf hash of an entry is taken of. -/
def leafPreimage (e : EntryInput) : List UInt8 :=
  0x00 :: (frameField e.etype.1 ++ frameField e.payload.1 ++ frameField e.atTime.1 ++
    beBytes 8 (sortedEdges e.edges.1).length ++ (sortedEdges e.edges.1).flatMap edgeFrame)

theorem leaf_eq (sha256 : List UInt8 → Digest) (e : EntryInput) :
    e.leaf sha256 = sha256 (leafPreimage e) := by
  -- the order of a hash is the lexicographic one of the library
  have hle : (List.instLE : LE (List (List UInt8))) = List.LE' := by
    apply LE.ext
    funext a b
    exact propext not_lt
  unfold EntryInput.leaf leafHash leafPreimage sortedEdges
  congr!

theorem sortedEdges_perm (edges : List EdgeDelta) : (sortedEdges edges).Perm edges :=
  List.mergeSort_perm ..

def sortedEntry (e : EntryInput) : EntryInput :=
  ⟨e.etype, e.payload, e.atTime, ⟨sortedEdges e.edges.1, by
    rw [(sortedEdges_perm e.edges.1).length_eq]
    exact e.edges.2⟩⟩

theorem leafPreimage_eq (e : EntryInput) : leafPreimage e = 0x00 :: entryFrame (sortedEntry e) := by
  unfold leafPreimage entryFrame sortedEntry
  simp only [List.append_assoc]

def EdgeDelta.kind (d : EdgeDelta) : EdgeId × EdgeOp := (d.id, d.op)

theorem edgeSortKey_eq_iff {a b : EdgeDelta} : edgeSortKey a = edgeSortKey b ↔ a.kind = b.kind := by
  unfold edgeSortKey EdgeDelta.kind EdgeDelta.id
  simp only [List.cons.injEq, and_true, Prod.mk.injEq, EdgeId.mk.injEq]
  constructor
  · rintro ⟨hgraph, hsrc, hdst, htype, hop⟩
    exact ⟨⟨Subtype.ext hgraph, Subtype.ext hsrc, Subtype.ext hdst, Subtype.ext htype⟩,
      selfDelimiting_op.injective (congrArg (fun b => [b]) hop)⟩
  · rintro ⟨⟨hgraph, hsrc, hdst, htype⟩, hop⟩
    exact ⟨congrArg Subtype.val hgraph, congrArg Subtype.val hsrc, congrArg Subtype.val hdst,
      congrArg Subtype.val htype, congrArg opDiscriminant hop⟩

def ofKind (k : EdgeId × EdgeOp) (edges : List EdgeDelta) : List EdgeDelta :=
  edges.filter fun d => decide (d.kind = k)

theorem sortedEdges_eq_iff {edges edges' : List EdgeDelta} :
    sortedEdges edges = sortedEdges edges' ↔ ∀ k, ofKind k edges = ofKind k edges' := by
  unfold sortedEdges
  rw [mergeSort_key_eq_iff]
  constructor
  · intro h k
    by_cases hk : ∃ d : EdgeDelta, d.kind = k
    · obtain ⟨d, rfl⟩ := hk
      have hd := h (edgeSortKey d)
      simp only [edgeSortKey_eq_iff] at hd
      exact hd
    · have hnone : ∀ l : List EdgeDelta, ofKind k l = [] := by
        intro l
        apply List.filter_eq_nil_iff.mpr
        intro d _ hd
        exact hk ⟨d, of_decide_eq_true hd⟩
      exact (hnone edges).trans (hnone edges').symm
  · intro h c
    by_cases hc : ∃ d, edgeSortKey d = c
    · obtain ⟨d, rfl⟩ := hc
      simp only [edgeSortKey_eq_iff]
      exact h d.kind
    · have hnone : ∀ l : List EdgeDelta, l.filter (fun a => decide (edgeSortKey a = c)) = [] := by
        intro l
        apply List.filter_eq_nil_iff.mpr
        intro d _ hd
        exact hc ⟨d, of_decide_eq_true hd⟩
      convert (hnone edges).trans (hnone edges').symm

theorem leafPreimage_eq_iff {e e' : EntryInput} : leafPreimage e = leafPreimage e' ↔
    (e.etype = e'.etype ∧ e.payload = e'.payload ∧ e.atTime = e'.atTime) ∧
      ∀ k, ofKind k e.edges.1 = ofKind k e'.edges.1 := by
  rw [leafPreimage_eq, leafPreimage_eq, List.cons.injEq, ← sortedEdges_eq_iff]
  constructor
  · rintro ⟨-, h⟩
    have heq := selfDelimiting_entryFrame.injective h
    unfold sortedEntry at heq
    simp only [EntryInput.mk.injEq, Subtype.mk.injEq] at heq
    exact ⟨⟨heq.1, heq.2.1, heq.2.2.1⟩, heq.2.2.2⟩
  · rintro ⟨⟨htype, hpayload, hat⟩, hedges⟩
    refine ⟨rfl, congrArg entryFrame ?_⟩
    unfold sortedEntry
    simp only [EntryInput.mk.injEq, Subtype.mk.injEq]
    exact ⟨htype, hpayload, hat, hedges⟩

def applied (s : Store) (t : Name) (edges : List EdgeDelta) : Store :=
  s.commit (applyEdgeDeltas s t ([], .empty) edges).1.1

/-- The weight that deltas of one edge leave. -/
def settle (edges : List EdgeDelta) (current : Option Int64) : Option Int64 :=
  edges.foldl (fun w d => d.result w) current

theorem settle_append (edges edges' : List EdgeDelta) (current : Option Int64) :
    settle (edges ++ edges') current = settle edges' (settle edges current) :=
  List.foldl_append ..

/-- The deltas of one edge. -/
def atEdge (e : EdgeId) (edges : List EdgeDelta) : List EdgeDelta :=
  edges.filter fun d => decide (d.id = e)

theorem foldl_apply_at (edges : List EdgeDelta) (m : EdgeMap) (e : EdgeId) :
    edges.foldl EdgeMap.apply m e = settle (atEdge e edges) (m e) := by
  induction edges generalizing m with
  | nil => rfl
  | cons d edges ih =>
    rw [List.foldl_cons, ih]
    unfold atEdge EdgeMap.apply
    by_cases hd : d.id = e
    · subst hd
      rw [List.filter_cons_of_pos (by simp), Function.update_self]
      exact List.foldl_cons .. |>.symm
    · rw [List.filter_cons_of_neg (by simp [hd]), Function.update_of_ne (Ne.symm hd)]

section Applied

variable {s : Store} {t : Name} {edges edges' : List EdgeDelta}

theorem applied_spec (hs : Adjacent s) (edges : List EdgeDelta) :
    Adjacent (applied s t edges) ∧
      edgesOf (applied s t edges) t = edges.foldl EdgeMap.apply (edgesOf s t) :=
  (applyEdgeDeltas_spec edges (overlayShows_empty s t) hs).2

theorem getEdgeWeight_applied (hs : Adjacent s) (edges : List EdgeDelta) (e : EdgeId) :
    getEdgeWeight (applied s t edges) t e = settle (atEdge e edges) (getEdgeWeight s t e) := by
  have h := congrFun (applied_spec (t := t) hs edges).2 e
  rw [foldl_apply_at] at h
  exact h

theorem graph?_cases {k : Key} {g : Name} (h : k.record.graph? = some g) :
    (∃ e, k = graphEdgeKey k.tenant e) ∨ ∃ out e w, k = adjacencyKey out k.tenant e w := by
  obtain ⟨t, record⟩ := k
  cases record with
  | graphEdge graph src dst etype => exact .inl ⟨⟨graph, src, dst, etype⟩, rfl⟩
  | graphOut graph src w dst etype => exact .inr ⟨true, ⟨graph, src, dst, etype⟩, w, rfl⟩
  | graphIn graph dst w src etype => exact .inr ⟨false, ⟨graph, src, dst, etype⟩, w, rfl⟩
  | _ => exact absurd h (by simp [RecordKey.graph?])

theorem get_adjacencyKey_congr {s' : Store} {out : Bool} {e : EdgeId} {w : Int64}
    (h : hasAdjacency s out t e w = hasAdjacency s' out t e w) :
    s.get (adjacencyKey out t e w) = s'.get (adjacencyKey out t e w) := by
  have hunit : ∀ a b : Option Unit, a.isSome = b.isSome → a = b := by
    intro a b hab
    cases a with
    | none => cases b with
      | none => rfl
      | some _ => exact absurd hab (by simp)
    | some _ => cases b with
      | none => exact absurd hab (by simp)
      | some _ => rfl
  cases out with
  | false => exact hunit _ _ h
  | true => exact hunit _ _ h

/-- Lists of the same graphs that leave each edge alike leave the same store. -/
theorem applied_congr (hs : Adjacent s) (hgraphs : ∀ g, g ∈ edges.map (·.graph) ↔
    g ∈ edges'.map (·.graph)) (hsettle : ∀ e current, settle (atEdge e edges) current =
      settle (atEdge e edges') current) :
    (applied s t edges).get = (applied s t edges').get := by
  have hweight : ∀ e, getEdgeWeight (applied s t edges) t e =
      getEdgeWeight (applied s t edges') t e := by
    intro e
    rw [getEdgeWeight_applied hs, getEdgeWeight_applied hs, hsettle]
  have hadj := adjacent_iff.mp (applied_spec (t := t) hs edges).1
  have hadj' := adjacent_iff.mp (applied_spec (t := t) hs edges').1
  funext k
  by_cases hk : k.tenant = t ∧ ∃ g ∈ edges.map (·.graph), k.record.graph? = some g
  · obtain ⟨htenant, g, -, hg⟩ := hk
    rcases graph?_cases hg with ⟨e, he⟩ | ⟨out, e, w, he⟩
    · rw [he, htenant]
      exact hweight e
    · rw [he, htenant]
      apply get_adjacencyKey_congr
      rw [Bool.eq_iff_iff, ← hadj out, ← hadj' out, hweight]
  · have houter : ∀ {l : List EdgeDelta}, (∀ g, g ∈ edges.map (·.graph) ↔ g ∈ l.map (·.graph)) →
        (applied s t l).get k = s.get k := by
      intro l hl
      apply (writesGraphs_applyEdgeDeltas s t l).get_commit
      by_cases htenant : k.tenant = t
      · right
        intro g hg hkey
        exact hk ⟨htenant, g, (hl g).mpr hg, hkey⟩
      · exact .inl htenant
    rw [houter fun g => Iff.rfl, houter hgraphs]

end Applied

def lastSet (edges : List EdgeDelta) (e : EdgeId) : Option EdgeDelta :=
  (ofKind (e, .upsert .set) edges).getLast?

structure Orderless (edges : List EdgeDelta) : Prop where
  deletes : ∀ d ∈ edges, ∀ d' ∈ edges, d.id = d'.id → d.op = .delete → d'.op = .delete
  maxima : ∀ d ∈ edges, d.op = .upsert .max → ∀ last, lastSet edges d.id = some last →
    d.weight ≤ last.weight

section Settle

variable {edges edges' : List EdgeDelta} {e : EdgeId} {op : EdgeOp} {d : EdgeDelta}

theorem mem_ofKind : d ∈ ofKind (e, op) edges ↔ d ∈ edges ∧ d.id = e ∧ d.op = op := by
  unfold ofKind EdgeDelta.kind
  rw [List.mem_filter, decide_eq_true_iff, Prod.mk.injEq]

theorem mem_atEdge : d ∈ atEdge e edges ↔ d ∈ edges ∧ d.id = e := by
  unfold atEdge
  rw [List.mem_filter, decide_eq_true_iff]

theorem atEdge_eq_ofKind (h : ∀ d ∈ edges, d.id = e → d.op = op) :
    atEdge e edges = ofKind (e, op) edges := by
  apply List.filter_congr
  intro d hd
  rw [decide_eq_decide]
  unfold EdgeDelta.kind
  rw [Prod.mk.injEq]
  exact ⟨fun hid => ⟨hid, h d hd hid⟩, And.left⟩

theorem settle_deletes (h : ∀ d ∈ edges, d.op = .delete) (hne : edges ≠ []) (w : Option Int64) :
    settle edges w = none := by
  obtain ⟨front, d, rfl⟩ := List.eq_nil_or_concat' edges |>.resolve_left hne
  rw [settle_append]
  have hop := h d (by simp)
  change d.result _ = none
  unfold EdgeDelta.result
  rw [hop]

theorem settle_upserts (h : ∀ d ∈ edges, d.op ≠ .delete) (hne : edges ≠ []) (w : Option Int64) :
    settle edges w ≠ none := by
  obtain ⟨front, d, rfl⟩ := List.eq_nil_or_concat' edges |>.resolve_left hne
  rw [settle_append]
  have hop := h d (by simp)
  change d.result _ ≠ none
  unfold EdgeDelta.result
  cases hd : d.op with
  | delete => exact absurd hd hop
  | upsert merge => cases merge <;> cases settle front w <;> simp

theorem settle_sets {last : EdgeDelta} (h : ∀ d ∈ edges, d.op = .upsert .set)
    (hlast : edges.getLast? = some last) (w : Option Int64) :
    settle edges w = some last.weight := by
  obtain ⟨front, rfl⟩ := List.getLast?_eq_some_iff.mp hlast
  rw [settle_append]
  have hop := h last (by simp)
  change last.result _ = _
  unfold EdgeDelta.result
  rw [hop]

theorem settle_maxima (h : ∀ d ∈ edges, d.op = .upsert .max) (w : Int64) :
    ∃ v, settle edges (some w) = some v ∧ w ≤ v ∧ ∀ d ∈ edges, d.weight ≤ v := by
  induction edges generalizing w with
  | nil => exact ⟨w, rfl, le_refl w, fun d hd => absurd hd List.not_mem_nil⟩
  | cons d edges ih =>
    obtain ⟨v, hv, hle, hall⟩ := ih (fun d' hd' => h d' (by simp [hd'])) (max w d.weight)
    refine ⟨v, ?_, (le_max_left _ _).trans hle, ?_⟩
    · rw [← hv]
      unfold settle
      rw [List.foldl_cons]
      congr 1
      unfold EdgeDelta.result
      rw [h d (by simp)]
    · intro d' hd'
      rcases List.mem_cons.mp hd' with rfl | hd'
      · exact (le_max_right _ _).trans hle
      · exact hall d' hd'

theorem settle_eq_lastSet {last : EdgeDelta} (h : ∀ d ∈ edges, d.op ≠ .delete)
    (hlast : (edges.filter fun d => decide (d.op = .upsert .set)).getLast? = some last)
    (hmax : ∀ d ∈ edges, d.op = .upsert .max → d.weight ≤ last.weight) (w : Option Int64) :
    settle edges w = some last.weight := by
  induction edges using List.reverseRecOn with
  | nil => exact absurd hlast (by simp)
  | append_singleton edges d ih =>
    rw [settle_append]
    change d.result _ = _
    rw [List.filter_append] at hlast
    unfold EdgeDelta.result
    cases hop : d.op with
    | delete => exact absurd hop (h d (by simp))
    | upsert merge =>
      cases merge with
      | set =>
        rw [List.filter_cons_of_pos (by simp [hop]), List.filter_nil, List.getLast?_concat] at hlast
        rw [Option.some.inj hlast]
      | max =>
        rw [List.filter_cons_of_neg (by simp [hop]), List.filter_nil, List.append_nil] at hlast
        rw [ih (fun d' hd' => h d' (by simp [hd'])) hlast fun d' hd' => hmax d' (by simp [hd'])]
        exact congrArg some (max_eq_left (hmax d (by simp) hop))

end Settle

section Sufficient

variable {edges edges' : List EdgeDelta} {e : EdgeId}

theorem filter_set_atEdge (edges : List EdgeDelta) (e : EdgeId) :
    (atEdge e edges).filter (fun d => decide (d.op = .upsert .set)) =
      ofKind (e, .upsert .set) edges := by
  unfold atEdge ofKind EdgeDelta.kind
  rw [List.filter_filter]
  apply List.filter_congr
  intro d _
  rw [← Bool.decide_and, decide_eq_decide, Prod.mk.injEq]
  exact and_comm

theorem mem_of_ofKind_eq (heq : ∀ k, ofKind k edges = ofKind k edges') {d : EdgeDelta} :
    d ∈ edges ↔ d ∈ edges' := by
  have hkind : ∀ l : List EdgeDelta, d ∈ l ↔ d ∈ ofKind (d.id, d.op) l := by
    intro l
    rw [mem_ofKind]
    exact ⟨fun h => ⟨h, rfl, rfl⟩, And.left⟩
  rw [hkind edges, heq, ← hkind]

/-- Edges of one identity and op each, all of them alike, have one effect. -/
theorem Orderless.settle_eq (h : Orderless edges) (heq : ∀ k, ofKind k edges = ofKind k edges')
    (e : EdgeId) (w : Option Int64) :
    settle (atEdge e edges) w = settle (atEdge e edges') w := by
  have hmem := fun d : EdgeDelta => mem_of_ofKind_eq (d := d) heq
  by_cases hone : ∃ op, ∀ d ∈ edges, d.id = e → d.op = op
  · obtain ⟨op, hop⟩ := hone
    rw [atEdge_eq_ofKind hop, heq, ← atEdge_eq_ofKind fun d hd => hop d ((hmem d).mpr hd)]
  · -- with two ops there is no delete, and there is a weight that is set
    have hupsert : ∀ d ∈ edges, d.id = e → d.op ≠ .delete := by
      intro d hd hid hop
      apply hone
      refine ⟨.delete, fun d' hd' hid' => ?_⟩
      exact h.deletes d hd d' hd' (hid.trans hid'.symm) hop
    cases hlast : lastSet edges e with
    | none =>
      exfalso
      apply hone
      refine ⟨.upsert .max, fun d hd hid => ?_⟩
      cases hop : d.op with
      | delete => exact absurd hop (hupsert d hd hid)
      | upsert merge =>
        cases merge with
        | max => rfl
        | set =>
          have hset := mem_ofKind.mpr ⟨hd, hid, hop⟩
          rw [List.getLast?_eq_none_iff.mp hlast] at hset
          exact absurd hset List.not_mem_nil
    | some last =>
      have hsettle : ∀ l : List EdgeDelta, (∀ d, d ∈ l ↔ d ∈ edges) → lastSet l e = some last →
          settle (atEdge e l) w = some last.weight := by
        intro l hl hset
        apply settle_eq_lastSet
        · intro d hd
          exact hupsert d ((hl d).mp (mem_atEdge.mp hd).1) (mem_atEdge.mp hd).2
        · rw [filter_set_atEdge]
          exact hset
        · intro d hd hop
          obtain ⟨hmem', rfl⟩ := mem_atEdge.mp hd
          exact h.maxima d ((hl d).mp hmem') hop last hlast
      rw [hsettle edges (fun _ => Iff.rfl) hlast, hsettle edges' fun d => (hmem d).symm]
      rw [← hlast]
      unfold lastSet
      rw [heq]

end Sufficient

section Necessary

variable {edges : List EdgeDelta} {k : EdgeId × EdgeOp}

/-- The edges with those of one identity and op put last, or first. -/
def regrouped (last : Bool) (k : EdgeId × EdgeOp) (edges : List EdgeDelta) : List EdgeDelta :=
  let others := edges.filter fun d => !decide (d.kind = k)
  if last then others ++ ofKind k edges else ofKind k edges ++ others

theorem regrouped_perm (last : Bool) (k : EdgeId × EdgeOp) (edges : List EdgeDelta) :
    (regrouped last k edges).Perm edges := by
  have hperm := List.filter_append_perm (fun d : EdgeDelta => decide (d.kind = k)) edges
  cases last with
  | false => exact hperm
  | true => exact List.perm_append_comm.trans hperm

theorem ofKind_regrouped (last : Bool) (k k' : EdgeId × EdgeOp) (edges : List EdgeDelta) :
    ofKind k' (regrouped last k edges) = ofKind k' edges := by
  have hsame : ofKind k' (ofKind k edges) = if k' = k then ofKind k' edges else [] := by
    unfold ofKind
    rw [List.filter_filter]
    by_cases hk : k' = k
    · subst hk
      simp
    · rw [if_neg hk]
      apply List.filter_eq_nil_iff.mpr
      intro d _ hd
      rw [Bool.and_eq_true, decide_eq_true_iff, decide_eq_true_iff] at hd
      exact hk (hd.1.symm.trans hd.2)
  have hother : ofKind k' (edges.filter fun d => !decide (d.kind = k)) =
      if k' = k then [] else ofKind k' edges := by
    unfold ofKind
    rw [List.filter_filter]
    by_cases hk : k' = k
    · subst hk
      simp
    · rw [if_neg hk]
      apply List.filter_congr
      intro d _
      by_cases hd : d.kind = k'
      · simp [hd, hk]
      · simp [hd]
  have happend : ∀ l l' : List EdgeDelta, ofKind k' (l ++ l') = ofKind k' l ++ ofKind k' l' :=
    fun l l' => List.filter_append l l'
  unfold regrouped
  cases last with
  | false =>
    rw [if_neg Bool.false_ne_true, happend, hsame, hother]
    split_ifs
    · exact List.append_nil _
    · exact List.nil_append _
  | true =>
    rw [if_pos rfl, happend, hsame, hother]
    split_ifs
    · exact List.nil_append _
    · exact List.append_nil _

theorem atEdge_regrouped (last : Bool) (k : EdgeId × EdgeOp) (edges : List EdgeDelta) :
    atEdge k.1 (regrouped last k edges) =
      if last then (atEdge k.1 edges).filter (fun d => !decide (d.op = k.2)) ++ ofKind k edges
      else ofKind k edges ++ (atEdge k.1 edges).filter fun d => !decide (d.op = k.2) := by
  have hkind : atEdge k.1 (ofKind k edges) = ofKind k edges := by
    apply List.filter_eq_self.mpr
    intro d hd
    exact decide_eq_true (mem_ofKind.mp hd).2.1
  have hother : atEdge k.1 (edges.filter fun d => !decide (d.kind = k)) =
      (atEdge k.1 edges).filter fun d => !decide (d.op = k.2) := by
    unfold atEdge EdgeDelta.kind
    rw [List.filter_filter, List.filter_filter]
    apply List.filter_congr
    intro d _
    by_cases hid : d.id = k.1
    · simp [hid, Prod.ext_iff]
    · simp [hid]
  have happend : ∀ l l' : List EdgeDelta, atEdge k.1 (l ++ l') = atEdge k.1 l ++ atEdge k.1 l' :=
    fun l l' => List.filter_append l l'
  unfold regrouped
  cases last with
  | false =>
    rw [if_neg Bool.false_ne_true, if_neg Bool.false_ne_true, happend, hkind, hother]
  | true => rw [if_pos rfl, if_pos rfl, happend, hkind, hother]

def EntryInput.regrouped (last : Bool) (k : EdgeId × EdgeOp) (e : EntryInput) : EntryInput :=
  ⟨e.etype, e.payload, e.atTime, ⟨Evidence.regrouped last k e.edges.1, by
    rw [(regrouped_perm last k e.edges.1).length_eq]
    exact e.edges.2⟩⟩

theorem leafPreimage_regrouped (last : Bool) (k : EdgeId × EdgeOp) (e : EntryInput) :
    leafPreimage e = leafPreimage (e.regrouped last k) :=
  leafPreimage_eq_iff.mpr ⟨⟨rfl, rfl, rfl⟩, fun k' => (ofKind_regrouped last k k' e.edges.1).symm⟩

end Necessary

/-- An entry whose hash tells its fields, its edges and what they do to any graph. -/
def LeafAttests (e : EntryInput) : Prop :=
  ∀ e', leafPreimage e = leafPreimage e' →
    (e.etype = e'.etype ∧ e.payload = e'.payload ∧ e.atTime = e'.atTime) ∧
      e.edges.1.Perm e'.edges.1 ∧
      ∀ s t, Adjacent s → (applied s t e.edges.1).get = (applied s t e'.edges.1).get

theorem LeafAttests.settle_regrouped {e : EntryInput} (h : LeafAttests e)
    (k : EdgeId × EdgeOp) :
    settle (atEdge k.1 (regrouped true k e.edges.1)) none =
      settle (atEdge k.1 (regrouped false k e.edges.1)) none := by
  have hweight : ∀ last, settle (atEdge k.1 (regrouped last k e.edges.1)) none =
      settle (atEdge k.1 e.edges.1) none := by
    intro last
    have hget := (h _ (leafPreimage_regrouped last k e)).2.2 Kv.empty ⟨[], by decide⟩ adjacent_empty
    have hkey := congrFun hget (graphEdgeKey ⟨[], by decide⟩ k.1)
    change getEdgeWeight _ _ _ = getEdgeWeight _ _ _ at hkey
    rw [getEdgeWeight_applied adjacent_empty, getEdgeWeight_applied adjacent_empty] at hkey
    exact hkey.symm
  rw [hweight, hweight]

theorem LeafAttests.deletes {e : EntryInput} (h : LeafAttests e) {d d' : EdgeDelta}
    (hd : d ∈ e.edges.1) (hd' : d' ∈ e.edges.1) (hid : d.id = d'.id) (hop : d.op = .delete) :
    d'.op = .delete := by
  by_contra hop'
  have heq := h.settle_regrouped (d.id, .delete)
  rw [atEdge_regrouped, atEdge_regrouped, if_pos rfl, if_neg Bool.false_ne_true, settle_append,
    settle_append] at heq
  rw [settle_deletes (fun x hx => (mem_ofKind.mp hx).2.2)
    (List.ne_nil_of_mem (mem_ofKind.mpr ⟨hd, rfl, hop⟩))] at heq
  refine settle_upserts ?_ ?_ _ heq.symm
  · intro x hx hdel
    rw [List.mem_filter] at hx
    exact absurd hx.2 (by simp [hdel])
  · apply List.ne_nil_of_mem (a := d')
    rw [List.mem_filter]
    exact ⟨mem_atEdge.mpr ⟨hd', hid.symm⟩, by simp [hop']⟩

theorem LeafAttests.maxima {e : EntryInput} (h : LeafAttests e) {d last : EdgeDelta}
    (hd : d ∈ e.edges.1) (hop : d.op = .upsert .max) (hlast : lastSet e.edges.1 d.id = some last) :
    d.weight ≤ last.weight := by
  have heq := h.settle_regrouped (d.id, .upsert .max)
  -- with a maximum there is no delete, so the others are the weights that are set
  have hsets : (atEdge d.id e.edges.1).filter (fun x => !decide (x.op = .upsert .max)) =
      ofKind (d.id, .upsert .set) e.edges.1 := by
    rw [← filter_set_atEdge]
    apply List.filter_congr
    intro x hx
    obtain ⟨hx, hid⟩ := mem_atEdge.mp hx
    cases hxop : x.op with
    | delete =>
      have := h.deletes hx hd hid hxop
      rw [hop] at this
      exact absurd this (by simp)
    | upsert merge => cases merge <;> simp
  have hset : ∀ x ∈ ofKind (d.id, .upsert .set) e.edges.1, x.op = .upsert .set :=
    fun x hx => (mem_ofKind.mp hx).2.2
  rw [atEdge_regrouped, atEdge_regrouped, if_pos rfl, if_neg Bool.false_ne_true, settle_append,
    settle_append, hsets, settle_sets hset hlast, settle_sets hset hlast] at heq
  obtain ⟨v, hv, -, hall⟩ := @settle_maxima (ofKind (d.id, .upsert .max) e.edges.1)
    (fun x hx => (mem_ofKind.mp hx).2.2) last.weight
  rw [hv] at heq
  rw [← Option.some.inj heq]
  exact hall d (mem_ofKind.mpr ⟨hd, rfl, hop⟩)

/-- A leaf hash attests what the edges do exactly when no edge is both deleted and upserted and
no maximum is over the last weight that is set. -/
theorem leafAttests_iff (e : EntryInput) : LeafAttests e ↔ Orderless e.edges.1 := by
  constructor
  · intro h
    constructor
    · intro d hd d' hd'
      exact h.deletes hd hd'
    · intro d hd hop last
      exact h.maxima hd hop
  · intro h e' heq
    have hsorted : sortedEdges e.edges.1 = sortedEdges e'.edges.1 :=
      sortedEdges_eq_iff.mpr (leafPreimage_eq_iff.mp heq).2
    have hperm : e.edges.1.Perm e'.edges.1 := by
      apply (sortedEdges_perm e.edges.1).symm.trans
      rw [hsorted]
      exact sortedEdges_perm e'.edges.1
    refine ⟨(leafPreimage_eq_iff.mp heq).1, hperm, fun s t hs => ?_⟩
    apply applied_congr hs
    · intro g
      exact (hperm.map (·.graph)).mem_iff
    · exact h.settle_eq (leafPreimage_eq_iff.mp heq).2

namespace LeafOrderExample

def noName : Name := ⟨[], Nat.pow_pos (by decide)⟩

def edge : EdgeId := ⟨noName, noName, noName, noName⟩

def set : EdgeDelta := ⟨noName, noName, noName, 5, noName, .upsert .set⟩

def delete : EdgeDelta := ⟨noName, noName, noName, 0, noName, .delete⟩

def entry (first second : EdgeDelta) : EntryInput :=
  ⟨emptyBlob, emptyBlob, emptyBlob, ⟨[first, second], by simp⟩⟩

theorem effect_not_attested :
    leafPreimage (entry set delete) = leafPreimage (entry delete set) ∧ Adjacent Kv.empty ∧
      getEdgeWeight (applied Kv.empty noName (entry set delete).edges.1) noName edge = none ∧
      getEdgeWeight (applied Kv.empty noName (entry delete set).edges.1) noName edge = some 5 := by
  refine ⟨leafPreimage_eq_iff.mpr ⟨⟨rfl, rfl, rfl⟩, fun k => ?_⟩, adjacent_empty, ?_, ?_⟩
  · change ofKind k [set, delete] = ofKind k [delete, set]
    unfold ofKind
    by_cases hset : set.kind = k
    · have hdelete : delete.kind ≠ k := by
        rw [← hset]
        decide
      simp [hset, hdelete]
    · by_cases hdelete : delete.kind = k
      · simp [hset, hdelete]
      · simp [hset, hdelete]
  · rw [getEdgeWeight_applied adjacent_empty]
    rfl
  · rw [getEdgeWeight_applied adjacent_empty]
    rfl

end LeafOrderExample

end BlueDB.Evidence
