import BlueDB.Lib.LinkedBatch
import BlueDB.Evidence.Model

/-!
# The graph store

An edge is three records: its canonical key holds the weight, and an out-key and
an in-key carry the weight in the key. A batch of edge deltas is collected
against a committed store, with an overlay for the edges the batch has already
written. The lemmas say what a batch does to the store it is committed to: it
acts delta by delta on the map of weights, and keeps the three families of keys
in agreement.
-/

namespace BlueDB.Evidence

/-- The identity of an edge. -/
@[ext]
structure EdgeId where
  graph : Name
  src : Name
  dst : Name
  etype : Name
  deriving DecidableEq

def EdgeDelta.id (d : EdgeDelta) : EdgeId := ⟨d.graph, d.src, d.dst, d.etype⟩

def graphEdgeKey (t : Name) (e : EdgeId) : Key := ⟨t, .graphEdge e.graph e.src e.dst e.etype⟩

def graphOutKey (t : Name) (e : EdgeId) (w : Int64) : Key :=
  ⟨t, .graphOut e.graph e.src w e.dst e.etype⟩

def graphInKey (t : Name) (e : EdgeId) (w : Int64) : Key :=
  ⟨t, .graphIn e.graph e.dst w e.src e.etype⟩

def getEdgeWeight (s : Store) (t : Name) (e : EdgeId) : Option Int64 := s.get (graphEdgeKey t e)

/-- Edges a batch has written: the new weight, or none for a removed edge. -/
abbrev Overlay := EdgeId → Option (Option Int64)

def Overlay.empty : Overlay := fun _ => none

/-- The weight of an edge as the next delta of a batch sees it. -/
def currentWeight (s : Store) (t : Name) (overlay : Overlay) (e : EdgeId) : Option Int64 :=
  match overlay e with
  | some v => v
  | none => getEdgeWeight s t e

/-- The weight an upsert leaves. -/
def mergedWeight (current : Option Int64) (merge : Merge) (weight : Int64) : Int64 :=
  match current, merge with
  | some w0, .max => max w0 weight
  | _, _ => weight

/-- The adjacency keys an upsert makes stale. -/
def staleWrites (t : Name) (e : EdgeId) (current : Option Int64) (newW : Int64) : Batch :=
  match current with
  | some w0 => if w0 ≠ newW then [.delete (graphOutKey t e w0), .delete (graphInKey t e w0)] else []
  | none => []

/-- The three records of an edge. -/
def putEdge (t : Name) (e : EdgeId) (w : Int64) : Batch :=
  [.put (graphEdgeKey t e) w, .put (graphOutKey t e w) (), .put (graphInKey t e w) ()]

def removeEdge (t : Name) (e : EdgeId) (w : Int64) : Batch :=
  [.delete (graphEdgeKey t e), .delete (graphOutKey t e w), .delete (graphInKey t e w)]

/-- Collect one delta into the batch; the flag says whether it changes the store. -/
def applyEdgeDelta (s : Store) (t : Name) (acc : Batch × Overlay) (d : EdgeDelta) :
    (Batch × Overlay) × Bool :=
  let (batch, overlay) := acc
  let canon := d.id
  let current := currentWeight s t overlay canon
  match d.op with
  | .delete =>
    match current with
    | some w0 =>
      ((batch ++ removeEdge t canon w0, Function.update overlay canon (some none)), true)
    | none => ((batch, overlay), false)
  | .upsert merge =>
    let newW := mergedWeight current merge d.weight
    ((batch ++ (staleWrites t canon current newW ++ putEdge t canon newW),
      Function.update overlay canon (some (some newW))), current != some newW)

/-- Collect deltas in order, counting those that change the store. -/
def applyEdgeDeltas (s : Store) (t : Name) (acc : Batch × Overlay) (ds : List EdgeDelta) :
    (Batch × Overlay) × ℕ :=
  ds.foldl (fun (acc, changed) d =>
    let (acc, flag) := applyEdgeDelta s t acc d
    (acc, if flag then changed + 1 else changed)) (acc, 0)

structure EdgeUpsert where
  src : Name
  dst : Name
  weight : Int64
  etype : Name
  deriving DecidableEq

structure EdgeRef where
  src : Name
  dst : Name
  etype : Name
  deriving DecidableEq

def EdgeUpsert.delta (graph : Name) (merge : Merge) (e : EdgeUpsert) : EdgeDelta :=
  ⟨graph, e.src, e.dst, e.weight, e.etype, .upsert merge⟩

def EdgeRef.delta (graph : Name) (e : EdgeRef) : EdgeDelta :=
  ⟨graph, e.src, e.dst, 0, e.etype, .delete⟩

/-- Only the node that holds the writer may write. -/
def requireWriter (writer : Bool) : Except EvidenceError Unit :=
  if writer then .ok () else .error .notWriter

namespace Graph

def upsert (s : Store) (writer : Bool) (t graph : Name) (edges : List EdgeUpsert) (merge : Merge) :
    Except EvidenceError (ℕ × Batch) :=
  if edges = [] then .ok (0, [])
  else do
    requireWriter writer
    let ((batch, _), changed) := applyEdgeDeltas s t ([], .empty) (edges.map (·.delta graph merge))
    return (changed, batch)

def delete (s : Store) (writer : Bool) (t graph : Name) (edges : List EdgeRef) :
    Except EvidenceError (ℕ × Batch) :=
  if edges = [] then .ok (0, [])
  else do
    requireWriter writer
    let ((batch, _), removed) := applyEdgeDeltas s t ([], .empty) (edges.map (·.delta graph))
    return (removed, batch)

def mutate (s : Store) (writer : Bool) (t graph : Name) (upserts : List EdgeUpsert)
    (deletes : List EdgeRef) (merge : Merge) : Except EvidenceError ((ℕ × ℕ) × Batch) :=
  if upserts = [] ∧ deletes = [] then .ok ((0, 0), [])
  else do
    requireWriter writer
    let (acc, changed) := applyEdgeDeltas s t ([], .empty) (upserts.map (·.delta graph merge))
    let ((batch, _), removed) := applyEdgeDeltas s t acc (deletes.map (·.delta graph))
    return ((changed, removed), batch)

def graphTags : List UInt8 :=
  [UInt8.ofNat (tagExternalBase + 12), UInt8.ofNat (tagExternalBase + 13),
    UInt8.ofNat (tagExternalBase + 14)]

/-- The live keys in the byte range of a graph's prefix under one tag. -/
def scanTag (s : Store) (t graph : Name) (tag : UInt8) : List Key :=
  s.scan fun k => (graphPrefix t tag graph).isPrefixOf k.encode

def dropGraph (s : Store) (writer : Bool) (t graph : Name) : Except EvidenceError (ℕ × Batch) := do
  requireWriter writer
  let keys := graphTags.flatMap (scanTag s t graph)
  return ((scanTag s t graph (UInt8.ofNat (tagExternalBase + 12))).length, keys.map .delete)

end Graph

/-- A tenant's edges. -/
abbrev EdgeMap := EdgeId → Option Int64

def EdgeDelta.result (d : EdgeDelta) (current : Option Int64) : Option Int64 :=
  match d.op, current with
  | .delete, _ => none
  | .upsert .max, some w0 => some (max w0 d.weight)
  | .upsert _, _ => some d.weight

/-- One delta on a map of edges. -/
def EdgeMap.apply (m : EdgeMap) (d : EdgeDelta) : EdgeMap :=
  Function.update m d.id (d.result (m d.id))

def edgesOf (s : Store) (t : Name) : EdgeMap := getEdgeWeight s t

/-- The three families of edge keys agree, in every tenant and graph. -/
def Adjacent (s : Store) : Prop :=
  ∀ t e w, (getEdgeWeight s t e = some w ↔ (s.get (graphOutKey t e w)).isSome = true) ∧
    (getEdgeWeight s t e = some w ↔ (s.get (graphInKey t e w)).isSome = true)

theorem adjacent_empty : Adjacent Kv.empty := by
  intro t e w
  simp [getEdgeWeight]

section Views

variable {s : Store} {t t' : Name} {e e' : EdgeId} {v w : Int64}

@[simp] theorem graphEdgeKey_inj : graphEdgeKey t e = graphEdgeKey t' e' ↔ t = t' ∧ e = e' := by
  simp [graphEdgeKey, EdgeId.ext_iff]

@[simp] theorem graphOutKey_inj :
    graphOutKey t e v = graphOutKey t' e' w ↔ t = t' ∧ e = e' ∧ v = w := by
  simp [graphOutKey, EdgeId.ext_iff]
  tauto

@[simp] theorem graphInKey_inj :
    graphInKey t e v = graphInKey t' e' w ↔ t = t' ∧ e = e' ∧ v = w := by
  simp [graphInKey, EdgeId.ext_iff]
  tauto

theorem graphEdgeKey_ne_out : graphEdgeKey t e ≠ graphOutKey t' e' w := by
  simp [graphEdgeKey, graphOutKey]

theorem graphEdgeKey_ne_in : graphEdgeKey t e ≠ graphInKey t' e' w := by
  simp [graphEdgeKey, graphInKey]

theorem graphOutKey_ne_in : graphOutKey t e v ≠ graphInKey t' e' w := by
  simp [graphOutKey, graphInKey]

def adjacencyKey (out : Bool) (t : Name) (e : EdgeId) (w : Int64) : Key :=
  if out then graphOutKey t e w else graphInKey t e w

theorem adjacencyKey_inj {out out' : Bool} : adjacencyKey out t e v = adjacencyKey out' t' e' w ↔
    out = out' ∧ t = t' ∧ e = e' ∧ v = w := by
  cases out <;> cases out' <;>
    simp [adjacencyKey, graphOutKey_ne_in, graphOutKey_ne_in.symm]

theorem graphEdgeKey_ne_adjacencyKey {out : Bool} :
    graphEdgeKey t e ≠ adjacencyKey out t' e' w := by
  cases out
  · exact graphEdgeKey_ne_in
  · exact graphEdgeKey_ne_out

def hasAdjacency (s : Store) (out : Bool) (t : Name) (e : EdgeId) (w : Int64) : Bool :=
  (s.get (adjacencyKey out t e w)).isSome

theorem adjacent_iff : Adjacent s ↔ ∀ out t e w,
    getEdgeWeight s t e = some w ↔ hasAdjacency s out t e w = true := by
  constructor
  · intro h out t e w
    cases out
    · exact (h t e w).2
    · exact (h t e w).1
  · intro h t e w
    exact ⟨h true t e w, h false t e w⟩

theorem hasAdjacency_write_adjacencyKey {x : Write Value} {b out' : Bool}
    (hx : x.key = adjacencyKey b t e v) :
    hasAdjacency (s.write x) out' t' e' w =
      if out' = b ∧ t' = t ∧ e' = e ∧ w = v then x.value.isSome
      else hasAdjacency s out' t' e' w := by
  unfold hasAdjacency
  by_cases h : adjacencyKey out' t' e' w = x.key
  · rw [if_pos (adjacencyKey_inj.mp (h.trans hx)), h, Kv.get_write_self]
  · rw [if_neg (fun hsame => h ((adjacencyKey_inj.mpr hsame).trans hx.symm)), Kv.get_write_of_ne h]

theorem hasAdjacency_write_graphEdgeKey {x : Write Value} {out : Bool}
    (hx : x.key = graphEdgeKey t e) :
    hasAdjacency (s.write x) out t' e' w = hasAdjacency s out t' e' w := by
  unfold hasAdjacency
  rw [Kv.get_write_of_ne]
  rw [hx]
  exact graphEdgeKey_ne_adjacencyKey.symm

theorem weight_write_adjacencyKey {x : Write Value} {b : Bool}
    (hx : x.key = adjacencyKey b t e v) :
    getEdgeWeight (s.write x) t' e' = getEdgeWeight s t' e' := by
  apply Kv.get_write_of_ne
  rw [hx]
  exact graphEdgeKey_ne_adjacencyKey

theorem weight_write_of_ne {x : Write Value} (h : x.key ≠ graphEdgeKey t e) :
    getEdgeWeight (s.write x) t e = getEdgeWeight s t e :=
  Kv.get_write_of_ne h.symm

theorem weight_write_put (s : Store) (t t' : Name) (e e' : EdgeId) (v : Int64) :
    getEdgeWeight (s.write (.put (graphEdgeKey t e) v)) t' e' =
      if t' = t ∧ e' = e then some v else getEdgeWeight s t' e' := by
  by_cases h : t' = t ∧ e' = e
  · obtain ⟨rfl, rfl⟩ := h
    rw [if_pos ⟨rfl, rfl⟩]
    exact Kv.get_write_put s _ _
  · rw [if_neg h, weight_write_of_ne]
    intro heq
    obtain ⟨rfl, rfl⟩ := graphEdgeKey_inj.mp heq
    exact h ⟨rfl, rfl⟩

theorem weight_write_delete (s : Store) (t t' : Name) (e e' : EdgeId) :
    getEdgeWeight (s.write (.delete (graphEdgeKey t e))) t' e' =
      if t' = t ∧ e' = e then none else getEdgeWeight s t' e' := by
  by_cases h : t' = t ∧ e' = e
  · obtain ⟨rfl, rfl⟩ := h
    rw [if_pos ⟨rfl, rfl⟩]
    exact Kv.get_write_delete s _
  · rw [if_neg h, weight_write_of_ne]
    intro heq
    obtain ⟨rfl, rfl⟩ := graphEdgeKey_inj.mp heq
    exact h ⟨rfl, rfl⟩

end Views

/-- `s'` is `s` with the edge `e` of tenant `t` at the weight `new` and the
adjacency keys of that edge to match. -/
structure SetsEdge (s s' : Store) (t : Name) (e : EdgeId) (new : Option Int64) : Prop where
  weight : ∀ t' e', getEdgeWeight s' t' e' =
    if t' = t ∧ e' = e then new else getEdgeWeight s t' e'
  adjacency : ∀ out t' e' w, hasAdjacency s' out t' e' w =
    if t' = t ∧ e' = e then decide (new = some w) else hasAdjacency s out t' e' w

theorem SetsEdge.adjacent {s s' : Store} {t : Name} {e : EdgeId} {new : Option Int64}
    (h : SetsEdge s s' t e new) (hs : Adjacent s) : Adjacent s' := by
  rw [adjacent_iff] at hs ⊢
  intro out t' e' w
  rw [h.weight, h.adjacency]
  by_cases hsame : t' = t ∧ e' = e
  · rw [if_pos hsame, if_pos hsame, decide_eq_true_iff]
  · rw [if_neg hsame, if_neg hsame]
    exact hs out t' e' w

theorem SetsEdge.edgesOf {s s' : Store} {t : Name} {d : EdgeDelta}
    (h : SetsEdge s s' t d.id (d.result (getEdgeWeight s t d.id))) :
    edgesOf s' t = EdgeMap.apply (edgesOf s t) d := by
  funext e
  change getEdgeWeight s' t e = _
  rw [h.weight, EdgeMap.apply, Function.update_apply]
  simp [Evidence.edgesOf]

section Writes

variable {s : Store} {t : Name} {e : EdgeId}

theorem setsEdge_delete (hs : Adjacent s) {w0 : Int64} (hcur : getEdgeWeight s t e = some w0) :
    SetsEdge s (s.commit (removeEdge t e w0)) t e none := by
  rw [adjacent_iff] at hs
  simp only [removeEdge, Kv.commit_cons, Kv.commit_nil]
  constructor
  · intro t' e'
    rw [weight_write_adjacencyKey (b := false) rfl, weight_write_adjacencyKey (b := true) rfl,
      weight_write_delete]
  · intro out t' e' w
    rw [hasAdjacency_write_adjacencyKey (b := false) rfl,
      hasAdjacency_write_adjacencyKey (b := true) rfl, hasAdjacency_write_graphEdgeKey rfl]
    by_cases hsame : t' = t ∧ e' = e
    · obtain ⟨rfl, rfl⟩ := hsame
      have hold := hs out t' e' w
      rw [hcur, Option.some.injEq] at hold
      by_cases hw : w = w0
      · subst w
        cases out <;> simp
      · have hnone : hasAdjacency s out t' e' w = false := by
          rw [← Bool.not_eq_true, ← hold]
          exact fun h => hw h.symm
        simp [hw, hnone]
    · rw [if_neg (fun h => hsame ⟨h.2.1, h.2.2.1⟩), if_neg (fun h => hsame ⟨h.2.1, h.2.2.1⟩),
        if_neg hsame]

/-- Writing an edge at a weight other than which none is indexed. -/
theorem setsEdge_put {new : Int64} (hold : ∀ out w, hasAdjacency s out t e w = true → w = new) :
    SetsEdge s (s.commit (putEdge t e new)) t e (some new) := by
  simp only [putEdge, Kv.commit_cons, Kv.commit_nil]
  constructor
  · intro t' e'
    rw [weight_write_adjacencyKey (b := false) rfl, weight_write_adjacencyKey (b := true) rfl,
      weight_write_put]
  · intro out t' e' w
    rw [hasAdjacency_write_adjacencyKey (b := false) rfl,
      hasAdjacency_write_adjacencyKey (b := true) rfl, hasAdjacency_write_graphEdgeKey rfl]
    by_cases hsame : t' = t ∧ e' = e
    · obtain ⟨rfl, rfl⟩ := hsame
      by_cases hw : w = new
      · subst w
        cases out <;> simp <;> rfl
      · have hnone : hasAdjacency s out t' e' w = false := by
          rw [← Bool.not_eq_true]
          exact fun h => hw (hold out w h)
        simp [hw, Ne.symm hw, hnone]
    · rw [if_neg (fun h => hsame ⟨h.2.1, h.2.2.1⟩), if_neg (fun h => hsame ⟨h.2.1, h.2.2.1⟩),
        if_neg hsame]

theorem setsEdge_move (hs : Adjacent s) {w0 new : Int64} (hcur : getEdgeWeight s t e = some w0) :
    SetsEdge s (s.commit ([.delete (graphOutKey t e w0), .delete (graphInKey t e w0)] ++
      putEdge t e new)) t e (some new) := by
  rw [adjacent_iff] at hs
  have hmid : ∀ out t' e' w, hasAdjacency
      (s.commit [.delete (graphOutKey t e w0), .delete (graphInKey t e w0)]) out t' e' w =
        if t' = t ∧ e' = e ∧ w = w0 then false else hasAdjacency s out t' e' w := by
    intro out t' e' w
    simp only [Kv.commit_cons, Kv.commit_nil]
    rw [hasAdjacency_write_adjacencyKey (b := false) rfl,
      hasAdjacency_write_adjacencyKey (b := true) rfl]
    cases out <;> simp
  have hold : ∀ out w, hasAdjacency
      (s.commit [.delete (graphOutKey t e w0), .delete (graphInKey t e w0)]) out t e w = true →
        w = new := by
    intro out w h
    rw [hmid] at h
    by_cases hw : w = w0
    · simp [hw] at h
    · rw [if_neg (fun hsame => hw hsame.2.2), ← hs out t e w, hcur, Option.some.injEq] at h
      exact absurd h.symm hw
  have hput := setsEdge_put hold
  rw [Kv.commit_append]
  constructor
  · intro t' e'
    rw [hput.weight, Kv.commit_cons, Kv.commit_cons, Kv.commit_nil,
      weight_write_adjacencyKey (b := false) rfl, weight_write_adjacencyKey (b := true) rfl]
  · intro out t' e' w
    rw [hput.adjacency, hmid]
    by_cases hsame : t' = t ∧ e' = e
    · rw [if_pos hsame, if_pos hsame]
    · rw [if_neg hsame, if_neg hsame, if_neg (fun h => hsame ⟨h.1, h.2.1⟩)]

end Writes

def OverlayShows (s : Store) (t : Name) (acc : Batch × Overlay) : Prop :=
  ∀ e, currentWeight s t acc.2 e = getEdgeWeight (s.commit acc.1) t e

theorem applyEdgeDelta_spec {s : Store} {t : Name} {acc : Batch × Overlay} (d : EdgeDelta)
    (hshows : OverlayShows s t acc) (hadj : Adjacent (s.commit acc.1)) :
    OverlayShows s t (applyEdgeDelta s t acc d).1 ∧
      Adjacent (s.commit (applyEdgeDelta s t acc d).1.1) ∧
      edgesOf (s.commit (applyEdgeDelta s t acc d).1.1) t =
        EdgeMap.apply (edgesOf (s.commit acc.1) t) d := by
  obtain ⟨batch, overlay⟩ := acc
  have hcur : currentWeight s t overlay d.id = getEdgeWeight (s.commit batch) t d.id := hshows d.id
  -- every case that writes sets the edge of `d` and records it in the overlay
  have hset : ∀ (more : Batch) (new : Option Int64),
      new = d.result (getEdgeWeight (s.commit batch) t d.id) →
      SetsEdge (s.commit batch) ((s.commit batch).commit more) t d.id new →
      OverlayShows s t (batch ++ more, Function.update overlay d.id (some new)) ∧
        Adjacent (s.commit (batch ++ more)) ∧
        edgesOf (s.commit (batch ++ more)) t = EdgeMap.apply (edgesOf (s.commit batch) t) d := by
    rintro more new rfl hsets
    rw [Kv.commit_append]
    refine ⟨?_, hsets.adjacent hadj, hsets.edgesOf⟩
    intro e
    change currentWeight s t (Function.update overlay d.id _) e =
      getEdgeWeight (s.commit (batch ++ more)) t e
    rw [Kv.commit_append, hsets.weight, currentWeight, Function.update_apply]
    by_cases he : e = d.id
    · simp [he]
    · rw [if_neg he, if_neg (fun h => he h.2)]
      exact hshows e
  cases hop : d.op with
  | delete =>
    cases hw : getEdgeWeight (s.commit batch) t d.id with
    | none =>
      have hstep : applyEdgeDelta s t (batch, overlay) d = ((batch, overlay), false) := by
        simp only [applyEdgeDelta, hop, hcur, hw]
      rw [hstep]
      refine ⟨hshows, hadj, ?_⟩
      have hresult : d.result (edgesOf (s.commit batch) t d.id) =
          edgesOf (s.commit batch) t d.id := by
        simp only [EdgeDelta.result, hop]
        exact hw.symm
      rw [EdgeMap.apply, hresult, Function.update_eq_self]
    | some w0 =>
      have hstep : applyEdgeDelta s t (batch, overlay) d =
          ((batch ++ removeEdge t d.id w0, Function.update overlay d.id (some none)), true) := by
        simp only [applyEdgeDelta, hop, hcur, hw]
      rw [hstep]
      apply hset _ none
      · simp only [EdgeDelta.result, hop]
      · exact setsEdge_delete hadj hw
  | upsert merge =>
    have hresult : some (mergedWeight (getEdgeWeight (s.commit batch) t d.id) merge d.weight) =
        d.result (getEdgeWeight (s.commit batch) t d.id) := by
      simp only [EdgeDelta.result, hop]
      cases getEdgeWeight (s.commit batch) t d.id <;> cases merge <;> rfl
    have hstep : ∀ newW, newW =
        mergedWeight (getEdgeWeight (s.commit batch) t d.id) merge d.weight →
        (applyEdgeDelta s t (batch, overlay) d).1 =
          (batch ++ (staleWrites t d.id (getEdgeWeight (s.commit batch) t d.id) newW ++
            putEdge t d.id newW), Function.update overlay d.id (some (some newW))) := by
      rintro newW rfl
      simp only [applyEdgeDelta, hop, hcur]
    rw [hstep _ rfl]
    apply hset _ _ hresult
    cases hw : getEdgeWeight (s.commit batch) t d.id with
    | none =>
      apply setsEdge_put
      intro out w h
      have := (adjacent_iff.mp hadj out t d.id w).mpr h
      rw [hw] at this
      simp at this
    | some w0 =>
      by_cases hsame : w0 = mergedWeight (some w0) merge d.weight
      · rw [staleWrites, if_neg (not_not.mpr hsame)]
        apply setsEdge_put
        intro out w h
        have := (adjacent_iff.mp hadj out t d.id w).mpr h
        rw [hw, Option.some.injEq] at this
        rw [← this]
        exact hsame
      · rw [staleWrites, if_pos hsame]
        exact setsEdge_move hadj hw

/-- A batch of deltas acts on the weights one delta after the other, and the
adjacency keys stay in agreement. -/
theorem applyEdgeDeltas_spec {s : Store} {t : Name} {acc : Batch × Overlay} (ds : List EdgeDelta)
    (hshows : OverlayShows s t acc) (hadj : Adjacent (s.commit acc.1)) :
    OverlayShows s t (applyEdgeDeltas s t acc ds).1 ∧
      Adjacent (s.commit (applyEdgeDeltas s t acc ds).1.1) ∧
      edgesOf (s.commit (applyEdgeDeltas s t acc ds).1.1) t =
        ds.foldl EdgeMap.apply (edgesOf (s.commit acc.1) t) := by
  unfold applyEdgeDeltas
  generalize 0 = changed
  induction ds generalizing acc changed with
  | nil => exact ⟨hshows, hadj, rfl⟩
  | cons d ds ih =>
    obtain ⟨hshows', hadj', hedges⟩ := applyEdgeDelta_spec d hshows hadj
    rw [List.foldl_cons, List.foldl_cons, ← hedges]
    exact ih hshows' hadj' _

theorem overlayShows_empty (s : Store) (t : Name) : OverlayShows s t ([], .empty) := by
  intro e
  rfl

/-- A batch of deltas writes edge records of its tenant and of the deltas' graphs only. -/
def WritesGraphs (t : Name) (graphs : List Name) (batch : Batch) : Prop :=
  ∀ x ∈ batch, x.key.tenant = t ∧ ∃ g ∈ graphs, x.key.record.graph? = some g

theorem putEdge_writes (t : Name) (e : EdgeId) (w : Int64) :
    ∀ x ∈ putEdge t e w, x.key.tenant = t ∧ x.key.record.graph? = some e.graph := by
  simp [putEdge, graphEdgeKey, graphOutKey, graphInKey, RecordKey.graph?]

theorem removeEdge_writes (t : Name) (e : EdgeId) (w : Int64) :
    ∀ x ∈ removeEdge t e w, x.key.tenant = t ∧ x.key.record.graph? = some e.graph := by
  simp [removeEdge, graphEdgeKey, graphOutKey, graphInKey, RecordKey.graph?]

theorem staleWrites_writes (t : Name) (e : EdgeId) (current : Option Int64) (w : Int64) :
    ∀ x ∈ staleWrites t e current w, x.key.tenant = t ∧ x.key.record.graph? = some e.graph := by
  unfold staleWrites
  cases current with
  | none => simp
  | some w0 =>
    by_cases h : w0 ≠ w
    · simp [h, graphOutKey, graphInKey, RecordKey.graph?]
    · simp [h]

theorem applyEdgeDelta_writes {s : Store} {t : Name} {acc : Batch × Overlay} (d : EdgeDelta)
    {graphs : List Name} (hd : d.graph ∈ graphs) (hacc : WritesGraphs t graphs acc.1) :
    WritesGraphs t graphs (applyEdgeDelta s t acc d).1.1 := by
  obtain ⟨batch, overlay⟩ := acc
  have happend : ∀ more : Batch, (∀ x ∈ more, x.key.tenant = t ∧
      x.key.record.graph? = some d.graph) → WritesGraphs t graphs (batch ++ more) := by
    intro more hmore x hx
    rcases List.mem_append.mp hx with hx | hx
    · exact hacc x hx
    · exact ⟨(hmore x hx).1, d.graph, hd, (hmore x hx).2⟩
  cases hop : d.op with
  | delete =>
    cases hw : currentWeight s t overlay d.id with
    | none =>
      simp only [applyEdgeDelta, hop, hw]
      exact hacc
    | some w0 =>
      simp only [applyEdgeDelta, hop, hw]
      exact happend _ (removeEdge_writes t d.id w0)
  | upsert merge =>
    simp only [applyEdgeDelta, hop]
    apply happend
    intro x hx
    rcases List.mem_append.mp hx with hx | hx
    · exact staleWrites_writes t d.id _ _ x hx
    · exact putEdge_writes t d.id _ x hx

theorem applyEdgeDeltas_writes {s : Store} {t : Name} {acc : Batch × Overlay} (ds : List EdgeDelta)
    {graphs : List Name} (hds : ∀ d ∈ ds, d.graph ∈ graphs) (hacc : WritesGraphs t graphs acc.1) :
    WritesGraphs t graphs (applyEdgeDeltas s t acc ds).1.1 := by
  unfold applyEdgeDeltas
  generalize 0 = changed
  induction ds generalizing acc changed with
  | nil => exact hacc
  | cons d ds ih =>
    rw [List.foldl_cons]
    exact ih (fun d' hd' => hds d' (by simp [hd']))
      (applyEdgeDelta_writes d (hds d (by simp)) hacc) _

theorem WritesGraphs.nil (t : Name) (graphs : List Name) : WritesGraphs t graphs [] := by
  intro x hx
  simp at hx

theorem writesGraphs_applyEdgeDeltas (s : Store) (t : Name) (ds : List EdgeDelta) :
    WritesGraphs t (ds.map (·.graph)) (applyEdgeDeltas s t ([], .empty) ds).1.1 :=
  applyEdgeDeltas_writes ds (fun _ hd => List.mem_map_of_mem hd) (WritesGraphs.nil t _)

theorem WritesGraphs.get_commit {t : Name} {graphs : List Name} {batch : Batch}
    (h : WritesGraphs t graphs batch) (s : Store) {k : Key}
    (hk : k.tenant ≠ t ∨ ∀ g ∈ graphs, k.record.graph? ≠ some g) :
    (s.commit batch).get k = s.get k := by
  apply Kv.get_commit_of_forall_ne
  intro x hx heq
  obtain ⟨htenant, g, hg, hgraph⟩ := h x hx
  rw [heq] at htenant hgraph
  rcases hk with hk | hk
  · exact hk htenant
  · exact hk g hg hgraph

/-- A second list of deltas continues from the batch and overlay of the first. -/
theorem applyEdgeDeltas_append (s : Store) (t : Name) (acc : Batch × Overlay)
    (ds ds' : List EdgeDelta) :
    (applyEdgeDeltas s t acc (ds ++ ds')).1 =
      (applyEdgeDeltas s t (applyEdgeDeltas s t acc ds).1 ds').1 := by
  have hcount : ∀ (ds : List EdgeDelta) (acc : Batch × Overlay) (m n : ℕ),
      (ds.foldl (fun (acc, changed) d =>
        let (acc, flag) := applyEdgeDelta s t acc d
        (acc, if flag then changed + 1 else changed)) (acc, m)).1 =
      (ds.foldl (fun (acc, changed) d =>
        let (acc, flag) := applyEdgeDelta s t acc d
        (acc, if flag then changed + 1 else changed)) (acc, n)).1 := by
    intro ds
    induction ds with
    | nil =>
      intro acc m n
      rfl
    | cons d ds ih =>
      intro acc m n
      rw [List.foldl_cons, List.foldl_cons]
      exact ih _ _ _
  rw [applyEdgeDeltas, List.foldl_append]
  exact hcount ds' _ _ _

theorem snd_of_unless {ε α β : Type} {p : Prop} [Decidable p] {check : Except ε PUnit}
    {none some r : α × β} {b : β} (hnone : p → none.2 = b) (hsome : some.2 = b)
    (h : (if p then .ok none else do check; return some) = Except.ok r) : r.2 = b := by
  split_ifs at h with hp
  · exact Except.ok.inj h ▸ hnone hp
  · obtain ⟨-, -, h⟩ := bind_eq_ok.mp h
    exact Except.ok.inj h ▸ hsome

theorem Graph.upsert_eq_ok {s : Store} {w : Bool} {t graph : Name} {edges : List EdgeUpsert}
    {merge : Merge} {n : ℕ} {batch : Batch}
    (h : Graph.upsert s w t graph edges merge = .ok (n, batch)) :
    batch = (applyEdgeDeltas s t ([], .empty) (edges.map (·.delta graph merge))).1.1 := by
  apply snd_of_unless _ rfl h
  rintro rfl
  rfl

theorem Graph.delete_eq_ok {s : Store} {w : Bool} {t graph : Name} {edges : List EdgeRef} {n : ℕ}
    {batch : Batch} (h : Graph.delete s w t graph edges = .ok (n, batch)) :
    batch = (applyEdgeDeltas s t ([], .empty) (edges.map (·.delta graph))).1.1 := by
  apply snd_of_unless _ rfl h
  rintro rfl
  rfl

theorem Graph.mutate_eq_ok {s : Store} {w : Bool} {t graph : Name} {upserts : List EdgeUpsert}
    {deletes : List EdgeRef} {merge : Merge} {n : ℕ × ℕ} {batch : Batch}
    (h : Graph.mutate s w t graph upserts deletes merge = .ok (n, batch)) :
    batch = (applyEdgeDeltas s t ([], .empty)
      (upserts.map (·.delta graph merge) ++ deletes.map (·.delta graph))).1.1 := by
  rw [applyEdgeDeltas_append]
  apply snd_of_unless _ rfl h
  rintro ⟨rfl, rfl⟩
  rfl

theorem graph?_of_tag_mem {k : RecordKey} (h : k.tag ∈ Graph.graphTags) : ∃ g, k.graph? =
    some g := by
  cases k <;> first
    | exact ⟨_, rfl⟩
    | (simp only [RecordKey.tag] at h; exact absurd h (by decide))

theorem tag_mem_of_graph? {k : RecordKey} {g : Name} (h : k.graph? = some g) :
    k.tag ∈ Graph.graphTags := by
  cases k <;> simp [RecordKey.graph?] at h <;> simp [RecordKey.tag, Graph.graphTags]

theorem tag_of_graphPrefix_isPrefix {t graph : Name} {tag : UInt8} {k : Key}
    (h : graphPrefix t tag graph <+: k.encode) : k.record.tag = tag := by
  obtain ⟨more, hmore⟩ := h
  simp only [graphPrefix, Key.encode, externalKey, List.append_assoc] at hmore
  obtain ⟨-, htail⟩ := selfDelimiting_pushLp _ _ _ _ hmore
  exact (List.cons.inj htail).1.symm

theorem mem_scan_graphTags {s : Store} {t graph : Name} {k : Key} :
    k ∈ Graph.graphTags.flatMap (Graph.scanTag s t graph) ↔
      (k.tenant = t ∧ k.record.graph? = some graph) ∧ (s.get k).isSome = true := by
  simp only [List.mem_flatMap, Graph.scanTag, Kv.mem_scan, List.isPrefixOf_iff_prefix]
  constructor
  · rintro ⟨tag, htag, hin, hlive⟩
    have hk := tag_of_graphPrefix_isPrefix hin
    obtain ⟨g, hg⟩ := graph?_of_tag_mem (k := k.record) (by rw [hk]; exact htag)
    obtain ⟨htenant, -, rfl⟩ := (graphPrefix_isPrefix hg tag).mp hin
    exact ⟨⟨htenant, hg⟩, hlive⟩
  · rintro ⟨⟨htenant, hg⟩, hlive⟩
    exact ⟨k.record.tag, tag_mem_of_graph? hg,
      (graphPrefix_isPrefix hg _).mpr ⟨htenant, rfl, rfl⟩, hlive⟩

theorem get_commit_dropGraph (s : Store) (t graph : Name) (k : Key) :
    (s.commit ((Graph.graphTags.flatMap (Graph.scanTag s t graph)).map .delete)).get k =
      if k.tenant = t ∧ k.record.graph? = some graph then none else s.get k := by
  rw [Kv.get_commit_deletes]
  by_cases hk : k.tenant = t ∧ k.record.graph? = some graph
  · rw [if_pos hk]
    cases hget : s.get k with
    | none => simp
    | some v =>
      apply if_pos
      rw [mem_scan_graphTags, hget]
      exact ⟨hk, rfl⟩
  · rw [if_neg hk]
    apply if_neg
    rw [mem_scan_graphTags]
    exact fun h => hk h.1

end BlueDB.Evidence
