import BlueDB.Evidence.Erasure

/-!
# The graph as a projection of chains

Every operation that writes edges does so as one list of deltas, or drops a
graph. From this the adjacency keys agree with the canonical keys in every run,
and a graph that only the appends of one chain write is the fold of that chain's
stored edges.
-/

namespace BlueDB.Evidence

variable (sha256 : List UInt8 → Digest)

def SameEdges (s s' : Store) : Prop := ∀ k : Key, k.record.kind = .edge → s.get k = s'.get k

theorem SameEdges.refl (s : Store) : SameEdges s s := fun _ _ => rfl

theorem SameEdges.weight {s s' : Store} (h : SameEdges s s') (t : Name) (e : EdgeId) :
    getEdgeWeight s t e = getEdgeWeight s' t e :=
  h (graphEdgeKey t e) rfl

theorem SameEdges.adjacent {s s' : Store} (h : SameEdges s s') (hs : Adjacent s') : Adjacent s := by
  intro t e w
  rw [h.weight, h (graphOutKey t e w) rfl, h (graphInKey t e w) rfl]
  exact hs t e w

inductive GraphChange where
  | deltas (t : Name) (ds : List EdgeDelta)
  | drop (t graph : Name)

/-- The edge writes of a change. -/
def GraphChange.batch (s : Store) : GraphChange → Batch
  | .deltas t ds => (applyEdgeDeltas s t ([], .empty) ds).1.1
  | .drop t graph => (Graph.graphTags.flatMap (Graph.scanTag s t graph)).map .delete

def retractions (s : Store) (t c : Name) (seq : ℤ) (retractEdges : Bool) : List EdgeDelta :=
  match getEntry s t c seq with
  | some rec => if retractEdges then rec.edges.1.map (·.retraction) else []
  | none => []

/-- What a request that succeeds does to the edges. -/
def Op.graphChange (s : Store) : Op → GraphChange
  | .createChain _ t _ _ => .deltas t []
  | .append w t c entries idemKey =>
      .deltas t ((accepted sha256 t c s (.append w t c entries idemKey)).flatMap (·.edges.1))
  | .redact _ t _ _ => .deltas t []
  | .hardDelete _ t c seq retractEdges => .deltas t (retractions s t c seq retractEdges)
  | .upsert _ t graph edges merge => .deltas t (edges.map (·.delta graph merge))
  | .delete _ t graph edges => .deltas t (edges.map (·.delta graph))
  | .mutate _ t graph upserts deletes merge =>
      .deltas t (upserts.map (·.delta graph merge) ++ deletes.map (·.delta graph))
  | .dropGraph _ t graph => .drop t graph

section Batches

variable {s : Store} {batch : Batch}

theorem Part.sameEdges {t c : Name} {kinds : List Kind} (h : Part t c kinds batch)
    (hkinds : .edge ∉ kinds) (s : Store) : SameEdges (s.commit batch) s := by
  intro k hk
  apply h.get_commit
  rw [hk]
  exact hkinds

theorem freshAppend_sameEdges {t c : Name} {entries : Sized EntryInput (256 ^ 8)}
    {idemKey : Option (List UInt8)} {res : Appended}
    (h : freshAppend sha256 s t c entries idemKey = .ok (res, batch)) :
    SameEdges (s.commit batch)
      (s.commit (applyEdgeDeltas s t ([], .empty) (entries.1.flatMap (·.edges.1))).1.1) := by
  obtain ⟨merkle, hmerkle, -, rfl⟩ := freshAppend_eq_ok sha256 h
  intro k hk
  simp only [Kv.commit_append]
  rw [(part_idemWrites t c _ _).sameEdges (by simp) _ k hk,
    (part_merkleWrites sha256 hmerkle).sameEdges (by simp) _ k hk,
    (Part.singleton (t := t) (c := c) rfl rfl).sameEdges (by simp) _ k hk]
  apply Kv.get_commit_rel (R := Eq) (fun _ => rfl)
  rw [(part_entryWrites t c _ _).sameEdges (by simp) _ k hk,
    (part_metaWrites s t c).sameEdges (by simp) _ k hk]

theorem append_sameEdges {w : Bool} {t c : Name} {entries : Sized EntryInput (256 ^ 8)}
    {idemKey : Option (List UInt8)} {res : Appended}
    (h : append sha256 s w t c entries idemKey = .ok (res, batch)) :
    SameEdges (s.commit batch)
      (s.commit ((Op.append w t c entries idemKey).graphChange sha256 s |>.batch s)) := by
  simp only [Op.graphChange, GraphChange.batch]
  rcases append_eq_ok sha256 h with ⟨hempty, -, rfl⟩ | ⟨-, ⟨rec, hrec, -⟩, rfl⟩ | ⟨-, hnone, hfresh⟩
  · have hno : accepted sha256 t c s (.append w t c entries idemKey) = [] := by
      simp only [accepted, freshResult, h, hempty]
      split <;> rfl
    rw [hno]
    exact SameEdges.refl s
  · have hno : accepted sha256 t c s (.append w t c entries idemKey) = [] := by
      simp [accepted, freshResult, hrec]
    rw [hno]
    exact SameEdges.refl s
  · have hyes : accepted sha256 t c s (.append w t c entries idemKey) = entries.1 := by
      simp [accepted, freshResult, hnone, h]
    rw [hyes]
    exact freshAppend_sameEdges sha256 hfresh

theorem hardDelete_sameEdges {w retract : Bool} {t c : Name} {seq : ℤ}
    (h : hardDelete s w t c seq retract = .ok batch) :
    SameEdges (s.commit batch)
      (s.commit ((Op.hardDelete w t c seq retract).graphChange sha256 s |>.batch s)) := by
  simp only [hardDelete, bind_eq_ok] at h
  obtain ⟨-, -, h⟩ := h
  split at h
  · cases h
  simp only [Op.graphChange, GraphChange.batch, retractions]
  cases hrec : getEntry s t c seq with
  | none =>
    simp only [hrec] at h
    cases h
  | some rec =>
    simp only [hrec] at h
    obtain rfl := Except.ok.inj h
    intro k hk
    have hentry : (s.write (.delete ⟨t, .entry c seq⟩)).get k = s.get k := by
      apply Kv.get_write_of_ne
      rintro rfl
      cases hk
    rw [Kv.commit_cons]
    cases retract with
    | false => exact hentry
    | true => exact Kv.get_commit_rel (R := Eq) (fun _ => rfl) _ hentry

end Batches

theorem step_sameEdges (s : Store) (op : Op) :
    (∃ e, op.batch sha256 s = .error e) ∨
      SameEdges (step sha256 s op) (s.commit ((op.graphChange sha256 s).batch s)) := by
  cases hbatch : op.batch sha256 s with
  | error e => exact Or.inl ⟨e, rfl⟩
  | ok batch =>
    right
    rw [step_of_ok sha256 hbatch]
    cases op with
    | createChain w t c verified =>
      simp only [Op.batch, createChain, bind_eq_ok] at hbatch
      obtain ⟨-, -, hbatch⟩ := hbatch
      split at hbatch
      · split at hbatch
        · cases hbatch
        · obtain rfl := Except.ok.inj hbatch
          exact SameEdges.refl s
      · obtain rfl := Except.ok.inj hbatch
        exact (Part.singleton (t := t) (c := c) rfl rfl).sameEdges (by simp) s
    | append w t c entries idemKey =>
      obtain ⟨⟨res, batch'⟩, happend, rfl⟩ := map_eq_ok.mp hbatch
      exact append_sameEdges sha256 happend
    | redact w t c seq =>
      simp only [Op.batch, redact, bind_eq_ok] at hbatch
      obtain ⟨-, -, hbatch⟩ := hbatch
      split at hbatch
      · cases hbatch
      · obtain rfl := Except.ok.inj hbatch
        exact (Part.singleton (t := t) (c := c) rfl rfl).sameEdges (by simp) s
    | hardDelete w t c seq retract => exact hardDelete_sameEdges sha256 hbatch
    | upsert w t graph edges merge =>
      obtain ⟨⟨n, batch'⟩, hok, rfl⟩ := map_eq_ok.mp hbatch
      rw [Graph.upsert_eq_ok hok]
      exact SameEdges.refl _
    | delete w t graph edges =>
      obtain ⟨⟨n, batch'⟩, hok, rfl⟩ := map_eq_ok.mp hbatch
      rw [Graph.delete_eq_ok hok]
      exact SameEdges.refl _
    | mutate w t graph upserts deletes merge =>
      obtain ⟨⟨n, batch'⟩, hok, rfl⟩ := map_eq_ok.mp hbatch
      rw [Graph.mutate_eq_ok hok]
      exact SameEdges.refl _
    | dropGraph w t graph =>
      obtain ⟨⟨n, batch'⟩, hok, rfl⟩ := map_eq_ok.mp hbatch
      simp only [Graph.dropGraph, bind_eq_ok] at hok
      obtain ⟨-, -, hok⟩ := hok
      rw [← congrArg Prod.snd (Except.ok.inj hok)]
      exact SameEdges.refl _

theorem adjacent_commit_drop {s : Store} (hs : Adjacent s) (t graph : Name) :
    Adjacent (s.commit ((GraphChange.drop t graph).batch s)) := by
  have hget := get_commit_dropGraph s t graph
  intro t' e w
  rw [getEdgeWeight, GraphChange.batch, hget, hget, hget]
  by_cases hdrop : t' = t ∧ e.graph = graph
  · obtain ⟨rfl, rfl⟩ := hdrop
    simp [graphEdgeKey, graphOutKey, graphInKey, RecordKey.graph?]
  · have hkeep : ∀ k : Key, k.tenant = t' → k.record.graph? = some e.graph →
        ¬(k.tenant = t ∧ k.record.graph? = some graph) := by
      rintro k rfl hk ⟨htenant, hgraph⟩
      exact hdrop ⟨htenant, Option.some.inj (hk.symm.trans hgraph)⟩
    rw [if_neg (hkeep _ rfl rfl), if_neg (hkeep _ rfl rfl), if_neg (hkeep _ rfl rfl)]
    exact hs t' e w

theorem adjacent_step {s : Store} (hs : Adjacent s) (op : Op) : Adjacent (step sha256 s op) := by
  rcases step_sameEdges sha256 s op with ⟨e, herror⟩ | hsame
  · rw [step_of_error sha256 herror]
    exact hs
  · apply hsame.adjacent
    cases op.graphChange sha256 s with
    | deltas t ds => exact (applyEdgeDeltas_spec ds (overlayShows_empty s t) hs).2.1
    | drop t graph => exact adjacent_commit_drop hs t graph

theorem adjacent_run (ops : List Op) : Adjacent (run sha256 ops) := by
  induction ops using List.reverseRecOn with
  | nil => exact adjacent_empty
  | append_singleton ops op ih =>
    rw [run_concat]
    exact adjacent_step sha256 ih op

/-- In every run the canonical key of an edge holds a weight exactly if the two
adjacency keys with that weight are there, and there are no others. -/
theorem graph_adjacency (ops : List Op) :
    (∀ (t graph src dst etype : Name) (w : Int64),
      ((run sha256 ops).get ⟨t, .graphEdge graph src dst etype⟩ = some w ↔
        ((run sha256 ops).get ⟨t, .graphOut graph src w dst etype⟩).isSome = true) ∧
      ((run sha256 ops).get ⟨t, .graphEdge graph src dst etype⟩ = some w ↔
        ((run sha256 ops).get ⟨t, .graphIn graph dst w src etype⟩).isSome = true)) ∧
    ∀ t graph src dst etype : Name,
      {w | ((run sha256 ops).get ⟨t, .graphOut graph src w dst etype⟩).isSome = true}.Subsingleton ∧
      {w | ((run sha256 ops).get ⟨t, .graphIn graph dst w src etype⟩).isSome =
        true}.Subsingleton := by
  have hadj : ∀ (t graph src dst etype : Name) (w : Int64),
      ((run sha256 ops).get ⟨t, .graphEdge graph src dst etype⟩ = some w ↔
        ((run sha256 ops).get ⟨t, .graphOut graph src w dst etype⟩).isSome = true) ∧
      ((run sha256 ops).get ⟨t, .graphEdge graph src dst etype⟩ = some w ↔
        ((run sha256 ops).get ⟨t, .graphIn graph dst w src etype⟩).isSome = true) := by
    intro t graph src dst etype w
    exact adjacent_run sha256 ops t ⟨graph, src, dst, etype⟩ w
  refine ⟨hadj, ?_⟩
  intro t graph src dst etype
  constructor
  · intro v hv w hw
    have hv' := (hadj t graph src dst etype v).1.mpr hv
    rw [(hadj t graph src dst etype w).1.mpr hw] at hv'
    exact (Option.some.inj hv').symm
  · intro v hv w hw
    have hv' := (hadj t graph src dst etype v).2.mpr hv
    rw [(hadj t graph src dst etype w).2.mpr hw] at hv'
    exact (Option.some.inj hv').symm

section Fold

theorem foldl_apply_congr {m m' : EdgeMap} {e : EdgeId} (h : m e = m' e) (ds : List EdgeDelta) :
    ds.foldl EdgeMap.apply m e = ds.foldl EdgeMap.apply m' e := by
  induction ds generalizing m m' with
  | nil => exact h
  | cons d ds ih =>
    apply ih
    rw [EdgeMap.apply, EdgeMap.apply, Function.update_apply, Function.update_apply]
    split
    · rename_i he
      rw [← he, h]
    · exact h

theorem foldl_apply_of_forall_ne (m : EdgeMap) {e : EdgeId} {ds : List EdgeDelta}
    (h : ∀ d ∈ ds, d.graph ≠ e.graph) : ds.foldl EdgeMap.apply m e = m e := by
  induction ds generalizing m with
  | nil => rfl
  | cons d ds ih =>
    have hne : e ≠ d.id := by
      rintro rfl
      exact h d (by simp) rfl
    rw [List.foldl_cons, ih _ fun d' hd' => h d' (by simp [hd']), EdgeMap.apply,
      Function.update_of_ne hne]

end Fold

/-- The entries of a chain that are stored, in order. -/
def storedEntries (s : Store) (t c : Name) : List EntryRecord :=
  (List.range (getSeq s t c)).filterMap fun i : ℕ => getEntry s t c (i + 1)

/-- A request that writes the graph `g` of tenant `t`, if at all, by an append on
the chain `c`; and removes no entry of that chain. -/
def Op.AppendsOnly (t c g : Name) : Op → Prop
  | .createChain _ _ _ _ => True
  | .append _ t' c' entries _ =>
      t' = t → c' = c ∨ ∀ e ∈ entries.1, ∀ d ∈ e.edges.1, d.graph ≠ g
  | .redact _ _ _ _ => True
  | .hardDelete _ t' c' _ _ => ¬(t' = t ∧ c' = c)
  | .upsert _ t' graph _ _ => ¬(t' = t ∧ graph = g)
  | .delete _ t' graph _ => ¬(t' = t ∧ graph = g)
  | .mutate _ t' graph _ _ _ => ¬(t' = t ∧ graph = g)
  | .dropGraph _ t' graph => ¬(t' = t ∧ graph = g)

theorem accepted_subset {s : Store} {t c : Name} {op : Op} {e : EntryInput}
    (h : e ∈ accepted sha256 t c s op) :
    ∃ w entries idemKey, op = .append w t c entries idemKey ∧ e ∈ entries.1 := by
  cases op with
  | append w t' c' entries idemKey =>
    simp only [accepted, freshResult] at h
    split at h
    · rename_i hsame
      obtain ⟨rfl, rfl, -⟩ := hsame
      refine ⟨w, entries, idemKey, rfl, ?_⟩
      cases hres : append sha256 s w t' c' entries idemKey with
      | ok pair =>
        rw [hres] at h
        exact h
      | error _ =>
        rw [hres] at h
        simp at h
    · simp at h
  | _ => simp [accepted, freshResult] at h

/-- No entry of another chain of the tenant has an edge in the graph. -/
theorem history_other {ops : List Op} {t c c' g : Name} (hops : ∀ op ∈ ops, op.AppendsOnly t c g)
    (hne : c' ≠ c) : ∀ e ∈ history sha256 t c' ops, ∀ d ∈ e.edges.1, d.graph ≠ g := by
  induction ops using List.reverseRecOn with
  | nil => simp [history, collect]
  | append_singleton ops op ih =>
    rw [history_concat]
    intro e he
    rcases List.mem_append.mp he with he | he
    · exact ih (fun op' hop' => hops op' (by simp [hop'])) e he
    · obtain ⟨w, entries, idemKey, rfl, hmem⟩ := accepted_subset sha256 he
      rcases hops (.append w t c' entries idemKey) (by simp) rfl with hc | hnone
      · exact absurd hc hne
      · exact hnone e hmem

theorem retractions_graph {ops : List Op} {t c c' g : Name} {seq : ℤ} {retract : Bool}
    (hops : ∀ op ∈ ops, op.AppendsOnly t c g) (hne : c' ≠ c) :
    ∀ d ∈ retractions (run sha256 ops) t c' seq retract, d.graph ≠ g := by
  intro d hd
  unfold retractions at hd
  cases hrec : getEntry (run sha256 ops) t c' seq with
  | none => simp [hrec] at hd
  | some rec =>
    obtain ⟨n, e, -, he, hof⟩ := (represents_run sha256 ops t c').entry seq rec hrec
    simp only [hrec] at hd
    split at hd
    · obtain ⟨d', hd', rfl⟩ := List.mem_map.mp hd
      rw [hof.edges] at hd'
      exact history_other sha256 hops hne e (List.mem_of_getElem? he) d' hd'
    · simp at hd

theorem weight_commit_deltas {s : Store} (hs : Adjacent s) (t t' : Name) (ds : List EdgeDelta)
    (e : EdgeId) :
    getEdgeWeight (s.commit ((GraphChange.deltas t' ds).batch s)) t e =
      if t' = t then ds.foldl EdgeMap.apply (edgesOf s t) e else getEdgeWeight s t e := by
  by_cases ht : t' = t
  · subst t'
    rw [if_pos rfl]
    exact congrFun (applyEdgeDeltas_spec ds (overlayShows_empty s t) hs).2.2 e
  · rw [if_neg ht]
    exact (writesGraphs_applyEdgeDeltas s t' ds).get_commit s (Or.inl (Ne.symm ht))

theorem accepted_eq_nil {s : Store} {t c : Name} {op : Op}
    (h : ∀ w entries idemKey, op ≠ .append w t c entries idemKey) :
    accepted sha256 t c s op = [] := by
  apply List.eq_nil_iff_forall_not_mem.mpr
  intro e he
  obtain ⟨w, entries, idemKey, hop, -⟩ := accepted_subset sha256 he
  exact h w entries idemKey hop

section Replay

variable {ops : List Op} {t c g : Name}

/-- Requests other than appends on the chain leave the graph alone. -/
theorem weight_step_of_ne_append (hops : ∀ op ∈ ops, op.AppendsOnly t c g) {op : Op}
    (hop : op.AppendsOnly t c g) (hne : ∀ w entries idemKey, op ≠ .append w t c entries idemKey)
    {e : EdgeId} (he : e.graph = g) :
    getEdgeWeight (step sha256 (run sha256 ops) op) t e = getEdgeWeight (run sha256 ops) t e := by
  rcases step_sameEdges sha256 (run sha256 ops) op with ⟨err, herror⟩ | hsame
  · rw [step_of_error sha256 herror]
  rw [hsame.weight]
  have hadj := adjacent_run sha256 ops
  -- deltas of other tenants, or of other graphs of this one
  have hother : ∀ t' ds, op.graphChange sha256 (run sha256 ops) = .deltas t' ds →
      (t' = t → ∀ d ∈ ds, d.graph ≠ e.graph) →
      getEdgeWeight ((run sha256 ops).commit
        ((op.graphChange sha256 (run sha256 ops)).batch (run sha256 ops))) t e =
          getEdgeWeight (run sha256 ops) t e := by
    intro t' ds hchange hds
    rw [hchange, weight_commit_deltas hadj]
    by_cases ht : t' = t
    · rw [if_pos ht, foldl_apply_of_forall_ne _ (hds ht)]
      rfl
    · rw [if_neg ht]
  cases op with
  | createChain w t' c' verified => exact hother _ _ rfl (by simp)
  | append w t' c' entries idemKey =>
    apply hother _ _ rfl
    rintro rfl d hd
    obtain ⟨entry, hentry, hd⟩ := List.mem_flatMap.mp hd
    obtain ⟨w', entries', idemKey', heq, hmem⟩ := accepted_subset sha256 hentry
    injection heq with _ _ _ hentries _
    subst hentries
    rcases hop rfl with rfl | hnone
    · exact absurd rfl (hne w entries idemKey)
    · rw [he]
      exact hnone entry hmem d hd
  | redact w t' c' seq => exact hother _ _ rfl (by simp)
  | hardDelete w t' c' seq retract =>
    apply hother _ _ rfl
    rintro rfl d hd
    rw [he]
    exact retractions_graph sha256 hops (fun hc => hop ⟨rfl, hc⟩) d hd
  | upsert w t' graph edges merge | delete w t' graph edges =>
    apply hother _ _ rfl
    rintro rfl d hd
    obtain ⟨u, -, rfl⟩ := List.mem_map.mp hd
    exact fun hgraph => hop ⟨rfl, hgraph.trans he⟩
  | mutate w t' graph upserts deletes merge =>
    apply hother _ _ rfl
    rintro rfl d hd
    rcases List.mem_append.mp hd with hd | hd <;> obtain ⟨u, -, rfl⟩ := List.mem_map.mp hd
    · exact fun hgraph => hop ⟨rfl, hgraph.trans he⟩
    · exact fun hgraph => hop ⟨rfl, hgraph.trans he⟩
  | dropGraph w t' graph =>
    rw [Op.graphChange, getEdgeWeight, GraphChange.batch, get_commit_dropGraph]
    apply if_neg
    rintro ⟨rfl, hgraph⟩
    exact hop ⟨rfl, (Option.some.inj hgraph).symm.trans he⟩

theorem weight_step_of_appendsOnly (hops : ∀ op ∈ ops, op.AppendsOnly t c g) {op : Op}
    (hop : op.AppendsOnly t c g) {e : EdgeId} (he : e.graph = g) :
    getEdgeWeight (step sha256 (run sha256 ops) op) t e =
      ((accepted sha256 t c (run sha256 ops) op).flatMap (·.edges.1)).foldl EdgeMap.apply
        (edgesOf (run sha256 ops) t) e := by
  by_cases happend : ∃ w entries idemKey, op = .append w t c entries idemKey
  · obtain ⟨w, entries, idemKey, rfl⟩ := happend
    rcases step_sameEdges sha256 (run sha256 ops) (.append w t c entries idemKey) with
      ⟨err, herror⟩ | hsame
    · rw [step_of_error sha256 herror, accepted, freshResult_of_error sha256 t c herror]
      rfl
    · rw [hsame.weight, Op.graphChange, weight_commit_deltas (adjacent_run sha256 ops), if_pos rfl]
  · have hne : ∀ w entries idemKey, op ≠ .append w t c entries idemKey := by
      intro w entries idemKey hop'
      exact happend ⟨w, entries, idemKey, hop'⟩
    rw [weight_step_of_ne_append sha256 hops hop hne he, accepted_eq_nil sha256 hne]
    rfl

theorem weight_run_of_appendsOnly (hops : ∀ op ∈ ops, op.AppendsOnly t c g) {e : EdgeId}
    (he : e.graph = g) :
    getEdgeWeight (run sha256 ops) t e =
      ((history sha256 t c ops).flatMap (·.edges.1)).foldl EdgeMap.apply (fun _ => none) e := by
  induction ops using List.reverseRecOn with
  | nil => rfl
  | append_singleton ops op ih =>
    have hpre : ∀ op' ∈ ops, op'.AppendsOnly t c g := fun op' hop' => hops op' (by simp [hop'])
    rw [run_concat, history_concat, List.flatMap_append, List.foldl_append,
      weight_step_of_appendsOnly sha256 hpre (hops op (by simp)) he]
    exact foldl_apply_congr (ih hpre) _

theorem allLive_run (hops : ∀ op ∈ ops, op.AppendsOnly t c g) :
    (chainView (run sha256 ops) t c).AllLive := by
  induction ops using List.reverseRecOn with
  | nil => exact allLive_empty
  | append_singleton ops op ih =>
    have hkeeps : op.erases t c = false := by
      have hop := hops op (by simp)
      cases op with
      | hardDelete w t' c' seq retract => simpa [Op.erases, Op.AppendsOnly] using hop
      | _ => rfl
    have hstep := chainStep_step sha256 (run sha256 ops) op t c
    rw [hkeeps] at hstep
    rw [run_concat]
    exact hstep.allLive sha256 (ih fun op' hop' => hops op' (by simp [hop']))

end Replay

theorem filterMap_range_getElem? {α β : Type*} (f : α → β) (l : List α) :
    (List.range l.length).filterMap (fun i => (l[i]?).map f) = l.map f := by
  induction l using List.reverseRecOn with
  | nil => rfl
  | append_singleton l a ih =>
    have hold : ∀ i ∈ List.range l.length, ((l ++ [a])[i]?).map f = (l[i]?).map f := by
      intro i hi
      rw [List.getElem?_append_left (List.mem_range.mp hi)]
    rw [List.length_append, List.length_singleton, List.range_succ, List.filterMap_append,
      List.filterMap_congr hold, ih, List.map_append]
    simp

theorem storedEntries_edges {ops : List Op} {t c : Name}
    (hlive : (chainView (run sha256 ops) t c).AllLive) :
    (storedEntries (run sha256 ops) t c).map (·.edges) =
      (history sha256 t c ops).map (·.edges) := by
  have hr := represents_run sha256 ops t c
  have hseq : getSeq (run sha256 ops) t c = (history sha256 t c ops).length := hr.seq
  rw [storedEntries, List.map_filterMap, ← filterMap_range_getElem?, hseq]
  apply List.filterMap_congr
  intro i hi
  have hlt : i < getSeq (run sha256 ops) t c := by
    rw [hseq]
    exact List.mem_range.mp hi
  obtain ⟨rec, hrec⟩ := Option.isSome_iff_exists.mp (hlive i hlt)
  obtain ⟨n, e, hn, he, hof⟩ := hr.entry _ _ hrec
  obtain rfl : i = n := by omega
  have hget : getEntry (run sha256 ops) t c (i + 1) = some rec := hrec
  rw [hget, he, Option.map_some, Option.map_some, hof.edges]

/-- A graph that only the appends of one chain write is the fold of the stored
entries' edges in order. It is the same for every run that accepts the same
entries, however they were batched, and for the run without some redactions. -/
theorem graph_replays_chain (ops : List Op) (t c g : Name)
    (hops : ∀ op ∈ ops, op.AppendsOnly t c g) :
    (∀ e : EdgeId, e.graph = g → getEdgeWeight (run sha256 ops) t e =
      ((storedEntries (run sha256 ops) t c).flatMap (·.edges.1)).foldl EdgeMap.apply
        (fun _ => none) e) ∧
    (∀ ops' : List Op, (∀ op ∈ ops', op.AppendsOnly t c g) →
      history sha256 t c ops' = history sha256 t c ops →
      ∀ e : EdgeId, e.graph = g →
        getEdgeWeight (run sha256 ops') t e = getEdgeWeight (run sha256 ops) t e) ∧
    (∀ ops' : List Op, ErasesRedacts ops ops' → ∀ e : EdgeId,
      getEdgeWeight (run sha256 ops') t e = getEdgeWeight (run sha256 ops) t e) := by
  refine ⟨?_, ?_, ?_⟩
  · intro e he
    have hedges : (storedEntries (run sha256 ops) t c).flatMap (·.edges.1) =
        (history sha256 t c ops).flatMap (·.edges.1) := by
      have hmap := storedEntries_edges sha256 (allLive_run sha256 hops)
      have hflat := congrArg (List.flatMap fun edges => edges.1) hmap
      rwa [List.flatMap_map, List.flatMap_map] at hflat
    rw [hedges]
    exact weight_run_of_appendsOnly sha256 hops he
  · intro ops' hops' hsame e he
    rw [weight_run_of_appendsOnly sha256 hops' he, weight_run_of_appendsOnly sha256 hops he, hsame]
  · intro ops' herase e
    rw [(herase.run sha256).weight]

def sampleGraph : Name := ⟨[0x67], by decide⟩

def sampleEdge : EdgeId := ⟨sampleGraph, ⟨[0x61], by decide⟩, ⟨[0x62], by decide⟩, ⟨[], by decide⟩⟩

def sampleEdgeEntry (weight : Int64) : EntryInput :=
  { sampleEntry 0 with
    edges := ⟨[⟨sampleEdge.graph, sampleEdge.src, sampleEdge.dst, weight, sampleEdge.etype,
      .upsert .max⟩], by simp⟩ }

/-- Two entries that raise one edge, in one append or in two with a redaction. -/
theorem graph_replays_chain_sample :
    getEdgeWeight (run Sha256.hash
        [.append true sampleTenant sampleChain ⟨[sampleEdgeEntry 5], by simp⟩ none,
          .redact true sampleTenant sampleChain 1,
          .append true sampleTenant sampleChain ⟨[sampleEdgeEntry 3], by simp⟩ none])
        sampleTenant sampleEdge = some 5 ∧
      getEdgeWeight (run Sha256.hash
        [.append true sampleTenant sampleChain
          ⟨[sampleEdgeEntry 5, sampleEdgeEntry 3], by simp⟩ none])
        sampleTenant sampleEdge = some 5 := by
  have hgrouped := graph_replays_chain Sha256.hash
    [.append true sampleTenant sampleChain ⟨[sampleEdgeEntry 5, sampleEdgeEntry 3], by simp⟩ none]
    sampleTenant sampleChain sampleGraph (by simp [Op.AppendsOnly])
  have hsplit := hgrouped.2.1
    [.append true sampleTenant sampleChain ⟨[sampleEdgeEntry 5], by simp⟩ none,
      .redact true sampleTenant sampleChain 1,
      .append true sampleTenant sampleChain ⟨[sampleEdgeEntry 3], by simp⟩ none]
    (by simp [Op.AppendsOnly]) (by decide +kernel) sampleEdge rfl
  have hweight := hgrouped.1 sampleEdge rfl
  have hfold : ((storedEntries (run Sha256.hash
      [.append true sampleTenant sampleChain
        ⟨[sampleEdgeEntry 5, sampleEdgeEntry 3], by simp⟩ none])
      sampleTenant sampleChain).flatMap (·.edges.1)).foldl EdgeMap.apply (fun _ => none)
        sampleEdge = some 5 := by decide +kernel
  exact ⟨hsplit.trans (hweight.trans hfold), hweight.trans hfold⟩

end BlueDB.Evidence
