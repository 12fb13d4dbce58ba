import BlueDB.Evidence.Neighbors

/-!
# Reachable nodes

Whatever the order in which the scans of a level complete, the search ends with the nodes
that are reachable from the seeds.
-/

namespace BlueDB.Evidence

section Join

variable {scan : Name → Except EvidenceError (List Name)} {R : Name → Name → Prop}

theorem joinScans_spec (hscan : ∀ node, ∃ found, scan node = .ok found ∧ ∀ v, v ∈ found ↔ R node v)
    (choose : ℕ → ℕ) {count : ℕ} {inFlight waiting : List Name}
    (hcount : (inFlight ++ waiting).length = count) (hbusy : waiting ≠ [] → inFlight ≠ []) :
    ∃ found, joinScans scan choose count inFlight waiting = .ok found ∧
      ∀ v, v ∈ found ↔ ∃ u ∈ inFlight ++ waiting, R u v := by
  induction count generalizing inFlight waiting with
  | zero =>
    have hnil := List.length_eq_zero_iff.mp hcount
    refine ⟨[], rfl, fun v => ?_⟩
    rw [hnil]
    simp
  | succ count ih =>
    have hpos : 0 < inFlight.length := by
      apply List.length_pos_iff.mpr
      intro hnil
      subst hnil
      cases waiting with
      | nil => cases hcount
      | cons w rest => exact hbusy (List.cons_ne_nil w rest) rfl
    have hindex := Nat.mod_lt (choose count) hpos
    obtain ⟨found, hfound, hmem⟩ := hscan inFlight[choose count % inFlight.length]
    have hperm := List.getElem_cons_eraseIdx_perm hindex
    have hsplit : waiting.take 1 ++ waiting.drop 1 = waiting := List.take_append_drop 1 waiting
    have hnext : ((inFlight.eraseIdx (choose count % inFlight.length) ++ waiting.take 1) ++
        waiting.drop 1).length = count := by
      have hlength := hperm.length_eq
      rw [List.length_cons] at hlength
      rw [List.length_append] at hcount
      rw [List.append_assoc, hsplit, List.length_append]
      omega
    have hbusy' : waiting.drop 1 ≠ [] →
        inFlight.eraseIdx (choose count % inFlight.length) ++ waiting.take 1 ≠ [] := by
      intro hdrop
      apply List.append_ne_nil_of_right_ne_nil
      intro htake
      cases waiting with
      | nil => exact hdrop rfl
      | cons w rest => cases htake
    obtain ⟨more, hmore, hmoreMem⟩ := ih hnext hbusy'
    refine ⟨found ++ more, ?_, fun v => ?_⟩
    · unfold joinScans
      rw [List.getElem?_eq_getElem hindex]
      dsimp only
      rw [hfound, hmore]
      rfl
    · rw [List.mem_append, hmem, hmoreMem, List.append_assoc, hsplit]
      constructor
      · rintro (h | ⟨u, hu, h⟩)
        · exact ⟨_, List.mem_append_left _ (List.getElem_mem hindex), h⟩
        · rcases List.mem_append.mp hu with hu | hu
          · exact ⟨u, List.mem_append_left _ (List.mem_of_mem_eraseIdx hu), h⟩
          · exact ⟨u, List.mem_append_right _ hu, h⟩
      · rintro ⟨u, hu, h⟩
        rcases List.mem_append.mp hu with hu | hu
        · rcases List.mem_cons.mp (hperm.mem_iff.mpr hu) with rfl | hu
          · exact Or.inl h
          · exact Or.inr ⟨u, List.mem_append_left _ hu, h⟩
        · exact Or.inr ⟨u, List.mem_append_right _ hu, h⟩

end Join

/-- The ends of a stored edge. -/
def ends (k : Key) : List Name :=
  match k.record with
  | .graphEdge _ src dst _ => [src, dst]
  | _ => []

def graphNodes (s : Store) : Finset Name := (s.written.flatMap ends).toFinset

variable {s : Store} {t graph : Name} {directed : Bool} {floor : Int64}

theorem EdgeBetween.mem_graphNodes {u v : Name} {w : Int64}
    (h : EdgeBetween s t graph directed u v w) : v ∈ graphNodes s := by
  have hmem : ∀ {e : EdgeId}, getEdgeWeight s t e = some w → e.src ∈ graphNodes s ∧
      e.dst ∈ graphNodes s := by
    intro e he
    have hlive : (s.get (graphEdgeKey t e)).isSome = true := by
      change (getEdgeWeight s t e).isSome = true
      rw [he]
      rfl
    have hkey := s.covers _ hlive
    constructor
    · exact List.mem_toFinset.mpr (List.mem_flatMap.mpr ⟨_, hkey, List.mem_cons_self⟩)
    · exact List.mem_toFinset.mpr
        (List.mem_flatMap.mpr ⟨_, hkey, List.mem_cons_of_mem _ List.mem_cons_self⟩)
  obtain ⟨etype, hweight | ⟨-, hweight⟩⟩ := h
  · exact (hmem hweight).2
  · exact (hmem hweight).1

/-- A step over an edge of the floor or more. -/
def Hop (s : Store) (t graph : Name) (directed : Bool) (floor : Int64) (u v : Name) : Prop :=
  ∃ w, floor ≤ w ∧ EdgeBetween s t graph directed u v w

theorem StoredGraph.expandLevel (h : StoredGraph s) (nodes : List Name) (choose : ℕ → ℕ) :
    ∃ found, Evidence.expandLevel s t graph nodes floor directed choose = .ok found ∧
      ∀ v, v ∈ found ↔ ∃ u ∈ nodes, Hop s t graph directed floor u v := by
  have hscan : ∀ node, ∃ found,
      (Evidence.neighbors s t graph directed floor node).map (List.map Prod.fst) = .ok found ∧
      ∀ v, v ∈ found ↔ Hop s t graph directed floor node v := by
    intro node
    obtain ⟨edges, hedges, hmem⟩ := h.neighbors t graph directed floor node
    refine ⟨edges.map Prod.fst, by rw [hedges]; rfl, fun v => ?_⟩
    rw [List.mem_map]
    constructor
    · rintro ⟨⟨far, w, etype⟩, hedge, rfl⟩
      exact ⟨w, (hmem far w).mp ⟨etype, hedge⟩⟩
    · rintro ⟨w, hhop⟩
      obtain ⟨etype, hedge⟩ := (hmem v w).mpr hhop
      exact ⟨_, hedge, rfl⟩
  have hsplit : nodes.take reachableFanout ++ nodes.drop reachableFanout = nodes :=
    List.take_append_drop ..
  have hbusy : nodes.drop reachableFanout ≠ [] → nodes.take reachableFanout ≠ [] := by
    intro hdrop htake
    cases nodes with
    | nil => exact hdrop rfl
    | cons n rest => cases htake
  have hjoin := joinScans_spec hscan choose (congrArg List.length hsplit) hbusy
  rw [hsplit] at hjoin
  exact hjoin

theorem StoredGraph.reachable (h : StoredGraph s) (t graph : Name) (seeds : List Name)
    (floor : Int64) (directed : Bool) :
    ∃ enough, ∀ fuel ≥ enough, ∀ choose, ∃ nodes,
      Evidence.reachable s t graph seeds floor directed choose fuel = some (.ok nodes) ∧
      nodes.Pairwise (· < ·) ∧
      ∀ v, v ∈ nodes ↔
        ∃ seed ∈ seeds, Relation.ReflTransGen (Hop s t graph directed floor) seed v := by
  refine ⟨((seeds.toFinset ∪ graphNodes s) \ (LevelSearch.absorb (∅, []) seeds).1).card + 2, ?_⟩
  intro fuel hfuel choose
  have hstart := LevelSearch.Searching.start (Hop s t graph directed floor) seeds
  have hsub : (LevelSearch.absorb (∅, []) seeds).1 ⊆ seeds.toFinset ∪ graphNodes s := by
    intro v hv
    have hseed := (LevelSearch.mem_absorb_visited.mp hv).resolve_left (Finset.notMem_empty v)
    exact Finset.mem_union_left _ (List.mem_toFinset.mpr hseed)
  obtain ⟨visited, hrun, hmem⟩ := @LevelSearch.Searching.search _ _ _ _ _ _ _
    (seeds.toFinset ∪ graphNodes s)
    (fun level frontier => h.expandLevel frontier (choose level))
    (fun u v ⟨w, _, huv⟩ => Finset.mem_union_right _ huv.mem_graphNodes) fuel 0 hstart hsub
    (by split_ifs <;> omega)
  refine ⟨visited.sort (· ≤ ·), ?_, (Finset.sortedLT_sort visited).pairwise, fun v => ?_⟩
  · unfold Evidence.reachable
    rw [hrun]
    rfl
  · rw [Finset.mem_sort, hmem]

/-- The nodes that are reachable from the seeds over edges of the floor or more, in order
and each once, whatever the order in which the scans complete. -/
theorem reachable_exact (s : Store) (h : StoredGraph s) (t graph : Name) (seeds : List Name)
    (floor : Int64) (directed : Bool) :
    ∃ enough, ∀ fuel ≥ enough, ∀ choose, ∃ nodes,
      reachable s t graph seeds floor directed choose fuel = some (.ok nodes) ∧
      nodes.Pairwise (· < ·) ∧
      ∀ v, v ∈ nodes ↔
        ∃ seed ∈ seeds, Relation.ReflTransGen (Hop s t graph directed floor) seed v :=
  h.reachable t graph seeds floor directed

namespace OneEdge

def letter (b : UInt8) : Name := ⟨[b], (by decide : 1 < 256 ^ 4)⟩

def arc (src dst : UInt8) : EdgeId := ⟨letter 0x67, letter src, letter dst, letter 0x74⟩

/-- From `a` to `b`. -/
def edge : EdgeId := arc 0x61 0x62

def store (weight : Int64) : Store := Kv.empty.commit (putEdge (letter 0x74) edge weight)

theorem sets (weight : Int64) :
    SetsEdge Kv.empty (store weight) (letter 0x74) edge (some weight) :=
  setsEdge_put fun out w h => by cases h

theorem utf8_letter {b : UInt8} {c : Char} (h : [c].utf8Encode = ByteArray.mk #[b]) :
    Utf8 (letter b).1 := by
  change (ByteArray.mk #[b]).IsValidUTF8
  rw [← h]
  exact ByteArray.isValidUTF8_utf8Encode

theorem set_stored {s s' : Store} {e : EdgeId} {new : Option Int64} (h : StoredGraph s)
    (hset : SetsEdge s s' (letter 0x74) e new)
    (htext : Utf8 e.src.1 ∧ Utf8 e.dst.1 ∧ Utf8 e.etype.1) : StoredGraph s' where
  adjacent := hset.adjacent h.adjacent
  text t' e' hsome := by
    rw [hset.weight] at hsome
    split_ifs at hsome with he
    · obtain ⟨-, rfl⟩ := he
      exact htext
    · exact h.text t' e' hsome

theorem stored (weight : Int64) : StoredGraph (store weight) :=
  set_stored ⟨adjacent_empty, fun _ _ h => by cases h⟩ (sets weight)
    ⟨utf8_letter (c := 'a') (by decide), utf8_letter (c := 'b') (by decide),
      utf8_letter (c := 't') (by decide)⟩

/-- A wider way goes through `c`. -/
def twoWays : Store :=
  ((store 7).commit (putEdge (letter 0x74) (arc 0x61 0x63) 9)).commit
    (putEdge (letter 0x74) (arc 0x63 0x62) 8)

theorem stored_twoWays : StoredGraph twoWays := by
  have hfirst : SetsEdge (store 7) _ (letter 0x74) (arc 0x61 0x63) (some 9) :=
    setsEdge_put fun out w h => by
      rw [(sets 7).adjacency, if_neg (by decide)] at h
      cases h
  refine set_stored (set_stored (stored 7) hfirst ?_) (setsEdge_put fun out w h => ?_) ?_
  · exact ⟨utf8_letter (c := 'a') (by decide), utf8_letter (c := 'c') (by decide),
      utf8_letter (c := 't') (by decide)⟩
  · rw [hfirst.adjacency, if_neg (by decide), (sets 7).adjacency, if_neg (by decide)] at h
    cases h
  · exact ⟨utf8_letter (c := 'c') (by decide), utf8_letter (c := 'b') (by decide),
      utf8_letter (c := 't') (by decide)⟩

theorem reachable_exact_twoWays :
    ∃ enough, ∀ fuel ≥ enough, ∀ choose, ∃ nodes,
      reachable twoWays (letter 0x74) (letter 0x67) [letter 0x61] 8 true choose fuel =
        some (.ok nodes) ∧ nodes.Pairwise (· < ·) ∧
      ∀ v, v ∈ nodes ↔ ∃ seed ∈ [letter 0x61], Relation.ReflTransGen
        (Hop twoWays (letter 0x74) (letter 0x67) true 8) seed v :=
  reachable_exact _ stored_twoWays _ _ _ _ _

end OneEdge

end BlueDB.Evidence
