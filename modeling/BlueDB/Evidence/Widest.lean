import BlueDB.Evidence.Reachable

/-!
# Widest paths of a graph

The search for the widest path takes the least weight for that of the nodes it does not know.
It answers as it should unless every path has an edge of the least weight; such a path it
does not find.
-/

namespace BlueDB.Evidence

/-- A path with the weights of its edges. -/
inductive GraphPath (E : Name → Name → Int64 → Prop) : Name → List Int64 → Name → Prop
  | nil (a : Name) : GraphPath E a [] a
  | cons {a b c : Name} {w : Int64} {ws : List Int64} :
      E a b w → GraphPath E b ws c → GraphPath E a (w :: ws) c

/-- The least weights of the paths from one node to another. -/
def Bottlenecks (E : Name → Name → Int64 → Prop) (a b : Name) : Set Int64 :=
  {m | ∃ ws, GraphPath E a ws b ∧ IsLeast {w | w ∈ ws} m}

structure WidestPath.Correct (s : Store) (t graph source target : Name) (directed : Bool)
    (r : WidestPath) : Prop where
  connected : r.connected = true ↔ ∃ ws, GraphPath (EdgeBetween s t graph directed) source ws target
  bottleneck : r.connected = true → ∃ width, r.bottleneck = some width ∧
    IsGreatest (Bottlenecks (EdgeBetween s t graph directed) source target) width
  reachable : ∃ enough, ∀ fuel ≥ enough, ∀ choose, ∃ nodes,
    Evidence.reachable s t graph [source] Int64.minValue directed choose fuel = some (.ok nodes) ∧
      (r.connected = true ↔ target ∈ nodes)

section Paths

variable {E : Name → Name → Int64 → Prop} {hops : Name → List (Name × Int64)} {a b : Name}

theorem graphPath_of_isPath (hhops : ∀ u v w, (v, w) ∈ hops u ↔ E u v w)
    {path : List (Name × Int64)} (h : Maximin.IsPath hops a path b) :
    GraphPath E a (path.map Prod.snd) b := by
  induction path generalizing a with
  | nil =>
    obtain rfl : a = b := h
    exact GraphPath.nil a
  | cons e path ih => exact GraphPath.cons ((hhops a e.1 e.2).mp h.1) (ih h.2)

theorem GraphPath.exists_isPath (hhops : ∀ u v w, (v, w) ∈ hops u ↔ E u v w) {ws : List Int64}
    (h : GraphPath E a ws b) : ∃ path, Maximin.IsPath hops a path b ∧ path.map Prod.snd = ws := by
  induction h with
  | nil a => exact ⟨[], rfl, rfl⟩
  | @cons a b c w ws he _ ih =>
    obtain ⟨path, hpath, rfl⟩ := ih
    exact ⟨(b, w) :: path, ⟨(hhops a b w).mpr he, hpath⟩, rfl⟩

/-- The width of a path with an edge is the least of its weights. -/
theorem bottleneck_isLeast {path : List (Name × Int64)} (hne : path ≠ []) :
    IsLeast {w | w ∈ path.map Prod.snd} (Maximin.bottleneck path) := by
  induction path with
  | nil => exact absurd rfl hne
  | cons e path ih =>
    change IsLeast {w | w ∈ e.2 :: path.map Prod.snd} (min e.2 (Maximin.bottleneck path))
    cases hpath : path with
    | nil =>
      rw [List.map_nil]
      refine ⟨?_, fun w hw => ?_⟩
      · change min e.2 ⊤ ∈ [e.2]
        rw [min_top_right]
        exact List.mem_singleton_self _
      · obtain rfl := List.mem_singleton.mp hw
        exact min_le_left _ _
    | cons e' rest =>
      rw [← hpath]
      obtain ⟨hmem, hle⟩ := ih (by rw [hpath]; exact List.cons_ne_nil _ _)
      refine ⟨?_, fun w hw => ?_⟩
      · rcases min_choice e.2 (Maximin.bottleneck path) with hmin | hmin
        · rw [hmin]
          exact List.mem_cons_self
        · rw [hmin]
          exact List.mem_cons_of_mem _ hmem
      · rcases List.mem_cons.mp hw with rfl | hw
        · exact min_le_left _ _
        · exact (min_le_right _ _).trans (hle hw)

theorem ne_nil_of_isPath {path : List (Name × Int64)} (hne : a ≠ b)
    (h : Maximin.IsPath hops a path b) : path ≠ [] := by
  rintro rfl
  exact hne h

theorem mem_bottlenecks_iff (hhops : ∀ u v w, (v, w) ∈ hops u ↔ E u v w) (hne : a ≠ b) {m : Int64} :
    m ∈ Bottlenecks E a b ↔
      ∃ path, Maximin.IsPath hops a path b ∧ Maximin.bottleneck path = m := by
  constructor
  · rintro ⟨ws, hws, hleast⟩
    obtain ⟨path, hpath, rfl⟩ := hws.exists_isPath hhops
    exact ⟨path, hpath, (bottleneck_isLeast (ne_nil_of_isPath hne hpath)).unique hleast⟩
  · rintro ⟨path, hpath, rfl⟩
    exact ⟨_, graphPath_of_isPath hhops hpath, bottleneck_isLeast (ne_nil_of_isPath hne hpath)⟩

theorem GraphPath.snoc {c : Name} {w : Int64} {ws : List Int64} (h : GraphPath E a ws b)
    (he : E b c w) : GraphPath E a (ws ++ [w]) c := by
  induction h with
  | nil a => exact GraphPath.cons he (GraphPath.nil c)
  | cons he' _ ih => exact GraphPath.cons he' (ih he)

theorem graphPath_of_reflTransGen
    (h : Relation.ReflTransGen (fun u v => ∃ w, E u v w) a b) : ∃ ws, GraphPath E a ws b := by
  induction h with
  | refl => exact ⟨[], GraphPath.nil a⟩
  | tail _ hstep ih =>
    obtain ⟨ws, hpath⟩ := ih
    obtain ⟨w, he⟩ := hstep
    exact ⟨_, hpath.snoc he⟩

theorem GraphPath.reflTransGen {ws : List Int64} (h : GraphPath E a ws b) :
    Relation.ReflTransGen (fun u v => ∃ w, E u v w) a b := by
  induction h with
  | nil a => exact .refl
  | cons he _ ih => exact .head ⟨_, he⟩ ih

end Paths

variable {s : Store} {t graph source target : Name} {directed : Bool}

/-- The weights of the stored edges. -/
def keyWeights (k : Key) : List Int64 :=
  match k.record with
  | .graphOut _ _ w _ _ => [w]
  | _ => []

def graphWeights (s : Store) : Finset Int64 := (s.written.flatMap keyWeights).toFinset

theorem StoredGraph.mem_graphWeights (h : StoredGraph s) {u v : Name} {w : Int64}
    (he : EdgeBetween s t graph directed u v w) : w ∈ graphWeights s := by
  have hmem : ∀ {e : EdgeId}, getEdgeWeight s t e = some w → w ∈ graphWeights s := by
    intro e hweight
    have hlive := (adjacent_iff.mp h.adjacent true t e w).mp hweight
    have hkey := s.covers _ hlive
    exact List.mem_toFinset.mpr (List.mem_flatMap.mpr ⟨_, hkey, List.mem_cons_self⟩)
  obtain ⟨etype, hweight | ⟨-, hweight⟩⟩ := he
  · exact hmem hweight
  · exact hmem hweight

theorem StoredGraph.widestEdges (h : StoredGraph s) (t graph : Name) (directed : Bool) :
    ∃ hops : Name → List (Name × Int64),
      (∀ u, Evidence.widestEdges s t graph directed u = .ok (hops u)) ∧
      ∀ u v w, (v, w) ∈ hops u ↔ EdgeBetween s t graph directed u v w := by
  choose edges hedges hmem using h.neighbors t graph directed Int64.minValue
  refine ⟨fun u => (edges u).map fun edge => (edge.1, edge.2.1), ?_, ?_⟩
  · intro u
    unfold Evidence.widestEdges
    rw [hedges u]
    rfl
  · intro u v w
    have hedge := hmem u v w
    rw [and_iff_right (Int64.minValue_le w)] at hedge
    rw [← hedge, List.mem_map]
    constructor
    · rintro ⟨⟨far, w', etype⟩, hin, heq⟩
      obtain ⟨rfl, rfl⟩ := Prod.mk.inj heq
      exact ⟨etype, hin⟩
    · rintro ⟨etype, hin⟩
      exact ⟨_, hin, rfl⟩

/-- With fuel enough, the search answers, with the width of the widest path or with none. -/
theorem StoredGraph.widestPath (h : StoredGraph s) (hne : source ≠ target) :
    ∃ enough, ∀ fuel ≥ enough, ∃ width : Option Int64,
      Evidence.widestPath s t graph source target directed fuel =
        some (.ok ⟨width.isSome, width⟩) ∧
      match width with
      | some w => ⊥ < w ∧ IsGreatest (Bottlenecks (EdgeBetween s t graph directed) source target) w
      | none => ∀ m ∈ Bottlenecks (EdgeBetween s t graph directed) source target, m = ⊥ := by
  obtain ⟨hops, hedges, hhops⟩ := h.widestEdges t graph directed
  have hbounded : Maximin.Bounded hops (insert source (graphNodes s))
      (insert ⊤ (graphWeights s)) := by
    constructor
    · intro u _ e he
      have hedge := (hhops u e.1 e.2).mp he
      exact Finset.mem_insert_of_mem hedge.mem_graphNodes
    · intro u _ e he
      have hedge := (hhops u e.1 e.2).mp he
      exact Finset.mem_insert_of_mem (h.mem_graphWeights hedge)
  refine ⟨Maximin.measure (insert source (graphNodes s)) (insert ⊤ (graphWeights s))
    (Maximin.start source) + 1, ?_⟩
  intro fuel hfuel
  obtain ⟨width, hrun, hwidest⟩ := @Maximin.search_start _ _ _ _ _ _ _ _ target _ _ _ hedges
    hbounded (Finset.mem_insert_self ..) (Finset.mem_insert_self ..) _ hfuel
  refine ⟨width, ?_, ?_⟩
  · unfold Evidence.widestPath
    rw [if_neg hne, hrun]
    rfl
  · cases width with
    | none =>
      intro m hm
      obtain ⟨path, hpath, rfl⟩ := (mem_bottlenecks_iff hhops hne).mp hm
      exact hwidest path hpath
    | some w =>
      have hset : {m | ∃ path, Maximin.IsPath hops source path target ∧ Maximin.bottleneck path =
          m} =
          Bottlenecks (EdgeBetween s t graph directed) source target := by
        ext m
        exact (mem_bottlenecks_iff hhops hne).symm
      rw [← hset]
      exact ⟨hwidest.1.resolve_left (Ne.symm hne), hwidest.2⟩

theorem exists_bottleneck {E : Name → Name → Int64 → Prop} (hne : source ≠ target) {ws : List Int64}
    (h : GraphPath E source ws target) :
    ∃ m ∈ Bottlenecks E source target, IsLeast {w | w ∈ ws} m := by
  have hnil : ws ≠ [] := by
    rintro rfl
    cases h
    exact hne rfl
  obtain ⟨m, hm⟩ : ∃ m, IsLeast {w | w ∈ ws} m := by
    have hpath := @bottleneck_isLeast (ws.map fun w => (source, w)) (by simpa using hnil)
    rw [List.map_map] at hpath
    have hid : ws.map (Prod.snd ∘ fun w => (source, w)) = ws := List.map_id ws
    rw [hid] at hpath
    exact ⟨_, hpath⟩
  exact ⟨m, ⟨ws, h, hm⟩, hm⟩

/-- The answer is right exactly when the target is not reachable, or reachable without an
edge of the least weight. -/
theorem widestPath_correct_iff (s : Store) (h : StoredGraph s) (t graph source target : Name)
    (directed : Bool) (hne : source ≠ target) :
    ∃ enough, ∀ fuel ≥ enough, ∃ r, widestPath s t graph source target directed fuel =
      some (.ok r) ∧
      (r.Correct s t graph source target directed ↔
        ((∃ ws, GraphPath (EdgeBetween s t graph directed) source ws target) →
          ∃ ws, GraphPath (EdgeBetween s t graph directed) source ws target ∧
            ∀ w ∈ ws, w ≠ Int64.minValue)) := by
  obtain ⟨enough, hrun⟩ := @StoredGraph.widestPath _ t graph _ _ directed h hne
  refine ⟨enough, fun fuel hfuel => ?_⟩
  obtain ⟨width, hresult, hwidth⟩ := hrun fuel hfuel
  refine ⟨_, hresult, ?_⟩
  have hpos : ∀ {ws : List Int64} {m : Int64}, IsLeast {w | w ∈ ws} m →
      (⊥ < m ↔ ∀ w ∈ ws, w ≠ Int64.minValue) := by
    intro ws m hm
    constructor
    · rintro hlt w hw rfl
      exact absurd (hlt.trans_le (hm.2 hw)) (lt_irrefl _)
    · intro hall
      exact bot_lt_iff_ne_bot.mpr (hall m hm.1)
  constructor
  · intro hcorrect hpath
    cases width with
    | none =>
      have hconnected := hcorrect.connected.mpr hpath
      cases hconnected
    | some w =>
      obtain ⟨hlt, ⟨ws, hws, hleast⟩, -⟩ := hwidth
      exact ⟨ws, hws, (hpos hleast).mp hlt⟩
  · intro hcond
    have hconnected : width.isSome = true ↔
        ∃ ws, GraphPath (EdgeBetween s t graph directed) source ws target := by
      constructor
      · intro hsome
        obtain ⟨w, rfl⟩ := Option.isSome_iff_exists.mp hsome
        obtain ⟨-, ⟨ws, hws, -⟩, -⟩ := hwidth
        exact ⟨ws, hws⟩
      · intro hpath
        obtain ⟨ws, hws, hall⟩ := hcond hpath
        obtain ⟨m, hm, hleast⟩ := exists_bottleneck hne hws
        cases width with
        | some w => rfl
        | none => exact absurd (hwidth m hm) ((hpos hleast).mpr hall).ne'
    refine ⟨hconnected, ?_, ?_⟩
    · intro hsome
      obtain ⟨w, rfl⟩ := Option.isSome_iff_exists.mp hsome
      exact ⟨w, rfl, hwidth.2⟩
    · obtain ⟨enough', hreach⟩ := h.reachable t graph [source] Int64.minValue directed
      refine ⟨enough', fun fuel' hfuel' choose => ?_⟩
      obtain ⟨nodes, hnodes, -, hmem⟩ := hreach fuel' hfuel' choose
      refine ⟨nodes, hnodes, ?_⟩
      have hhop : Hop s t graph directed Int64.minValue =
          fun u v => ∃ w, EdgeBetween s t graph directed u v w := by
        funext u v
        unfold Hop
        simp only [Int64.minValue_le, true_and]
      rw [hconnected, hmem, hhop]
      constructor
      · rintro ⟨ws, hws⟩
        exact ⟨source, List.mem_singleton_self source, hws.reflTransGen⟩
      · rintro ⟨seed, hseed, hsteps⟩
        obtain rfl := List.mem_singleton.mp hseed
        exact graphPath_of_reflTransGen hsteps

namespace OneEdge

theorem widestPath_correct_twoWays :
    letter 0x61 ≠ letter 0x62 ∧ ∃ enough, ∀ fuel ≥ enough, ∃ r,
      widestPath twoWays (letter 0x74) (letter 0x67) (letter 0x61) (letter 0x62) true fuel =
        some (.ok r) ∧
      (r.Correct twoWays (letter 0x74) (letter 0x67) (letter 0x61) (letter 0x62) true ↔
        ((∃ ws, GraphPath (EdgeBetween twoWays (letter 0x74) (letter 0x67) true)
            (letter 0x61) ws (letter 0x62)) →
          ∃ ws, GraphPath (EdgeBetween twoWays (letter 0x74) (letter 0x67) true)
              (letter 0x61) ws (letter 0x62) ∧ ∀ w ∈ ws, w ≠ Int64.minValue)) :=
  ⟨by decide, widestPath_correct_iff _ stored_twoWays _ _ _ _ _ (by decide)⟩

theorem edgeBetween_iff {weight w : Int64} {u v : Name} :
    EdgeBetween (store weight) (letter 0x74) (letter 0x67) true u v w ↔
      (u = letter 0x61 ∧ v = letter 0x62) ∧ weight = w := by
  unfold EdgeBetween
  simp only [(sets weight).weight]
  constructor
  · rintro ⟨etype, hweight | ⟨hfalse, -⟩⟩
    · split_ifs at hweight with he
      · have hid := EdgeId.mk.inj he.2
        exact ⟨⟨hid.2.1, hid.2.2.1⟩, Option.some.inj hweight⟩
      · cases hweight
    · cases hfalse
  · rintro ⟨⟨rfl, rfl⟩, rfl⟩
    exact ⟨letter 0x74, Or.inl (if_pos ⟨trivial, rfl⟩)⟩

/-- A node behind an edge of the least weight is not found. -/
theorem widestPath_misses_least : ∃ enough, ∀ fuel ≥ enough, ∃ r,
    widestPath (store Int64.minValue) (letter 0x74) (letter 0x67) (letter 0x61) (letter 0x62) true
        fuel = some (.ok r) ∧ r.connected = false ∧
      ¬ r.Correct (store Int64.minValue) (letter 0x74) (letter 0x67) (letter 0x61) (letter 0x62)
        true := by
  have hne : letter 0x61 ≠ letter 0x62 := by decide
  obtain ⟨enough, hrun⟩ := @StoredGraph.widestPath _ (letter 0x74)
    (letter 0x67) _ _ true (stored Int64.minValue) hne
  refine ⟨enough, fun fuel hfuel => ?_⟩
  obtain ⟨width, hresult, hwidth⟩ := hrun fuel hfuel
  refine ⟨_, hresult, ?_⟩
  cases width with
  | some w =>
    obtain ⟨hlt, ⟨ws, hws, hleast⟩, -⟩ := hwidth
    cases hws with
    | cons he _ =>
      obtain ⟨-, rfl⟩ := edgeBetween_iff.mp he
      exact absurd (hlt.trans_le (hleast.2 List.mem_cons_self)) (lt_irrefl _)
  | none =>
    refine ⟨rfl, fun hcorrect => ?_⟩
    have hconnected := hcorrect.connected.mpr
      ⟨_, GraphPath.cons (edgeBetween_iff.mpr ⟨⟨rfl, rfl⟩, rfl⟩) (GraphPath.nil _)⟩
    cases hconnected

end OneEdge

end BlueDB.Evidence
