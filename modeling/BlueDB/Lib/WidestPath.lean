import Mathlib.Tactic

/-!
# Widest paths

A search from the widest node on settles the nodes in falling width. The least value of the
order stands for the nodes that are not known yet, so that it finds the widest path unless
every path has an edge of the least value.
-/

namespace BlueDB.Maximin

variable {N K ε : Type*} [LinearOrder N] [LinearOrder K] [BoundedOrder K]

/-- The hops of a path, each with the weight of its edge. -/
def IsPath (hops : N → List (N × K)) : N → List (N × K) → N → Prop
  | a, [], b => a = b
  | a, e :: path, b => e ∈ hops a ∧ IsPath hops e.1 path b

/-- The least weight of a path. -/
def bottleneck (path : List (N × K)) : K := path.foldr (fun e width => min e.2 width) ⊤

/-- The greatest element, and what is left without it. -/
def popMax {α : Type*} [LinearOrder α] (heap : List α) : Option (α × List α) :=
  heap.max?.map fun top => (top, heap.erase top)

/-- The best known widths, and the nodes to settle with the width they were found with. -/
structure State (N K : Type*) where
  best : N → Option K
  heap : List (K ×ₗ N)

/-- An edge out of a node that is reached with the width `bw`. -/
def relax (bw : K) (st : State N K) (edge : N × K) : State N K :=
  let nb := min bw edge.2
  if (st.best edge.1).getD ⊥ < nb then
    ⟨Function.update st.best edge.1 (some nb), toLex (nb, edge.1) :: st.heap⟩
  else st

/-- The width of the target, once it is settled. -/
def search (edges : N → Except ε (List (N × K))) (target : N) :
    ℕ → State N K → Option (Except ε (Option K))
  | 0, _ => none
  | fuel + 1, st => match popMax st.heap with
    | none => some (.ok none)
    | some (top, heap) =>
      let (bw, u) := ofLex top
      -- an entry from before the node was found wider
      if st.best u ≠ some bw then search edges target fuel ⟨st.best, heap⟩
      else if u = target then some (.ok (some bw))
      else match edges u with
        | .error e => some (.error e)
        | .ok es => search edges target fuel (es.foldl (relax bw) ⟨st.best, heap⟩)

/-- The source is wider than any edge. -/
def start (source : N) : State N K :=
  ⟨Function.update (fun _ => none) source (some ⊤), [toLex (⊤, source)]⟩

section Heap

variable {α : Type*} [LinearOrder α] {heap rest : List α} {top : α}

/-- What is popped is the greatest element, and the others stay. -/
structure Popped (heap : List α) (top : α) (rest : List α) : Prop where
  mem : top ∈ heap
  le : ∀ x ∈ heap, x ≤ top
  others : ∀ x ∈ heap, x ≠ top → x ∈ rest
  length : rest.length + 1 = heap.length

theorem popMax_eq_some (h : popMax heap = some (top, rest)) : Popped heap top rest := by
  obtain ⟨m, hm, heq⟩ := Option.map_eq_some_iff.mp h
  obtain ⟨rfl, rfl⟩ := Prod.mk.inj heq
  obtain ⟨hmem, hle⟩ := List.max?_eq_some_iff.mp hm
  refine ⟨hmem, hle, fun x hx hne => (List.mem_erase_of_ne hne).mpr hx, ?_⟩
  have hpos := List.length_pos_of_mem hmem
  rw [List.length_erase_of_mem hmem]
  omega

theorem popMax_eq_none (h : popMax heap = none) : heap = [] :=
  List.max?_eq_none_iff.mp (Option.map_eq_none_iff.mp h)

end Heap

section Paths

variable {hops : N → List (N × K)} {a b : N} {path : List (N × K)} {e : N × K}

omit [LinearOrder N] [LinearOrder K] [BoundedOrder K] in
theorem IsPath.snoc (h : IsPath hops a path b) (he : e ∈ hops b) :
    IsPath hops a (path ++ [e]) e.1 := by
  induction path generalizing a with
  | nil =>
    obtain rfl : a = b := h
    exact ⟨he, rfl⟩
  | cons e' path ih => exact ⟨h.1, ih h.2⟩

omit [LinearOrder N] in
theorem bottleneck_snoc : bottleneck (path ++ [e]) = min (bottleneck path) e.2 := by
  unfold bottleneck
  induction path with
  | nil => simp
  | cons e' path ih =>
    rw [List.cons_append, List.foldr_cons, List.foldr_cons, ih, min_assoc]

end Paths

section Relax

variable {hops : N → List (N × K)} {bw : K} {st : State N K} {e : N × K} {es : List (N × K)}

/-- What relaxing edges does to the widths and the heap. -/
structure Relaxed (bw : K) (es : List (N × K)) (st st' : State N K) : Prop where
  grows : ∀ v, (st.best v).getD ⊥ ≤ (st'.best v).getD ⊥
  kept : ∀ v b, st.best v = some b → ∃ b', st'.best v = some b'
  reached : ∀ e ∈ es, min bw e.2 ≤ (st'.best e.1).getD ⊥
  heap : ∀ x ∈ st.heap, x ∈ st'.heap
  new : ∀ v b, st'.best v = some b → st.best v = some b ∨
    toLex (b, v) ∈ st'.heap ∧ ⊥ < b ∧ ∃ e ∈ es, v = e.1 ∧ b = min bw e.2

section Wider

variable (h : (st.best e.1).getD ⊥ < min bw e.2)
include h

theorem relax_best_self : (relax bw st e).best e.1 = some (min bw e.2) := by
  unfold relax
  rw [if_pos h]
  exact Function.update_self ..

theorem relax_best_of_ne {v : N} (hv : v ≠ e.1) : (relax bw st e).best v = st.best v := by
  unfold relax
  rw [if_pos h]
  exact Function.update_of_ne hv ..

theorem relax_heap : (relax bw st e).heap = toLex (min bw e.2, e.1) :: st.heap := by
  unfold relax
  rw [if_pos h]

end Wider

theorem relax_neg (h : ¬ (st.best e.1).getD ⊥ < min bw e.2) : relax bw st e = st := if_neg h

theorem relax_relaxed (bw : K) (st : State N K) (e : N × K) :
    Relaxed bw [e] st (relax bw st e) := by
  by_cases h : (st.best e.1).getD ⊥ < min bw e.2
  · refine ⟨?_, ?_, ?_, ?_, ?_⟩
    · intro v
      by_cases hv : v = e.1
      · subst hv
        rw [relax_best_self h]
        exact h.le
      · rw [relax_best_of_ne h hv]
    · intro v b hb
      by_cases hv : v = e.1
      · subst hv
        exact ⟨_, relax_best_self h⟩
      · exact ⟨b, (relax_best_of_ne h hv).trans hb⟩
    · intro e' he'
      obtain rfl := List.mem_singleton.mp he'
      rw [relax_best_self h]
      exact le_refl _
    · intro x hx
      rw [relax_heap h]
      exact List.mem_cons_of_mem _ hx
    · intro v b hb
      by_cases hv : v = e.1
      · subst hv
        rw [relax_best_self h] at hb
        obtain rfl := Option.some.inj hb
        refine Or.inr ⟨?_, bot_le.trans_lt h, e, List.mem_singleton_self e, rfl, rfl⟩
        rw [relax_heap h]
        exact List.mem_cons_self
      · rw [relax_best_of_ne h hv] at hb
        exact Or.inl hb
  · rw [relax_neg h]
    refine ⟨fun _ => le_refl _, fun v b hb => ⟨b, hb⟩, ?_, fun _ hx => hx, fun _ _ hb => Or.inl hb⟩
    intro e' he'
    obtain rfl := List.mem_singleton.mp he'
    exact not_lt.mp h

omit [LinearOrder N] in
theorem Relaxed.cons {st' st'' : State N K} (h : Relaxed bw [e] st st')
    (h' : Relaxed bw es st' st'') : Relaxed bw (e :: es) st st'' where
  grows v := (h.grows v).trans (h'.grows v)
  kept v b hb := by
    obtain ⟨b', hb'⟩ := h.kept v b hb
    exact h'.kept v b' hb'
  reached e' he' := by
    rcases List.mem_cons.mp he' with rfl | he'
    · exact (h.reached e' (List.mem_singleton_self e')).trans (h'.grows e'.1)
    · exact h'.reached e' he'
  heap x hx := h'.heap x (h.heap x hx)
  new v b hb := by
    rcases h'.new v b hb with hb | ⟨hmem, hpos, e', he', heq⟩
    · rcases h.new v b hb with hb | ⟨hmem, hpos, e', he', heq⟩
      · exact Or.inl hb
      · obtain rfl := List.mem_singleton.mp he'
        exact Or.inr ⟨h'.heap _ hmem, hpos, e', List.mem_cons_self, heq⟩
    · exact Or.inr ⟨hmem, hpos, e', List.mem_cons_of_mem _ he', heq⟩

theorem foldl_relax_relaxed (bw : K) (es : List (N × K)) (st : State N K) :
    Relaxed bw es st (es.foldl (relax bw) st) := by
  induction es generalizing st with
  | nil =>
    exact ⟨fun _ => le_refl _, fun v b hb => ⟨b, hb⟩, fun _ he => absurd he List.not_mem_nil,
      fun _ hx => hx, fun _ _ hb => Or.inl hb⟩
  | cons e es ih => exact (relax_relaxed bw st e).cons (ih _)

end Relax

section Settling

variable {hops : N → List (N × K)} {source target : N} {st : State N K} {bw : K} {u : N}
  {heap : List (K ×ₗ N)}

/-- A known width is that of a path. A node is in the heap with its width, or it is settled:
what its edges give is known. -/
structure Settling (hops : N → List (N × K)) (source target : N) (st : State N K) : Prop where
  widest : st.best source = some ⊤
  sound : ∀ v b, st.best v = some b → ∃ path, IsPath hops source path v ∧ bottleneck path = b
  wide : ∀ v b, st.best v = some b → v = source ∨ ⊥ < b
  settled : ∀ v b, st.best v = some b → toLex (b, v) ∈ st.heap ∨
    v ≠ target ∧ ∀ e ∈ hops v, min b e.2 ≤ (st.best e.1).getD ⊥

theorem start_best_self (source : N) :
    (start source : State N K).best source = some ⊤ := by
  change Function.update (fun _ => none) source (some ⊤) source = _
  rw [Function.update_self]

theorem start_best_of_ne {v : N} (hv : v ≠ source) : (start source : State N K).best v = none := by
  change Function.update (fun _ => none) source (some ⊤) v = _
  rw [Function.update_of_ne hv]

theorem Settling.start (hops : N → List (N × K)) (source target : N) :
    Settling hops source target (start source) := by
  have hbest : ∀ v b, (Maximin.start source : State N K).best v = some b → v = source ∧ b = ⊤ := by
    intro v b hb
    by_cases hv : v = source
    · subst hv
      exact ⟨rfl, Option.some.inj (hb.symm.trans (start_best_self v))⟩
    · rw [start_best_of_ne hv] at hb
      cases hb
  refine ⟨start_best_self source, ?_, ?_, ?_⟩
  · intro v b hb
    obtain ⟨rfl, rfl⟩ := hbest v b hb
    exact ⟨[], rfl, rfl⟩
  · intro v b hb
    exact Or.inl (hbest v b hb).1
  · intro v b hb
    obtain ⟨rfl, rfl⟩ := hbest v b hb
    exact Or.inl List.mem_cons_self

/-- An entry from before its node was found wider is left out. -/
theorem Settling.stale (h : Settling hops source target st)
    (hpop : popMax st.heap = some (toLex (bw, u), heap)) (hbest : st.best u ≠ some bw) :
    Settling hops source target ⟨st.best, heap⟩ := by
  refine ⟨h.widest, h.sound, h.wide, ?_⟩
  intro v b hb
  rcases h.settled v b hb with hmem | hsettled
  · left
    refine (popMax_eq_some hpop).others _ hmem fun heq => ?_
    obtain ⟨rfl, rfl⟩ := Prod.mk.inj (toLex.injective heq)
    exact hbest hb
  · exact Or.inr hsettled

theorem Settling.settle (h : Settling hops source target st)
    (hpop : popMax st.heap = some (toLex (bw, u), heap)) (hbest : st.best u = some bw)
    (hne : u ≠ target) :
    Settling hops source target ((hops u).foldl (relax bw) ⟨st.best, heap⟩) := by
  have hrelaxed := foldl_relax_relaxed bw (hops u) ⟨st.best, heap⟩
  refine ⟨?_, ?_, ?_, ?_⟩
  · obtain ⟨b, hb⟩ := hrelaxed.kept source ⊤ h.widest
    have hgrows := hrelaxed.grows source
    dsimp only at hgrows
    rw [hb, h.widest] at hgrows
    rw [hb]
    exact congrArg some (top_le_iff.mp hgrows)
  · intro v b hb
    rcases hrelaxed.new v b hb with hb | ⟨-, -, e, he, rfl, rfl⟩
    · exact h.sound v b hb
    · obtain ⟨path, hpath, hwidth⟩ := h.sound u bw hbest
      refine ⟨path ++ [e], hpath.snoc he, ?_⟩
      rw [bottleneck_snoc, hwidth]
  · intro v b hb
    rcases hrelaxed.new v b hb with hb | ⟨-, hpos, -⟩
    · exact h.wide v b hb
    · exact Or.inr hpos
  · intro v b hb
    rcases hrelaxed.new v b hb with hb | ⟨hmem, -⟩
    · rcases h.settled v b hb with hmem | ⟨hv, hedges⟩
      · by_cases heq : toLex (b, v) = toLex (bw, u)
        · obtain ⟨rfl, rfl⟩ := Prod.mk.inj (toLex.injective heq)
          exact Or.inr ⟨hne, hrelaxed.reached⟩
        · exact Or.inl (hrelaxed.heap _ ((popMax_eq_some hpop).others _ hmem heq))
      · exact Or.inr ⟨hv, fun e he => (hedges e he).trans (hrelaxed.grows e.1)⟩
    · exact Or.inl hmem

omit [LinearOrder N] in
theorem Settling.along (h : Settling hops source target st) {width : K} (hpos : ⊥ < width)
    {path : List (N × K)} {a : N} {b : K} (hb : st.best a = some b) (hle : width ≤ b)
    (hpath : IsPath hops a path target) (hwidth : width ≤ bottleneck path) :
    ∃ x ∈ st.heap, width ≤ (ofLex x).1 := by
  induction path generalizing a b with
  | nil =>
    obtain rfl : a = target := hpath
    rcases h.settled a b hb with hmem | ⟨hne, -⟩
    · exact ⟨_, hmem, hle⟩
    · exact absurd rfl hne
  | cons e path ih =>
    rcases h.settled a b hb with hmem | ⟨-, hedges⟩
    · exact ⟨_, hmem, hle⟩
    · have hmin : width ≤ min e.2 (bottleneck path) := hwidth
      have hreach := (le_min hle (hmin.trans (min_le_left _ _))).trans (hedges e hpath.1)
      cases hnext : st.best e.1 with
      | none =>
        rw [hnext] at hreach
        exact absurd hreach (not_le.mpr hpos)
      | some b' =>
        rw [hnext] at hreach
        exact ih hnext hreach hpath.2 (hmin.trans (min_le_right _ _))

omit [LinearOrder N] in
theorem Settling.exists_entry (h : Settling hops source target st) {path : List (N × K)}
    (hpath : IsPath hops source path target) (hpos : ⊥ < bottleneck path) :
    ∃ x ∈ st.heap, bottleneck path ≤ (ofLex x).1 := by
  exact h.along hpos h.widest le_top hpath (le_refl _)

end Settling

section Measure

variable {hops : N → List (N × K)} {source target : N} {st : State N K} {bw : K} {u : N}
  {heap : List (K ×ₗ N)} {nodes : Finset N} {widths : Finset K}

/-- The nodes and the widths that a search can meet. -/
structure Bounded (hops : N → List (N × K)) (nodes : Finset N) (widths : Finset K) : Prop where
  node : ∀ u ∈ nodes, ∀ e ∈ hops u, e.1 ∈ nodes
  width : ∀ u ∈ nodes, ∀ e ∈ hops u, e.2 ∈ widths

/-- The widths that a node may still be found with. -/
def wider (widths : Finset K) (known : Option K) : Finset K :=
  widths.filter fun w => known.all fun b => decide (b < w)

def remaining (nodes : Finset N) (widths : Finset K) (best : N → Option K) : ℕ :=
  ∑ v ∈ nodes, (wider widths (best v)).card

/-- Each step takes an entry from the heap, and each entry that is added takes a width from
those a node may still be found with. -/
def measure (nodes : Finset N) (widths : Finset K) (st : State N K) : ℕ :=
  st.heap.length + remaining nodes widths st.best

def Known (nodes : Finset N) (widths : Finset K) (st : State N K) : Prop :=
  ∀ v b, st.best v = some b → v ∈ nodes ∧ b ∈ widths

omit [LinearOrder N] in
theorem wider_lt {known : Option K} {b : K} (hb : b ∈ widths) (hlt : known.getD ⊥ < b) :
    (wider widths (some b)).card < (wider widths known).card := by
  have hall : known.all (fun c => decide (c < b)) = true := by
    cases known with
    | none => rfl
    | some c => exact decide_eq_true hlt
  apply Finset.card_lt_card
  refine Finset.ssubset_iff_subset_ne.mpr ⟨?_, fun heq => ?_⟩
  · intro w hw
    obtain ⟨hmem, hw⟩ := Finset.mem_filter.mp hw
    refine Finset.mem_filter.mpr ⟨hmem, ?_⟩
    have hbw : b < w := of_decide_eq_true hw
    cases known with
    | none => rfl
    | some c => exact decide_eq_true (lt_trans hlt hbw)
  · have hin : b ∈ wider widths known := Finset.mem_filter.mpr ⟨hb, hall⟩
    rw [← heq] at hin
    have hself : b < b := of_decide_eq_true (Finset.mem_filter.mp hin).2
    exact lt_irrefl b hself

theorem relax_measure {e : N × K} (hnode : e.1 ∈ nodes) (hwidth : min bw e.2 ∈ widths) :
    measure nodes widths (relax bw st e) ≤ measure nodes widths st := by
  by_cases h : (st.best e.1).getD ⊥ < min bw e.2
  · have hsum : remaining nodes widths (relax bw st e).best < remaining nodes widths st.best := by
      apply Finset.sum_lt_sum
      · intro v _
        by_cases hv : v = e.1
        · subst hv
          rw [relax_best_self h]
          exact (wider_lt hwidth h).le
        · rw [relax_best_of_ne h hv]
      · refine ⟨e.1, hnode, ?_⟩
        rw [relax_best_self h]
        exact wider_lt hwidth h
    unfold measure
    rw [relax_heap h, List.length_cons]
    omega
  · rw [relax_neg h]

theorem relax_known {e : N × K} (hnode : e.1 ∈ nodes) (hwidth : min bw e.2 ∈ widths)
    (h : Known nodes widths st) : Known nodes widths (relax bw st e) := by
  intro v b hb
  rcases (relax_relaxed bw st e).new v b hb with hb | ⟨-, -, e', he', rfl, rfl⟩
  · exact h v b hb
  · obtain rfl := List.mem_singleton.mp he'
    exact ⟨hnode, hwidth⟩

omit [BoundedOrder K] in
theorem min_mem {a b : K} (ha : a ∈ widths) (hb : b ∈ widths) : min a b ∈ widths := by
  rcases min_choice a b with h | h
  · rwa [h]
  · rwa [h]

theorem foldl_relax_measure {es : List (N × K)} (hbw : bw ∈ widths)
    (hnode : ∀ e ∈ es, e.1 ∈ nodes) (hwidth : ∀ e ∈ es, e.2 ∈ widths)
    (h : Known nodes widths st) : measure nodes widths (es.foldl (relax bw) st) ≤
      measure nodes widths st ∧ Known nodes widths (es.foldl (relax bw) st) := by
  induction es generalizing st with
  | nil => exact ⟨le_refl _, h⟩
  | cons e es ih =>
    have he := hnode e List.mem_cons_self
    have hw := min_mem hbw (hwidth e List.mem_cons_self)
    obtain ⟨hle, hknown⟩ := ih (fun e' h' => hnode e' (List.mem_cons_of_mem _ h'))
      (fun e' h' => hwidth e' (List.mem_cons_of_mem _ h')) (relax_known he hw h)
    exact ⟨hle.trans (relax_measure he hw), hknown⟩

/-- The width of the target is the greatest of those of its paths, and no width means that
every path has an edge of the least weight. -/
def Widest (hops : N → List (N × K)) (source target : N) : Option K → Prop
  | some width => (target = source ∨ ⊥ < width) ∧
      IsGreatest {w | ∃ path, IsPath hops source path target ∧ bottleneck path = w} width
  | none => ∀ path, IsPath hops source path target → bottleneck path = ⊥

theorem Settling.search {edges : N → Except ε (List (N × K))} (hedges : ∀ u, edges u = .ok (hops u))
    (hbounded : Bounded hops nodes widths) {fuel : ℕ} (h : Settling hops source target st)
    (hknown : Known nodes widths st) (hfuel : measure nodes widths st < fuel) :
    ∃ width, Maximin.search edges target fuel st = some (.ok width) ∧
      Widest hops source target width := by
  induction fuel generalizing st with
  | zero => omega
  | succ fuel ih =>
    unfold Maximin.search
    cases hpop : popMax st.heap with
    | none =>
      refine ⟨none, rfl, ?_⟩
      intro path hpath
      by_contra hne
      obtain ⟨x, hx, -⟩ := h.exists_entry hpath (bot_lt_iff_ne_bot.mpr hne)
      rw [popMax_eq_none hpop] at hx
      exact List.not_mem_nil hx
    | some popped =>
      obtain ⟨top, heap⟩ := popped
      obtain ⟨bw, u⟩ := top
      have hpopped := popMax_eq_some hpop
      have hless : measure nodes widths ⟨st.best, heap⟩ + 1 = measure nodes widths st := by
        have hlength := hpopped.length
        unfold measure
        dsimp only
        omega
      change ∃ width, (if st.best u ≠ some bw then Maximin.search edges target fuel ⟨st.best, heap⟩
        else if u = target then some (.ok (some bw))
        else match edges u with
          | .error e => some (.error e)
          | .ok es => Maximin.search edges target fuel (es.foldl (relax bw) ⟨st.best, heap⟩)) =
        some (.ok width) ∧ Widest hops source target width
      by_cases hbest : st.best u = some bw
      · rw [if_neg (not_not.mpr hbest)]
        by_cases htarget : u = target
        · subst htarget
          refine ⟨some bw, if_pos rfl, h.wide u bw hbest, h.sound u bw hbest, ?_⟩
          rintro w ⟨path, hpath, rfl⟩
          by_cases hpos : bottleneck path = ⊥
          · rw [hpos]
            exact bot_le
          · obtain ⟨x, hx, hle⟩ := h.exists_entry hpath (bot_lt_iff_ne_bot.mpr hpos)
            exact hle.trans (Prod.Lex.monotone_fst_ofLex (hpopped.le x hx))
        · rw [if_neg htarget, hedges u]
          obtain ⟨hu, hbw⟩ := hknown u bw hbest
          obtain ⟨hle, hnext⟩ := @foldl_relax_measure _ _ _ _ _ ⟨st.best, heap⟩ _ _ _ _ hbw
            (hbounded.node u hu) (hbounded.width u hu) hknown
          exact ih (h.settle hpop hbest htarget) hnext (by omega)
      · rw [if_pos hbest]
        exact ih (h.stale hpop hbest) hknown (by omega)

theorem search_start {edges : N → Except ε (List (N × K))} (hedges : ∀ u, edges u = .ok (hops u))
    (hbounded : Bounded hops nodes widths) (hsource : source ∈ nodes) (htop : ⊤ ∈ widths) {fuel : ℕ}
    (hfuel : measure nodes widths (start source) < fuel) :
    ∃ width, Maximin.search edges target fuel (start source) = some (.ok width) ∧
      Widest hops source target width := by
  refine (Settling.start hops source target).search hedges hbounded ?_ hfuel
  intro v b hb
  by_cases hv : v = source
  · subst hv
    obtain rfl := Option.some.inj ((start_best_self v).symm.trans hb)
    exact ⟨hsource, htop⟩
  · rw [start_best_of_ne hv] at hb
    cases hb

end Measure

end BlueDB.Maximin
