import Mathlib.Tactic

/-!
# Chains of joins

A chain of joins extends the rows of its first table by one record after the other. A
condition on the first records of a row can be tested at any join from there on: a join
that keeps rows without a match extends them and does not change what they have.
-/

namespace BlueDB.JoinChain

variable {R : Type*}

/-- A table that is joined, as a LEFT join when it is `outer`. -/
structure Link (R : Type*) where
  outer : Bool
  records : List R
  blank : R
  on : List R → Bool

namespace Link

/-- The rows that a row is extended to. -/
def extend (l : Link R) (row : List R) : List (List R) :=
  let matched := (l.records.map fun r => row ++ [r]).filter l.on
  if l.outer && matched.isEmpty then [row ++ [l.blank]] else matched

/-- A further condition on the matches. -/
def restrict (l : Link R) (q : List R → Bool) : Link R :=
  { l with on := fun row => l.on row && q row }

end Link

def run (links : List (Link R)) (rows : List (List R)) : List (List R) :=
  links.foldl (fun rows l => rows.flatMap l.extend) rows

/-- The condition depends on the first `n` records. -/
def Reads (n : ℕ) (q : List R → Bool) : Prop := ∀ row rest, n ≤ row.length → q (row ++ rest) = q row

variable {l : Link R} {links : List (Link R)} {q : List R → Bool} {n : ℕ} {row : List R}
  {rows : List (List R)}

theorem Link.mem_extend {row' : List R} (h : row' ∈ l.extend row) : ∃ r, row' = row ++ [r] := by
  unfold extend at h
  dsimp only at h
  split_ifs at h
  · exact ⟨l.blank, List.mem_singleton.mp h⟩
  · obtain ⟨r, -, rfl⟩ := List.mem_map.mp (List.mem_filter.mp h).1
    exact ⟨r, rfl⟩

theorem length_of_mem_flatMap_extend {k : ℕ} (h : ∀ row ∈ rows, row.length = k) :
    ∀ row ∈ rows.flatMap l.extend, row.length = k + 1 := by
  intro row' hrow'
  obtain ⟨row, hrow, hmem⟩ := List.mem_flatMap.mp hrow'
  obtain ⟨r, rfl⟩ := Link.mem_extend hmem
  rw [List.length_append, List.length_singleton, h row hrow]

/-- A condition on what a row has already holds of all its extensions or of none. -/
theorem filter_extend (hq : Reads n q) (h : n ≤ row.length) :
    (l.extend row).filter q = if q row then l.extend row else [] := by
  have hsame : ∀ row' ∈ l.extend row, q row' = q row := by
    intro row' hrow'
    obtain ⟨r, rfl⟩ := Link.mem_extend hrow'
    exact hq row [r] h
  split_ifs with hrow
  · apply List.filter_eq_self.mpr
    intro row' hrow'
    rw [hsame row' hrow', hrow]
  · apply List.filter_eq_nil_iff.mpr
    intro row' hrow'
    rw [hsame row' hrow']
    exact hrow

theorem filter_flatMap_extend (hq : Reads n q) (h : ∀ row ∈ rows, n ≤ row.length) :
    (rows.flatMap l.extend).filter q = (rows.filter q).flatMap l.extend := by
  induction rows with
  | nil => rfl
  | cons row rows ih =>
    obtain ⟨hrow, hrows⟩ := List.forall_mem_cons.mp h
    rw [List.flatMap_cons, List.filter_append, ih hrows, filter_extend hq hrow, List.filter_cons]
    split_ifs
    · rw [List.flatMap_cons]
    · rfl

/-- A condition on the first records can be tested before the joins that follow. -/
theorem filter_run (hq : Reads n q) (h : ∀ row ∈ rows, n ≤ row.length) :
    (run links rows).filter q = run links (rows.filter q) := by
  induction links generalizing rows with
  | nil => rfl
  | cons l links ih =>
    have hlonger : ∀ row ∈ rows.flatMap l.extend, n ≤ row.length := by
      intro row' hrow'
      obtain ⟨row, hrow, hmem⟩ := List.mem_flatMap.mp hrow'
      obtain ⟨r, rfl⟩ := Link.mem_extend hmem
      rw [List.length_append]
      exact (h row hrow).trans (Nat.le_add_right _ _)
    have hstep := ih hlonger
    rw [filter_flatMap_extend hq h] at hstep
    exact hstep

theorem extend_restrict (h : l.outer = true → q = fun _ => true) :
    (l.restrict q).extend row = (l.extend row).filter q := by
  by_cases houter : l.outer = true
  · obtain rfl := h houter
    have hsame : (l.restrict fun _ => true) = l := by
      unfold Link.restrict
      simp only [Bool.and_true]
    rw [hsame, List.filter_eq_self.mpr fun _ _ => rfl]
  · rw [Bool.not_eq_true] at houter
    unfold Link.extend Link.restrict
    simp only [houter, Bool.false_and, Bool.false_eq_true, if_false, List.filter_filter]
    congr 1
    funext row'
    exact Bool.and_comm _ _

/-- Every condition reads the records up to its join, and is of an INNER join. -/
def Placed : ℕ → List (Link R × (List R → Bool)) → Prop
  | _, [] => True
  | k, p :: ps => Reads (k + 1) p.2 ∧ (p.1.outer = true → p.2 = fun _ => true) ∧ Placed (k + 1) ps

theorem run_restrict {ps : List (Link R × (List R → Bool))} {k : ℕ} (hps : Placed k ps)
    (h : ∀ row ∈ rows, row.length = k) :
    run (ps.map fun p => p.1.restrict p.2) rows =
      (run (ps.map Prod.fst) rows).filter fun row => ps.all fun p => p.2 row := by
  induction ps generalizing k rows with
  | nil => exact (List.filter_eq_self.mpr fun _ _ => rfl).symm
  | cons p ps ih =>
    obtain ⟨hreads, hinner, hrest⟩ := hps
    have hlength := length_of_mem_flatMap_extend (l := p.1) h
    have hfiltered : ∀ row ∈ (rows.flatMap p.1.extend).filter p.2, row.length = k + 1 :=
      fun row hrow => hlength row (List.mem_filter.mp hrow).1
    have hjoin : rows.flatMap (p.1.restrict p.2).extend = (rows.flatMap p.1.extend).filter p.2 := by
      rw [List.filter_flatMap]
      exact List.flatMap_congr fun _ _ => extend_restrict hinner
    calc run ((p :: ps).map fun p => p.1.restrict p.2) rows
        = run (ps.map fun p => p.1.restrict p.2) ((rows.flatMap p.1.extend).filter p.2) :=
          congrArg (run (ps.map fun p => p.1.restrict p.2)) hjoin
      _ = (run (ps.map Prod.fst) ((rows.flatMap p.1.extend).filter p.2)).filter
            fun row => ps.all fun p => p.2 row := ih hrest hfiltered
      _ = ((run (ps.map Prod.fst) (rows.flatMap p.1.extend)).filter p.2).filter
            fun row => ps.all fun p => p.2 row := by
          rw [filter_run hreads fun row hrow => (hlength row hrow).ge]
      _ = (run ((p :: ps).map Prod.fst) rows).filter fun row => (p :: ps).all fun p => p.2 row := by
          rw [List.filter_filter]
          simp only [List.all_cons, Bool.and_comm]
          rfl

end BlueDB.JoinChain
