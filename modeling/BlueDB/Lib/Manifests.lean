import BlueDB.Lib.MergeOnRead

/-!
# Merge-on-read tables with compaction

The files of a table carry the number of the commit that added them. A compaction
reads some of the data files with the deletes applied, and writes what stays under a
new number in their place. The rows of the table stay the same, except for their
order.
-/

namespace BlueDB.MergeOnRead

variable {ρ κ K : Type*}

/-- Data and delete files under the numbers of their commits. -/
structure Files (ρ : Type*) where
  data : List (ℕ × List ρ)
  deletes : List (ℕ × (ρ → Bool))

/-- A delete with a number above `m` has the row. -/
def hidden (deletes : List (ℕ × (ρ → Bool))) (m : ℕ) (r : ρ) : Bool :=
  deletes.any fun d => decide (m < d.1) && d.2 r

/-- The rows of some data files under the deletes. -/
def rowsOf (deletes : List (ℕ × (ρ → Bool))) (data : List (ℕ × List ρ)) : List ρ :=
  data.flatMap fun d => d.2.filter fun r => !hidden deletes d.1 r

def Files.rows (f : Files ρ) : List ρ := rowsOf f.deletes f.data

/-- No number is above `n`. -/
structure Files.Below (f : Files ρ) (n : ℕ) : Prop where
  data : ∀ d ∈ f.data, d.1 ≤ n
  deletes : ∀ d ∈ f.deletes, d.1 ≤ n

variable {f : Files ρ} {deletes : List (ℕ × (ρ → Bool))} {m n : ℕ}

theorem hidden_eq_false (h : ∀ d ∈ deletes, d.1 ≤ m) (r : ρ) : hidden deletes m r = false := by
  unfold hidden
  rw [List.any_eq_false]
  intro d hd
  have hle := h d hd
  simp [Nat.not_lt.mpr hle]

theorem hidden_append (deletes deletes' : List (ℕ × (ρ → Bool))) (m : ℕ) (r : ρ) :
    hidden (deletes ++ deletes') m r = (hidden deletes m r || hidden deletes' m r) :=
  List.any_append

theorem rowsOf_append (data data' : List (ℕ × List ρ)) :
    rowsOf deletes (data ++ data') = rowsOf deletes data ++ rowsOf deletes data' :=
  List.flatMap_append

theorem rowsOf_perm {data data' : List (ℕ × List ρ)} (h : data.Perm data') :
    (rowsOf deletes data).Perm (rowsOf deletes data') :=
  h.flatMap_right _

theorem rowsOf_fresh {data : List (ℕ × List ρ)} (h : ∀ d ∈ deletes, d.1 ≤ n)
    (hdata : ∀ d ∈ data, d.1 = n) : rowsOf deletes data = data.flatMap Prod.snd := by
  unfold rowsOf
  apply List.flatMap_congr
  intro d hd
  apply List.filter_eq_self.mpr
  intro r _
  rw [hdata d hd, hidden_eq_false h]
  rfl

theorem rowsOf_deletes {gone : List (ℕ × (ρ → Bool))} (h : ∀ d ∈ f.data, d.1 < n)
    (hgone : ∀ d ∈ gone, d.1 = n) :
    rowsOf (f.deletes ++ gone) f.data = f.rows.filter fun r => !gone.any fun d => d.2 r := by
  unfold Files.rows rowsOf
  rw [List.filter_flatMap]
  apply List.flatMap_congr
  intro d hd
  rw [List.filter_filter]
  apply List.filter_congr
  intro r _
  have hlater : hidden gone d.1 r = gone.any fun d => d.2 r := by
    unfold hidden
    rw [Bool.eq_iff_iff, List.any_eq_true, List.any_eq_true]
    refine exists_congr fun d' => and_congr_right fun hd' => ?_
    simp [hgone d' hd', h d hd]
  rw [hidden_append, hlater, Bool.not_or, Bool.and_comm]

theorem rows_commit {added : List (ℕ × List ρ)} {gone : List (ℕ × (ρ → Bool))} (h : f.Below m)
    (hn : m < n) (hadded : ∀ d ∈ added, d.1 = n) (hgone : ∀ d ∈ gone, d.1 = n) :
    (⟨f.data ++ added, f.deletes ++ gone⟩ : Files ρ).rows =
      f.rows.filter (fun r => !gone.any fun d => d.2 r) ++ added.flatMap Prod.snd := by
  have hdata : ∀ d ∈ f.data, d.1 < n := fun d hd => lt_of_le_of_lt (h.data d hd) hn
  have hdeletes : ∀ d ∈ f.deletes ++ gone, d.1 ≤ n := by
    intro d hd
    rcases List.mem_append.mp hd with hd | hd
    · exact (h.deletes d hd).trans hn.le
    · exact (hgone d hd).le
  change rowsOf _ (f.data ++ added) = _
  rw [rowsOf_append, rowsOf_deletes hdata hgone, rowsOf_fresh hdeletes hadded]

/-- The rows of some data files are written again under a new number. -/
theorem rows_compact {cohort survivors added : List (ℕ × List ρ)} (h : ∀ d ∈ f.deletes, d.1 ≤ n)
    (hsplit : f.data.Perm (cohort ++ survivors)) (hadded : ∀ d ∈ added, d.1 = n)
    (hrows : (added.flatMap Prod.snd).Perm (rowsOf f.deletes cohort)) :
    (rowsOf f.deletes (survivors ++ added)).Perm f.rows := by
  have hbefore : f.rows.Perm (rowsOf f.deletes cohort ++ rowsOf f.deletes survivors) := by
    rw [← rowsOf_append]
    exact rowsOf_perm hsplit
  rw [rowsOf_append, rowsOf_fresh h hadded]
  exact (List.perm_append_comm.trans (hrows.append_right _)).trans hbefore.symm

end BlueDB.MergeOnRead
