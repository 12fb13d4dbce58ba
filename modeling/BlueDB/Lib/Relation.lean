import Mathlib.Data.List.GetD
import Mathlib.Tactic

/-!
# Relations with named columns

A relation is a list of rows, each as wide as the list of column names. A column
is read by its name, which must be the name of exactly one column. An outer join
keeps a row that has no match, with nulls for the columns it is joined with.
-/

namespace BlueDB

universe u v w

/-- Rows of one width under column names. -/
structure Relation (κ : Type u) (α : Type v) where
  columns : List κ
  rows : List (List α)
  width : ∀ row ∈ rows, row.length = columns.length

namespace Relation

variable {κ : Type u} {τ : Type w} {α : Type v}

/-- The rows as a bag. -/
def bag (r : Relation κ α) : Multiset (List α) := r.rows

def nulls (null : α) (r : Relation κ α) : List α := List.replicate r.columns.length null

/-- The rows of the optional side of an outer join that meets every row. -/
def padded (null : α) (r : Relation κ α) : List (List α) :=
  if r.rows = [] then [r.nulls null] else r.rows

theorem padded_width (null : α) (r : Relation κ α) :
    ∀ row ∈ r.padded null, row.length = r.columns.length := by
  intro row hrow
  unfold padded at hrow
  split_ifs at hrow
  · rw [List.mem_singleton.mp hrow, nulls, List.length_replicate]
  · exact r.width row hrow

theorem padded_ne_nil (null : α) (r : Relation κ α) : r.padded null ≠ [] := by
  unfold padded
  split_ifs with h
  · exact List.cons_ne_nil _ _
  · exact h

theorem mem_padded {null : α} {r : Relation κ α} {row : List α} :
    row ∈ r.padded null ↔ row ∈ r.rows ∨ row = r.nulls null ∧ r.rows = [] := by
  unfold padded
  split_ifs with h <;> simp [h]

section Columns

variable [DecidableEq κ]

/-- A name is read when it is the name of one column. -/
def Resolves (columns : List κ) (c : κ) : Prop := columns.count c = 1

instance (columns : List κ) (c : κ) : Decidable (Resolves columns c) :=
  inferInstanceAs (Decidable (_ = _))

def value (null : α) (columns : List κ) (row : List α) (c : κ) : α :=
  row.getD (columns.idxOf c) null

/-- Every name of a list is read when the list has no name twice. -/
theorem nodup_of_resolves {columns : List κ} (h : ∀ c ∈ columns, Resolves columns c) :
    columns.Nodup := by
  apply List.nodup_iff_count_le_one.mpr
  intro c
  by_cases hc : c ∈ columns
  · exact (h c hc).le
  · rw [List.count_eq_zero.mpr hc]
    exact Nat.zero_le 1

theorem resolves_of_nodup {columns : List κ} (h : columns.Nodup) {c : κ} (hc : c ∈ columns) :
    Resolves columns c := List.count_eq_one_of_mem h hc

theorem map_value {columns : List κ} (h : columns.Nodup) (null : α) {row : List α}
    (hrow : row.length = columns.length) : columns.map (value null columns row) = row := by
  apply List.ext_getElem
  · rw [List.length_map, hrow]
  · intro i hi hi'
    rw [List.getElem_map, value, h.idxOf_getElem, List.getD_eq_getElem _ _ hi']

theorem resolves_head {c : κ} {columns : List κ} (h : c ∉ columns) : Resolves (c :: columns) c := by
  unfold Resolves
  rw [List.count_cons_self, List.count_eq_zero.mpr h]

theorem value_head (null : α) (c : κ) (columns : List κ) (x : α) (row : List α) :
    value null (c :: columns) (x :: row) c = x := by
  unfold value
  rw [List.idxOf_cons_self]
  rfl

theorem resolves_tail {c d : κ} (h : d ≠ c) (columns : List κ) :
    Resolves (d :: columns) c ↔ Resolves columns c := by
  unfold Resolves
  rw [List.count_cons_of_ne h]

theorem value_tail {c d : κ} (h : d ≠ c) (null : α) (columns : List κ) (x : α) (row : List α) :
    value null (d :: columns) (x :: row) c = value null columns row c := by
  unfold value
  rw [List.idxOf_cons_ne _ h, List.getD_cons_succ]

section Append

variable {l r : List κ} {c : κ} {a b : List α} {null : α}

theorem resolves_append_left (hc : c ∉ r) : Resolves (l ++ r) c ↔ Resolves l c := by
  unfold Resolves
  rw [List.count_append, List.count_eq_zero.mpr hc, add_zero]

theorem resolves_append_right (hc : c ∉ l) : Resolves (l ++ r) c ↔ Resolves r c := by
  unfold Resolves
  rw [List.count_append, List.count_eq_zero.mpr hc, zero_add]

theorem value_append_left (ha : a.length = l.length) (hc : c ∈ l) :
    value null (l ++ r) (a ++ b) c = value null l a c := by
  have hidx : l.idxOf c < a.length := by
    rw [ha]
    exact List.idxOf_lt_length_iff.mpr hc
  unfold value
  rw [List.idxOf_append_of_mem hc, List.getD_append _ _ _ _ hidx]

theorem value_append_right (ha : a.length = l.length) (hc : c ∉ l) :
    value null (l ++ r) (a ++ b) c = value null r b c := by
  unfold value
  rw [List.idxOf_append_of_notMem hc, List.getD_append_right _ _ _ _ (by omega), ha,
    Nat.add_sub_cancel_left]

end Append

section Rename

variable [DecidableEq τ] {f : κ → τ} {columns : List κ} {c : κ}

theorem resolves_map (hf : Function.Injective f) :
    Resolves (columns.map f) (f c) ↔ Resolves columns c := by
  unfold Resolves
  rw [List.count_map_of_injective _ f hf]

theorem idxOf_map (hf : Function.Injective f) : (columns.map f).idxOf (f c) = columns.idxOf c := by
  induction columns with
  | nil => rfl
  | cons d columns ih =>
    rw [List.map_cons]
    by_cases hd : d = c
    · rw [hd, List.idxOf_cons_self, List.idxOf_cons_self]
    · rw [List.idxOf_cons_ne _ hd, List.idxOf_cons_ne _ fun h => hd (hf h), ih]

theorem value_map (hf : Function.Injective f) (null : α) (row : List α) :
    value null (columns.map f) row (f c) = value null columns row c := by
  unfold value
  rw [idxOf_map hf]

end Rename

end Columns

/-- The columns under other names. -/
def rename (f : κ → τ) (r : Relation κ α) : Relation τ α where
  columns := r.columns.map f
  rows := r.rows
  width row hrow := by
    rw [List.length_map]
    exact r.width row hrow

def outerMatches (null : α) (r : Relation κ α) (on : List α → Bool) (row : List α) :
    List (List α) :=
  if r.rows.filter (fun other => on (row ++ other)) = [] then [row ++ r.nulls null]
  else (r.rows.filter fun other => on (row ++ other)).map (row ++ ·)

theorem outerMatches_width (null : α) (r : Relation κ α) (on : List α → Bool) (row : List α) :
    ∀ joined ∈ outerMatches null r on row, joined.length = row.length + r.columns.length := by
  intro joined hjoined
  unfold outerMatches at hjoined
  split_ifs at hjoined
  · rw [List.mem_singleton.mp hjoined, List.length_append, nulls, List.length_replicate]
  · obtain ⟨other, hother, rfl⟩ := List.mem_map.mp hjoined
    rw [List.length_append, r.width other (List.mem_of_mem_filter hother)]

def leftJoin (null : α) (l r : Relation κ α) (on : List α → Bool) : Relation κ α where
  columns := l.columns ++ r.columns
  rows := l.rows.flatMap (outerMatches null r on)
  width row hrow := by
    obtain ⟨first, hfirst, hrow⟩ := List.mem_flatMap.mp hrow
    rw [outerMatches_width null r on first row hrow, l.width first hfirst, List.length_append]

theorem outerMatches_of_true (null : α) (r : Relation κ α) {on : List α → Bool} {row : List α}
    (h : ∀ other, on (row ++ other) = true) :
    outerMatches null r on row = (r.padded null).map (row ++ ·) := by
  unfold outerMatches padded
  have hall : r.rows.filter (fun other => on (row ++ other)) = r.rows :=
    List.filter_eq_self.mpr fun other _ => h other
  rw [hall]
  split_ifs <;> rfl

theorem outerMatches_of_false (null : α) (r : Relation κ α) {on : List α → Bool} {row : List α}
    (h : ∀ other, on (row ++ other) = false) :
    outerMatches null r on row = [row ++ r.nulls null] := by
  unfold outerMatches
  have hnone : r.rows.filter (fun other => on (row ++ other)) = [] := by
    rw [List.filter_eq_nil_iff]
    intro other _
    rw [h other]
    exact Bool.false_ne_true
  rw [if_pos hnone]

def filter (p : List α → Bool) (r : Relation κ α) : Relation κ α where
  columns := r.columns
  rows := r.rows.filter p
  width row hrow := r.width row (List.mem_of_mem_filter hrow)

def project (r : Relation κ α) (exprs : List ((List α → α) × τ)) : Relation τ α where
  columns := exprs.map Prod.snd
  rows := r.rows.map fun row => exprs.map fun e => e.1 row
  width row hrow := by
    obtain ⟨_, _, rfl⟩ := List.mem_map.mp hrow
    rw [List.length_map, List.length_map]

def distinct [DecidableEq α] (r : Relation κ α) : Relation κ α where
  columns := r.columns
  rows := r.rows.dedup
  width row hrow := r.width row (List.mem_dedup.mp hrow)

theorem bag_distinct [DecidableEq α] (r : Relation κ α) : r.distinct.bag = r.bag.dedup :=
  (Multiset.coe_dedup r.rows).symm

end Relation
end BlueDB
