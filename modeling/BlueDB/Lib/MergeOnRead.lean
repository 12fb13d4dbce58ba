import Mathlib.Tactic

/-!
# Merge-on-read tables

A commit adds rows and deletes rows. Commits are numbered in their order, and a
delete with the number `n` hides a row only when the number of the row is below
`n`: the rows of its own commit stay. When a commit deletes the keys of all its
changes, the rows that stay are those of a map from keys to rows with the changes
put over it.
-/

namespace BlueDB.MergeOnRead

structure Commit (ρ : Type*) where
  added : List ρ
  deletes : ρ → Bool

variable {ρ κ K : Type*}

/-- No commit with a number above `m` deletes the row. -/
def visible (cs : List (Commit ρ)) (m : ℕ) (r : ρ) : Bool :=
  cs.zipIdx.all fun c => !(decide (m < c.2) && c.1.deletes r)

/-- The rows of all commits that are not hidden. -/
def contents (cs : List (Commit ρ)) : List ρ :=
  cs.zipIdx.flatMap fun c => c.1.added.filter (visible cs c.2)

structure Shows (cell : K → κ) (key : ρ → κ) (rows : List ρ) (m : K → Option ρ) : Prop where
  nodup : (rows.map key).Nodup
  mem : ∀ r, r ∈ rows ↔ ∃ k, m k = some r
  keyed : ∀ k r, m k = some r → key r = cell k

variable {cell : K → κ} {key : ρ → κ} {m : K → Option ρ} {image : K → Option (Option ρ)}
  {D : Set K} {cs : List (Commit ρ)} {c : Commit ρ}

theorem Shows.nil : Shows cell key [] fun _ => none :=
  ⟨List.nodup_nil, by simp, by simp⟩

/-- A commit holds the changes: it deletes their keys and adds the rows they put. -/
structure Changes (cell : K → κ) (key : ρ → κ) (c : Commit ρ) (image : K → Option (Option ρ)) :
    Prop where
  nodup : (c.added.map key).Nodup
  mem : ∀ r, r ∈ c.added ↔ ∃ k, image k = some (some r)
  keyed : ∀ k r, image k = some (some r) → key r = cell k
  deletes : ∀ r, c.deletes r = true ↔ ∃ k, (image k).isSome = true ∧ key r = cell k

theorem Shows.perm {rows rows' : List ρ} (h : Shows cell key rows m) (hperm : rows.Perm rows') :
    Shows cell key rows' m :=
  ⟨((hperm.map key).nodup_iff).mp h.nodup, fun r => hperm.mem_iff.symm.trans (h.mem r), h.keyed⟩

/-- Once the commit is applied, the rows are those of the map with the changes over it. -/
theorem Shows.over {rows : List ρ} (h : Shows cell key rows m) (hc : Changes cell key c image)
    (hinj : Set.InjOn cell D) (hm : ∀ k, (m k).isSome = true → k ∈ D)
    (himage : ∀ k, (image k).isSome = true → k ∈ D) :
    Shows cell key (rows.filter (fun r => !c.deletes r) ++ c.added)
      fun k => (image k).getD (m k) := by
  have hkept : ∀ k r, m k = some r → (c.deletes r = false ↔ image k = none) := by
    intro k r hk
    have hdom : k ∈ D := hm k (by simp [hk])
    rw [← Bool.not_eq_true, hc.deletes r]
    constructor
    · intro hnot
      by_contra hsome
      exact hnot ⟨k, Option.isSome_iff_ne_none.mpr hsome, h.keyed k r hk⟩
    · rintro hnone ⟨k', hk', hkey⟩
      have heq : k = k' := hinj hdom (himage k' hk') ((h.keyed k r hk).symm.trans hkey)
      subst k'
      simp [hnone] at hk'
  constructor
  · rw [List.map_append, List.nodup_append]
    refine ⟨h.nodup.sublist (List.filter_sublist.map key), hc.nodup, ?_⟩
    intro a ha b hb hab
    obtain ⟨r, hr, rfl⟩ := List.mem_map.mp ha
    obtain ⟨r', hr', rfl⟩ := List.mem_map.mp hb
    obtain ⟨k', hk'⟩ := (hc.mem r').mp hr'
    have hdeleted : c.deletes r = true :=
      (hc.deletes r).mpr ⟨k', by simp [hk'], hab.trans (hc.keyed k' r' hk')⟩
    simp [hdeleted] at hr
  · intro r
    rw [List.mem_append, List.mem_filter, h.mem, hc.mem]
    constructor
    · rintro (⟨⟨k, hk⟩, hstays⟩ | ⟨k, hk⟩)
      · have hnone := (hkept k r hk).mp (by simpa using hstays)
        exact ⟨k, by simp [hnone, hk]⟩
      · exact ⟨k, by simp [hk]⟩
    · rintro ⟨k, hk⟩
      cases himg : image k with
      | none =>
        rw [himg] at hk
        exact Or.inl ⟨⟨k, hk⟩, by simpa using (hkept k r hk).mpr himg⟩
      | some v =>
        rw [himg] at hk
        obtain rfl : v = some r := hk
        exact Or.inr ⟨k, himg⟩
  · intro k r hk
    cases himg : image k with
    | none =>
      rw [himg] at hk
      exact h.keyed k r hk
    | some v =>
      rw [himg] at hk
      obtain rfl : v = some r := hk
      exact hc.keyed k r himg

end BlueDB.MergeOnRead
