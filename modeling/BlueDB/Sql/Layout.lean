import BlueDB.Sql.Model

/-!
# Stored and logical rows

A catalog for `n` columns gives each of them a slot of its own below the width.
A row written through it is read back as it was. Rows stored before a column was
added are shorter and read its default.
-/

namespace BlueDB.Sql

variable {G : Engine}

/-- A catalog for `n` columns. -/
structure ColumnCatalog.Fits (cat : ColumnCatalog G) (n : ℕ) : Prop where
  length : cat.slots.length = n
  nodup : cat.slots.Nodup
  below : ∀ slot ∈ cat.slots, slot < cat.width
  defaults_below : ∀ p ∈ cat.defaults, p.1 < cat.width

namespace ColumnCatalog

variable {cat : ColumnCatalog G} {n : ℕ}

theorem identity_fits (n : ℕ) : (identity n : ColumnCatalog G).Fits n where
  length := List.length_range
  nodup := List.nodup_range
  below := by
    intro slot hslot
    exact List.mem_range.mp hslot
  defaults_below := by simp [identity]

theorem Fits.addColumn (h : cat.Fits n) (default : G.Value) :
    (cat.addColumn default).Fits (n + 1) where
  length := by simp [ColumnCatalog.addColumn, h.length]
  nodup := by
    have hnew : cat.width ∉ cat.slots := fun hmem => (h.below _ hmem).false
    exact List.nodup_append.mpr ⟨h.nodup, List.nodup_singleton _, by
      intro a ha b hb hab
      rw [List.mem_singleton] at hb
      exact hnew (hb ▸ hab ▸ ha)⟩
  below := by
    intro slot hslot
    rcases List.mem_append.mp hslot with hold | hnew
    · exact (h.below slot hold).trans (Nat.lt_succ_self _)
    · rw [List.mem_singleton.mp hnew]
      exact Nat.lt_succ_self _
  defaults_below := by
    intro p hp
    have hold : ∀ q ∈ cat.defaults, q.1 < cat.width + 1 :=
      fun q hq => (h.defaults_below q hq).trans (Nat.lt_succ_self _)
    unfold ColumnCatalog.addColumn at hp ⊢
    split_ifs at hp with hnull
    · exact hold p hp
    · rcases List.mem_cons.mp hp with rfl | hp
      · exact Nat.lt_succ_self _
      · exact hold p hp

theorem Fits.dropColumn (h : cat.Fits (n + 1)) {i : ℕ} (hi : i < n + 1) :
    (cat.dropColumn i).Fits n where
  length := by
    have := List.length_eraseIdx_of_lt (l := cat.slots) (i := i) (h.length ▸ hi)
    simp only [ColumnCatalog.dropColumn, this, h.length]
    omega
  nodup := h.nodup.sublist (List.eraseIdx_sublist ..)
  below := fun slot hslot => h.below slot ((List.eraseIdx_sublist ..).subset hslot)
  defaults_below := h.defaults_below

theorem toLogical_vec (cat : ColumnCatalog G) (values : List G.Value) :
    cat.toLogical (.vec values) =
    .vec (cat.slots.map fun slot => values[slot]?.getD (cat.fill slot)) := rfl

theorem toPhysical_vec (cat : ColumnCatalog G) (values : List G.Value) :
    cat.toPhysical (.vec values) = .vec ((cat.slots.zip values).foldl
      (fun phys p => phys.set p.1 p.2) (List.replicate cat.width G.null)) := rfl

theorem lookup_eq_none_of_below (h : cat.Fits n) : cat.defaults.lookup cat.width = none := by
  rw [List.lookup_eq_none_iff]
  intro p hp
  have := h.defaults_below p hp
  simp only [bne_iff_ne, ne_eq]
  omega

theorem fill_addColumn_of_lt {slot : ℕ} (hslot : slot < cat.width) (default : G.Value) :
    (cat.addColumn default).fill slot = cat.fill slot := by
  unfold fill ColumnCatalog.addColumn
  split_ifs with hnull
  · rfl
  · rw [List.lookup_cons, beq_eq_false_iff_ne.mpr hslot.ne]

theorem fill_addColumn_width (h : cat.Fits n) (default : G.Value) :
    (cat.addColumn default).fill cat.width = default := by
  unfold fill ColumnCatalog.addColumn
  split_ifs with hnull
  · rw [lookup_eq_none_of_below h, hnull]
    rfl
  · rw [List.lookup_cons_self]
    rfl

theorem toLogical_addColumn (h : cat.Fits n) (default : G.Value) {values : List G.Value}
    (hlen : values.length ≤ cat.width) :
    (cat.addColumn default).toLogical (.vec values) =
      .vec (cat.slots.map (fun slot => values[slot]?.getD (cat.fill slot)) ++ [default]) := by
  have hold : ∀ slot ∈ cat.slots, values[slot]?.getD ((cat.addColumn default).fill slot) =
      values[slot]?.getD (cat.fill slot) := by
    intro slot hslot
    rw [fill_addColumn_of_lt (h.below slot hslot)]
  have hnew : values[cat.width]?.getD ((cat.addColumn default).fill cat.width) = default := by
    rw [List.getElem?_eq_none hlen, Option.getD_none, fill_addColumn_width h]
  have hslots : (cat.addColumn default).slots = cat.slots ++ [cat.width] := rfl
  rw [toLogical_vec, hslots, List.map_append, List.map_congr_left hold, List.map_singleton, hnew]

theorem toLogical_dropColumn (i : ℕ) (values : List G.Value) :
    (cat.dropColumn i).toLogical (.vec values) =
      .vec ((cat.slots.map fun slot => values[slot]?.getD (cat.fill slot)).eraseIdx i) := by
  rw [toLogical_vec, List.eraseIdx_map]
  rfl

theorem toLogical_identity {values : List G.Value} (h : values.length = n) :
    (identity n : ColumnCatalog G).toLogical (.vec values) = .vec values := by
  rw [toLogical_vec]
  congr 1
  apply List.ext_getElem
  · simp [identity, h]
  · intro i hi hi'
    simp [identity, hi']

theorem length_foldl_set (pairs : List (ℕ × G.Value)) (phys : List G.Value) :
    (pairs.foldl (fun phys p => phys.set p.1 p.2) phys).length = phys.length := by
  induction pairs generalizing phys with
  | nil => rfl
  | cons p pairs ih => rw [List.foldl_cons, ih, List.length_set]

theorem getElem?_foldl_set_of_notMem {pairs : List (ℕ × G.Value)} {phys : List G.Value} {slot : ℕ}
    (h : slot ∉ pairs.map Prod.fst) :
    (pairs.foldl (fun phys p => phys.set p.1 p.2) phys)[slot]? = phys[slot]? := by
  induction pairs generalizing phys with
  | nil => rfl
  | cons p pairs ih =>
    rw [List.map_cons, List.mem_cons, not_or] at h
    rw [List.foldl_cons, ih h.2, List.getElem?_set_ne (Ne.symm h.1)]

theorem getElem?_foldl_set {pairs : List (ℕ × G.Value)} {phys : List G.Value}
    (hnodup : (pairs.map Prod.fst).Nodup) (hbelow : ∀ p ∈ pairs, p.1 < phys.length)
    {p : ℕ × G.Value} (hp : p ∈ pairs) :
    (pairs.foldl (fun phys p => phys.set p.1 p.2) phys)[p.1]? = some p.2 := by
  induction pairs generalizing phys with
  | nil => simp at hp
  | cons q pairs ih =>
    rw [List.map_cons, List.nodup_cons] at hnodup
    rw [List.foldl_cons]
    rcases List.mem_cons.mp hp with rfl | hp
    · rw [getElem?_foldl_set_of_notMem hnodup.1, List.getElem?_set_self (hbelow p (by simp))]
    · apply ih hnodup.2 _ hp
      intro p' hp'
      rw [List.length_set]
      exact hbelow p' (List.mem_cons_of_mem _ hp')

theorem toLogical_toPhysical (h : cat.Fits n) {values : List G.Value} (hlen : values.length = n) :
    cat.toLogical (cat.toPhysical (.vec values)) = .vec values := by
  have hnodup : ((cat.slots.zip values).map Prod.fst).Nodup := by
    rw [List.map_fst_zip]
    · exact h.nodup
    · rw [h.length, hlen]
  rw [toPhysical_vec, toLogical_vec]
  congr 1
  apply List.ext_getElem
  · simp [h.length, hlen]
  · intro i hi hi'
    have hslot : i < cat.slots.length := by simpa using hi
    have hmem : (cat.slots[i], values[i]) ∈ cat.slots.zip values := by
      apply List.mem_of_getElem? (i := i)
      simp [hslot, hi']
    have hbelow : ∀ p ∈ cat.slots.zip values, p.1 < (List.replicate cat.width G.null).length := by
      intro p hp
      rw [List.length_replicate]
      exact h.below p.1 (List.of_mem_zip hp).1
    have hget := getElem?_foldl_set hnodup hbelow hmem
    simp only [List.getElem_map]
    rw [hget]
    rfl

end ColumnCatalog

/-- What holds of the layout of a table with `n` columns. -/
def CatalogFits (catalog : Option (ColumnCatalog G)) (n : ℕ) : Prop :=
  ∀ cat ∈ catalog, cat.Fits n

/-- What holds of a stored row of such a table. -/
def StoredFits (catalog : Option (ColumnCatalog G)) (n : ℕ) (row : DataRow G.Value) : Prop :=
  ∃ values, row = .vec values ∧
    match catalog with
    | none => values.length = n
    | some cat => values.length ≤ cat.width

variable {catalog : Option (ColumnCatalog G)} {n : ℕ} {row : DataRow G.Value}

theorem CatalogFits.current (h : CatalogFits catalog n) :
    (catalog.getD (.identity n)).Fits n := by
  cases catalog with
  | none => exact ColumnCatalog.identity_fits n
  | some cat => exact h cat rfl

theorem StoredFits.exists_logical (hcat : CatalogFits catalog n) (h : StoredFits catalog n row) :
    ∃ values, toLogical catalog row = .vec values ∧ values.length = n := by
  obtain ⟨values, rfl, hlen⟩ := h
  cases catalog with
  | none => exact ⟨values, rfl, hlen⟩
  | some cat => exact ⟨_, rfl, by rw [List.length_map, (hcat cat rfl).length]⟩

theorem StoredFits.width (h : StoredFits catalog n row) :
    ∃ values, row = .vec values ∧ values.length ≤ (catalog.getD (.identity n)).width := by
  obtain ⟨values, rfl, hlen⟩ := h
  cases catalog with
  | none => exact ⟨values, rfl, le_of_eq hlen⟩
  | some cat => exact ⟨values, rfl, hlen⟩

theorem StoredFits.toLogical_current (h : StoredFits catalog n row) :
    toLogical catalog row = (catalog.getD (.identity n)).toLogical row := by
  obtain ⟨values, rfl, hlen⟩ := h
  cases catalog with
  | none => exact (ColumnCatalog.toLogical_identity hlen).symm
  | some cat => rfl

theorem toLogical_toPhysical (hcat : CatalogFits catalog n) {values : List G.Value}
    (hlen : values.length = n) : toLogical catalog (toPhysical catalog (.vec values)) =
      .vec values := by
  cases catalog with
  | none => rfl
  | some cat => exact ColumnCatalog.toLogical_toPhysical (hcat cat rfl) hlen

theorem storedFits_toPhysical {values : List G.Value} (hlen : values.length = n) :
    StoredFits catalog n (toPhysical catalog (.vec values)) := by
  cases catalog with
  | none => exact ⟨values, rfl, hlen⟩
  | some cat =>
    refine ⟨_, rfl, ?_⟩
    change List.length _ ≤ _
    rw [ColumnCatalog.length_foldl_set, List.length_replicate]

theorem StoredFits.toLogical_addColumn (hcat : CatalogFits catalog n)
    (h : StoredFits catalog n row) (default : G.Value) {values : List G.Value}
    (hrow : toLogical catalog row = .vec values) :
    toLogical (some ((catalog.getD (.identity n)).addColumn default)) row =
      .vec (values ++ [default]) := by
  rw [h.toLogical_current] at hrow
  obtain ⟨stored, rfl, hlen⟩ := h.width
  have hvalues := DataRow.vec.inj hrow
  subst values
  exact ColumnCatalog.toLogical_addColumn hcat.current default hlen

theorem StoredFits.toLogical_dropColumn (h : StoredFits catalog n row) (i : ℕ)
    {values : List G.Value} (hrow : toLogical catalog row = .vec values) :
    toLogical (some ((catalog.getD (.identity n)).dropColumn i)) row =
      .vec (values.eraseIdx i) := by
  rw [h.toLogical_current] at hrow
  obtain ⟨stored, rfl, -⟩ := h.width
  have hvalues := DataRow.vec.inj hrow
  subst values
  exact ColumnCatalog.toLogical_dropColumn i stored

end BlueDB.Sql
