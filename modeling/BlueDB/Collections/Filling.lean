import BlueDB.Collections.Synced

/-!
# Filling a new index

The rows are filled one after the other: the column of a path, or the side table of a
field. Rows that are not yet reached have NULL, or no elements.
-/

namespace BlueDB.Collections

variable {F : Type} [Sums F] {v : View F}

def DocRow.setCell (row : DocRow F) (column : String) (x : Scalar F) : DocRow F :=
  { row with cells := Function.update row.cells column x }

def fillRow (column : String) (value : Json F → Option (Scalar F)) (done : List (DocRow F))
    (row : DocRow F) : DocRow F :=
  if row.id ∈ done.map (·.id) then
    match value row.doc with
    | some x => row.setCell column x
    | none => row
  else row

def View.fill (v : View F) (column : String) (value : Json F → Option (Scalar F))
    (done : List (DocRow F)) : View F :=
  { v with rows := v.rows.map (fillRow column value done) }

section

variable (column : String) (value : Json F → Option (Scalar F))

omit [Sums F]

@[simp] theorem fillRow_id (done : List (DocRow F)) (row : DocRow F) :
    (fillRow column value done row).id = row.id := by
  unfold fillRow
  split
  · split <;> rfl
  · rfl

@[simp] theorem fillRow_doc (done : List (DocRow F)) (row : DocRow F) :
    (fillRow column value done row).doc = row.doc := by
  unfold fillRow
  split
  · split <;> rfl
  · rfl

theorem View.fill_nil : v.fill column value [] = v := by
  have hrows : v.rows.map (fillRow column value []) = v.rows.map id := by
    apply List.map_congr_left
    intro row _
    unfold fillRow
    exact if_neg List.not_mem_nil
  unfold View.fill
  rw [hrows, List.map_id]

theorem View.fill_skip (hids : v.rows.Pairwise fun r r' => r.id ≠ r'.id)
    (done : List (DocRow F)) {r : DocRow F} (hr : r ∈ v.rows) (hvalue : value r.doc = none) :
    v.fill column value (done ++ [r]) = v.fill column value done := by
  have hrows : v.rows.map (fillRow column value (done ++ [r])) =
      v.rows.map (fillRow column value done) := by
    apply List.map_congr_left
    intro row hrow
    unfold fillRow
    by_cases hid : row.id = r.id
    · obtain rfl := row_eq hids hrow hr hid
      simp [hvalue]
    · simp [hid]
  unfold View.fill
  rw [hrows]

theorem View.fill_concat (hids : v.rows.Pairwise fun r r' => r.id ≠ r'.id)
    (done : List (DocRow F)) {r : DocRow F} (hr : r ∈ v.rows) {x : Scalar F}
    (hvalue : value r.doc = some x) :
    changeRow r.id (fun row => row.setCell column x) (v.fill column value done).rows =
      (v.fill column value (done ++ [r])).rows := by
  unfold changeRow View.fill
  rw [List.map_map]
  apply List.map_congr_left
  intro row hrow
  dsimp only [Function.comp]
  rw [fillRow_id]
  by_cases hid : row.id = r.id
  · obtain rfl := row_eq hids hrow hr hid
    rw [if_pos rfl]
    unfold fillRow
    have hnew : row.id ∈ (done ++ [row]).map (·.id) := by simp
    rw [if_pos hnew]
    split_ifs
    · simp [hvalue, DocRow.setCell]
    · simp [hvalue]
  · rw [if_neg hid]
    unfold fillRow
    simp [hid]

end

/-- The values that fill a column are those that its name asks for. -/
structure Suits (v : View F) (column : String) (value : Json F → Option (Scalar F)) : Prop where
  path : ∀ col ∈ v.columns, col.name = column → ∀ p, columnPath column = some p →
    ∀ doc x, value doc = some x → x = cell doc p col.type
  paths : ∀ ps, columnPaths column = some ps →
    ∀ doc x, value doc = some x → x = .text (compoundKey doc ps)

section

variable {column : String} {value : Json F → Option (Scalar F)}

omit [Sums F] in
theorem fillRow_cells {done : List (DocRow F)} {row : DocRow F} {name : String} {x : Scalar F}
    (h : row.cells name = x) (hvalue : name = column → ∀ y, value row.doc = some y → y = x) :
    (fillRow column value done row).cells name = x := by
  unfold fillRow
  split_ifs
  · cases hrow : value row.doc with
    | none => exact h
    | some y =>
      change Function.update row.cells column y name = x
      by_cases hname : name = column
      · subst hname
        rw [Function.update_self]
        exact hvalue rfl y hrow
      · rw [Function.update_of_ne hname]
        exact h
  · exact h

omit [Sums F] in
theorem fillRow_cases (done : List (DocRow F)) (row : DocRow F) (name : String) :
    (fillRow column value done row).cells name = row.cells name ∨
      name = column ∧ ∃ x, value row.doc = some x ∧
        (fillRow column value done row).cells name = x := by
  unfold fillRow
  split_ifs
  · cases hrow : value row.doc with
    | none => exact Or.inl rfl
    | some x =>
      by_cases hname : name = column
      · subst hname
        exact Or.inr ⟨rfl, x, rfl, Function.update_self _ _ _⟩
      · exact Or.inl (Function.update_of_ne hname _ _)
  · exact Or.inl rfl

theorem Synced.fill (h : Synced v) (hsuits : Suits v column value) (done : List (DocRow F)) :
    Synced (v.fill column value done) := by
  have hids : (v.fill column value done).rows.map (·.id) = v.rows.map (·.id) := by
    change (v.rows.map _).map _ = _
    rw [List.map_map]
    apply List.map_congr_left
    intro row _
    exact fillRow_id column value done row
  constructor
  · exact pairwise_ids hids h.ids
  · exact h.names
  · intro col hcol p hp row' hrow'
    obtain ⟨row, hrow, rfl⟩ := List.mem_map.mp hrow'
    rw [fillRow_doc]
    rcases @fillRow_cases _ column value done row col.name with
      heq | ⟨hname, x, hx, heq⟩
    · rw [heq]
      exact h.path col hcol p hp row hrow
    · rw [heq]
      exact Or.inr (hsuits.path col hcol hname p (hname ▸ hp) row.doc x hx)
  · intro row' hrow'
    obtain ⟨row, hrow, rfl⟩ := List.mem_map.mp hrow'
    rw [fillRow_doc]
    exact h.ranged row hrow
  · intro f entries hentries
    have hcovers := h.sides f entries hentries
    constructor
    · intro row' hrow'
      obtain ⟨row, hrow, rfl⟩ := List.mem_map.mp hrow'
      rw [fillRow_id, fillRow_doc]
      exact hcovers.elements row hrow
    · intro e he
      obtain ⟨row, hrow, heq⟩ := hcovers.stored e he
      exact ⟨_, List.mem_map_of_mem hrow, (fillRow_id column value done row).trans heq⟩

theorem Has.fill (hsuits : Suits v column value) {m : Made} (hm : Has v m)
    (done : List (DocRow F)) : Has (v.fill column value done) m := by
  cases m with
  | path p =>
    obtain ⟨col, hcol, hname, hp, hrows⟩ := hm
    refine ⟨col, hcol, hname, hp, ?_⟩
    intro row' hrow'
    obtain ⟨row, hrow, rfl⟩ := List.mem_map.mp hrow'
    rw [fillRow_doc]
    apply fillRow_cells (hrows row hrow)
    intro heq y hy
    exact hsuits.path col hcol heq p (heq ▸ hp) row.doc y hy
  | paths ps =>
    obtain ⟨col, hcol, hname, hps, hrows⟩ := hm
    refine ⟨col, hcol, hname, hps, ?_⟩
    intro row' hrow'
    obtain ⟨row, hrow, rfl⟩ := List.mem_map.mp hrow'
    rw [fillRow_doc]
    apply fillRow_cells (hrows row hrow)
    intro heq y hy
    exact hsuits.paths ps (heq ▸ hps) row.doc y hy
  | field f => exact hm

omit [Sums F] in
theorem fillRow_all {rows : List (DocRow F)} {row : DocRow F} (hrow : row ∈ rows) {x : Scalar F}
    (hx : value row.doc = some x) : (fillRow column value rows row).cells column = x := by
  unfold fillRow
  rw [if_pos (List.mem_map_of_mem hrow), hx]
  exact Function.update_self _ _ _

theorem Has.path_of_fill (h : Synced v) {p : String} {col : Column} (hcol : col ∈ v.columns)
    (hname : col.name = derivedCol p) (hp : columnPath col.name = some p)
    (hvalue : ∀ doc : Json F,
      value doc = (deriveTypedValue doc p col.type).map jsonValueToParam) :
    Has (v.fill col.name value v.rows) (.path p) := by
  refine ⟨col, hcol, hname, hp, ?_⟩
  intro row' hrow'
  obtain ⟨row, hrow, rfl⟩ := List.mem_map.mp hrow'
  rw [fillRow_doc]
  cases hderived : deriveTypedValue row.doc p col.type with
  | some x =>
    rw [fillRow_all hrow (by rw [hvalue, hderived]; rfl)]
    unfold cell
    rw [hderived]
  | none =>
    have hnull : cell row.doc p col.type = .null := by
      unfold cell
      rw [hderived]
    apply fillRow_cells
    · rcases h.path col hcol p hp row hrow with heq | heq
      · rw [heq, hnull]
      · exact heq
    · intro _ y hy
      rw [hvalue, hderived] at hy
      exact absurd hy nofun

theorem Has.paths_of_fill {ps : List String} {col : Column} (hcol : col ∈ v.columns)
    (hname : col.name = compoundCol ps) (hps : columnPaths col.name = some ps)
    (hvalue : ∀ doc : Json F, value doc = some (.text (compoundKey doc ps))) :
    Has (v.fill col.name value v.rows) (.paths ps) := by
  refine ⟨col, hcol, hname, hps, ?_⟩
  intro row' hrow'
  obtain ⟨row, hrow, rfl⟩ := List.mem_map.mp hrow'
  rw [fillRow_doc]
  exact fillRow_all hrow (hvalue row.doc)

end

structure Partly (rows : List (DocRow F)) (f : String) (done : List (DocRow F))
    (entries : List SideRow) : Prop where
  filled : ∀ row ∈ done, (entries.filter (·.id == row.id)).map (·.val) = sideElements row.doc f
  others : ∀ row ∈ rows, entries.filter (·.id == row.id) = [] ∨
    (entries.filter (·.id == row.id)).map (·.val) = sideElements row.doc f
  stored : ∀ e ∈ entries, ∃ row ∈ rows, row.id = e.id

theorem Covers.partly {rows : List (DocRow F)} {f : String} {entries : List SideRow}
    (h : Covers rows f entries) : Partly rows f [] entries :=
  ⟨fun _ hrow => absurd hrow List.not_mem_nil, fun row hrow => Or.inr (h.elements row hrow),
    h.stored⟩

theorem Partly.empty (rows : List (DocRow F)) (f : String) : Partly rows f [] [] :=
  ⟨fun _ hrow => absurd hrow List.not_mem_nil, fun _ _ => Or.inl rfl,
    fun _ he => absurd he List.not_mem_nil⟩

theorem Partly.covers {rows : List (DocRow F)} {f : String} {entries : List SideRow}
    (h : Partly rows f rows entries) : Covers rows f entries := ⟨h.filled, h.stored⟩

section

variable {rows done : List (DocRow F)} {f : String} {entries : List SideRow}

theorem Partly.skip (h : Partly rows f done entries) {r : DocRow F} (hr : r ∈ rows)
    (hbare : sideElements r.doc f = []) : Partly rows f (done ++ [r]) entries := by
  refine ⟨?_, h.others, h.stored⟩
  intro row hrow
  rcases List.mem_append.mp hrow with hrow | hrow
  · exact h.filled row hrow
  · obtain rfl := List.mem_singleton.mp hrow
    rcases h.others row hr with hnil | hall
    · rw [hnil, hbare, List.map_nil]
    · exact hall

theorem Partly.concat (h : Partly rows f done entries)
    (hids : rows.Pairwise fun r r' => r.id ≠ r'.id) (hdone : ∀ row ∈ done, row ∈ rows)
    {r : DocRow F} (hr : r ∈ rows) :
    Partly rows f (done ++ [r])
      (entries.filter (·.id != r.id) ++ elementRows r.id (fieldItems (r.doc.get f))) := by
  have hself : ((entries.filter (·.id != r.id) ++
      elementRows r.id (fieldItems (r.doc.get f))).filter (·.id == r.id)).map (·.val) =
      sideElements r.doc f := by
    rw [List.filter_append, List.map_append, filter_elementRows_self, List.filter_filter,
      List.filter_eq_nil_iff.mpr (by simp), List.map_nil, List.nil_append]
    rfl
  have hother : ∀ row ∈ rows, row.id ≠ r.id → (entries.filter (·.id != r.id) ++
      elementRows r.id (fieldItems (r.doc.get f))).filter (·.id == row.id) =
      entries.filter (·.id == row.id) := by
    intro row _ hne
    rw [List.filter_append, filter_elementRows_other hne.symm, List.append_nil, List.filter_filter]
    apply List.filter_congr
    intro e _
    by_cases he : e.id = row.id
    · simp [he, hne]
    · simp [he]
  constructor
  · intro row hrow
    rcases List.mem_append.mp hrow with hrow | hrow
    · by_cases hid : row.id = r.id
      · obtain rfl := row_eq hids (hdone row hrow) hr hid
        exact hself
      · rw [hother row (hdone row hrow) hid]
        exact h.filled row hrow
    · obtain rfl := List.mem_singleton.mp hrow
      exact hself
  · intro row hrow
    by_cases hid : row.id = r.id
    · obtain rfl := row_eq hids hrow hr hid
      exact Or.inr hself
    · rw [hother row hrow hid]
      exact h.others row hrow
  · intro e he
    rcases List.mem_append.mp he with he | he
    · exact h.stored e (List.mem_filter.mp he).1
    · exact ⟨r, hr, (id_of_mem_elementRows he).symm⟩

end

theorem Synced.setSide (h : Synced v) {f : String} {entries : List SideRow}
    (hcovers : Covers v.rows f entries) : Synced (v.setSide f entries) := by
  refine ⟨h.ids, h.names, h.path, h.ranged, ?_⟩
  intro g entries' hg
  by_cases heq : g = f
  · subst heq
    rw [View.setSide_side] at hg
    obtain rfl := Option.some.inj hg
    exact hcovers
  · apply h.sides g entries'
    rw [← hg]
    exact (Function.update_of_ne heq _ _).symm

theorem Has.setSide {m : Made} (hm : Has v m) (f : String) (entries : List SideRow) :
    Has (v.setSide f entries) m := by
  cases m with
  | path p => exact hm
  | paths ps => exact hm
  | field g =>
    refine ⟨hm.1, ?_⟩
    by_cases heq : g = f
    · subst heq
      rw [View.setSide_side]
      rfl
    · change (Function.update v.sides f (some entries) g).isSome
      rw [Function.update_of_ne heq]
      exact hm.2

end BlueDB.Collections
