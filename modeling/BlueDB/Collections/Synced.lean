import BlueDB.Collections.View

/-!
# Index columns and side tables in step with the documents

A column whose path is read off its name is NULL or holds the value of the path, and a
side table has the elements of every document. Adding, changing and removing a document
keep this, and so does filling a new index.
-/

namespace BlueDB.Collections

variable {F : Type} [Sums F]

/-- A whole number that a column of integers has room for. -/
def InRange : Json F → Prop
  | .number (.int i _) => i ≤ i64Max
  | .number (.float f) => ∀ i, Doubles.whole f = some i → i64Min ≤ i ∧ i ≤ i64Max
  | _ => True

/-- A column holds a derived value, and NULL when there is none. -/
def Stores : Option (Json F) → Scalar F → Prop
  | none, .null => True
  | some (.bool b), .bool b' => b = b'
  | some (.string s), .text s' => s = s'
  | some (.number (.int i _)), .int j => i = j
  | some (.number (.float f)), .int j => Doubles.whole f = some j
  | _, _ => False

theorem stores_wholeNumber {v : Json F} (h : isWholeNumber v = true) (hrange : InRange v) :
    Stores (some v) (jsonValueToParam v) := by
  cases v with
  | number n =>
    cases n with
    | int i range =>
      have hi : i ≤ i64Max := hrange
      have hparam : jsonValueToParam (.number (.int i range) : Json F) = .int i := by
        simp only [jsonValueToParam, JsonNumber.asI64, if_pos hi]
      rw [hparam]
      exact rfl
    | float f =>
      obtain ⟨j, hj⟩ := Option.isSome_iff_exists.mp (show (wholeI64 f).isSome = true from h)
      have hparam : jsonValueToParam (.number (.float f) : Json F) = .int j := by
        simp only [jsonValueToParam, JsonNumber.asI64, JsonNumber.asF64, hj]
      rw [hparam]
      change Doubles.whole f = some j
      unfold wholeI64 at hj
      cases hwhole : Doubles.whole f with
      | none =>
        rw [hwhole] at hj
        exact absurd hj nofun
      | some i =>
        have hi := hrange i hwhole
        rw [hwhole] at hj
        dsimp only at hj
        split_ifs at hj
        rw [← hj, min_eq_right hi.2, max_eq_right hi.1]
  | _ => exact absurd h nofun

/-- The column of a path holds the derived value, unless it is a number out of range. -/
theorem stores_cell {doc : Json F} {path : String} {type : IndexType}
    (h : type = .number → ∀ v, field doc path = some v → InRange v) :
    Stores (deriveTypedValue doc path type) (cell doc path type) := by
  unfold cell
  cases hvalue : deriveTypedValue doc path type with
  | none => exact trivial
  | some v =>
    obtain ⟨cur, hcur, hv⟩ := Option.bind_eq_some_iff.mp hvalue
    cases type with
    | number =>
      dsimp only at hv
      split_ifs at hv with hwhole
      obtain rfl := Option.some.inj hv
      exact stores_wholeNumber hwhole (h rfl cur hcur)
    | bool =>
      cases cur with
      | bool b =>
        obtain rfl := Option.some.inj hv
        exact rfl
      | _ => exact absurd hv nofun
    | text =>
      obtain rfl := Option.some.inj hv
      exact rfl

theorem lookup_columns {α : Type} {columns : List Column}
    (hnames : columns.Pairwise fun c c' => c.name ≠ c'.name) (g : Column → Option α) {col : Column}
    (hcol : col ∈ columns) :
    (columns.filterMap fun c => (g c).map fun x => (c.name, x)).lookup col.name = g col := by
  have hother : ∀ {l : List Column} {name : String}, (∀ c ∈ l, name ≠ c.name) →
      (l.filterMap fun c => (g c).map fun x => (c.name, x)).lookup name = none := by
    intro l name h
    rw [List.lookup_eq_none_iff]
    rintro ⟨n, x⟩ hmem
    obtain ⟨c, hc, hmap⟩ := List.mem_filterMap.mp hmem
    obtain ⟨x', -, heq⟩ := Option.map_eq_some_iff.mp hmap
    obtain ⟨rfl, rfl⟩ := Prod.mk.inj heq
    simpa using h c hc
  induction columns with
  | nil => exact absurd hcol List.not_mem_nil
  | cons c columns ih =>
    rw [List.pairwise_cons] at hnames
    rw [List.filterMap_cons]
    rcases List.mem_cons.mp hcol with rfl | hmem
    · cases hg : g col with
      | none => exact hother hnames.1
      | some x => simp
    · cases hg : g c with
      | none => exact ih hnames.2 hmem
      | some x =>
        have hne : (col.name == c.name) = false := by simpa using (hnames.1 col hmem).symm
        simp only [Option.map_some, List.lookup_cons, hne]
        exact ih hnames.2 hmem

theorem assignments_eq (doc : Json F) (columns : List Column) :
    assignments doc (columnTypes columns) (compoundDefs columns) =
      (columns.filterMap fun c => ((columnPath c.name).map fun p => cell doc p c.type).map
        fun x => (c.name, x)) ++
      columns.filterMap fun c => ((columnPaths c.name).map fun ps =>
        Scalar.text (compoundKey doc ps)).map fun x => (c.name, x) := by
  unfold assignments columnTypes compoundDefs
  rw [List.map_filterMap, List.map_filterMap]
  congr 1
  · apply List.filterMap_congr
    intro c _
    cases hpath : columnPath c.name with
    | none => rfl
    | some p => simp [hpath]
  · apply List.filterMap_congr
    intro c _
    cases columnPaths c.name with
    | none => rfl
    | some ps => rfl

section

variable {columns : List Column} (hnames : columns.Pairwise fun c c' => c.name ≠ c'.name)
  {col : Column} (hcol : col ∈ columns) (doc : Json F) (cells : String → Scalar F)

include hnames hcol

theorem assign_path {p : String} (hp : columnPath col.name = some p) :
    assign (assignments doc (columnTypes columns) (compoundDefs columns)) cells col.name =
      cell doc p col.type := by
  unfold assign
  rw [assignments_eq, List.lookup_append, lookup_columns hnames _ hcol, hp]
  rfl

theorem assign_paths {ps : List String} (hps : columnPaths col.name = some ps) :
    assign (assignments doc (columnTypes columns) (compoundDefs columns)) cells col.name =
      .text (compoundKey doc ps) := by
  have hpath : columnPath col.name = none := by
    cases hp : columnPath col.name with
    | none => rfl
    | some p => exact absurd ((columnPaths_of_columnPath hp).symm.trans hps) nofun
  unfold assign
  rw [assignments_eq, List.lookup_append, lookup_columns hnames _ hcol,
    lookup_columns hnames _ hcol, hpath, hps]
  rfl

end

/-- The numbers under the number indexes are in range. -/
def Ranged (columns : List Column) (doc : Json F) : Prop :=
  ∀ col ∈ columns, col.type = .number → ∀ p, columnPath col.name = some p →
    ∀ v, field doc p = some v → InRange v

def sideElements (doc : Json F) (f : String) : List String :=
  elementTexts (fieldItems (doc.get f))

/-- The entries of a side table are the elements of the documents. -/
structure Covers (rows : List (DocRow F)) (f : String) (entries : List SideRow) : Prop where
  elements : ∀ row ∈ rows,
    (entries.filter (·.id == row.id)).map (·.val) = sideElements row.doc f
  stored : ∀ e ∈ entries, ∃ row ∈ rows, row.id = e.id

/-- What holds of an index once it was made. -/
def Has (v : View F) : Made → Prop
  | .path p => ∃ col ∈ v.columns, col.name = derivedCol p ∧ columnPath col.name = some p ∧
      ∀ row ∈ v.rows, row.cells col.name = cell row.doc p col.type
  | .paths ps => ∃ col ∈ v.columns, col.name = compoundCol ps ∧ columnPaths col.name = some ps ∧
      ∀ row ∈ v.rows, row.cells col.name = .text (compoundKey row.doc ps)
  | .field f => '.' ∉ f.toList ∧ (v.sides f).isSome

structure Synced (v : View F) : Prop where
  ids : v.rows.Pairwise fun r r' => r.id ≠ r'.id
  names : v.columns.Pairwise fun c c' => c.name ≠ c'.name
  path : ∀ col ∈ v.columns, ∀ p, columnPath col.name = some p → ∀ row ∈ v.rows,
    row.cells col.name = .null ∨ row.cells col.name = cell row.doc p col.type
  ranged : ∀ row ∈ v.rows, Ranged v.columns row.doc
  sides : ∀ f entries, v.sides f = some entries → Covers v.rows f entries

omit [Sums F] in
theorem row_eq {rows : List (DocRow F)} (h : rows.Pairwise fun r r' => r.id ≠ r'.id)
    {r r' : DocRow F} (hr : r ∈ rows) (hr' : r' ∈ rows) (hid : r.id = r'.id) : r = r' :=
  List.inj_on_of_nodup_map (List.pairwise_map.mpr h) hr hr' hid

theorem column_eq {columns : List Column} (h : columns.Pairwise fun c c' => c.name ≠ c'.name)
    {c c' : Column} (hc : c ∈ columns) (hc' : c' ∈ columns) (hname : c.name = c'.name) : c = c' :=
  List.inj_on_of_nodup_map (List.pairwise_map.mpr h) hc hc' hname

def docRow (columns : List Column) (id : String) (doc : Json F) (cells : String → Scalar F) :
    DocRow F :=
  ⟨id, doc, assign (assignments doc (columnTypes columns) (compoundDefs columns)) cells⟩

def View.addDoc (v : View F) (row : DocRow F) : View F :=
  { v with
    rows := v.rows ++ [row]
    sides := fun f => (v.sides f).map (· ++ elementRows row.id (fieldItems (row.doc.get f))) }

def View.changeDoc (v : View F) (id : String) (doc : Json F) : View F :=
  { v with
    rows := changeRow id (fun row => docRow v.columns row.id doc row.cells) v.rows
    sides := fun f => (v.sides f).map fun entries =>
      entries.filter (·.id != id) ++ elementRows id (fieldItems (doc.get f)) }

def View.removeDoc (v : View F) (id : String) : View F :=
  { v with
    rows := v.rows.filter (·.id != id)
    sides := fun f => (v.sides f).map fun entries => entries.filter (·.id != id) }

theorem filter_elementRows_self (id : String) (items : List (Json F)) :
    ((elementRows id items).filter (·.id == id)).map (·.val) = elementTexts items := by
  unfold elementRows
  rw [List.filter_eq_self.mpr (by simp), List.map_map]
  exact List.map_id _

theorem filter_elementRows_other {id id' : String} (h : id ≠ id') (items : List (Json F)) :
    (elementRows id items).filter (·.id == id') = [] := by
  unfold elementRows
  rw [List.filter_eq_nil_iff]
  intro e he
  obtain ⟨val, -, rfl⟩ := List.mem_map.mp he
  simpa using h

theorem id_of_mem_elementRows {id : String} {items : List (Json F)} {e : SideRow}
    (h : e ∈ elementRows id items) : e.id = id := by
  obtain ⟨val, -, rfl⟩ := List.mem_map.mp h
  rfl

theorem Covers.filter_eq_nil {rows : List (DocRow F)} {f : String} {entries : List SideRow}
    (h : Covers rows f entries) {id : String} (hid : ∀ row ∈ rows, row.id ≠ id) :
    entries.filter (·.id == id) = [] := by
  rw [List.filter_eq_nil_iff]
  intro e he heq
  obtain ⟨row, hrow, hrowid⟩ := h.stored e he
  exact hid row hrow (hrowid.trans (by simpa using heq))

variable {v : View F}

theorem Synced.addDoc (h : Synced v) {id : String} {doc : Json F}
    (hid : ∀ row ∈ v.rows, row.id ≠ id) (hranged : Ranged v.columns doc)
    (cells : String → Scalar F) : Synced (v.addDoc (docRow v.columns id doc cells)) := by
  constructor
  · change (v.rows ++ [_]).Pairwise _
    rw [List.pairwise_append]
    refine ⟨h.ids, List.pairwise_singleton _ _, ?_⟩
    intro row hrow row' hrow'
    obtain rfl := List.mem_singleton.mp hrow'
    exact hid row hrow
  · exact h.names
  · intro col hcol p hp row hrow
    rcases List.mem_append.mp hrow with hrow | hrow
    · exact h.path col hcol p hp row hrow
    · obtain rfl := List.mem_singleton.mp hrow
      exact Or.inr (assign_path h.names hcol doc cells hp)
  · intro row hrow
    rcases List.mem_append.mp hrow with hrow | hrow
    · exact h.ranged row hrow
    · obtain rfl := List.mem_singleton.mp hrow
      exact hranged
  · intro f entries hentries
    obtain ⟨before, hbefore, rfl⟩ := Option.map_eq_some_iff.mp hentries
    have hcovers := h.sides f before hbefore
    constructor
    · intro row hrow
      change ((before ++ elementRows id (fieldItems (doc.get f))).filter _).map _ = _
      rw [List.filter_append, List.map_append]
      rcases List.mem_append.mp hrow with hrow | hrow
      · rw [hcovers.elements row hrow, filter_elementRows_other (hid row hrow).symm, List.map_nil,
          List.append_nil]
      · obtain rfl := List.mem_singleton.mp hrow
        change (before.filter (·.id == id)).map _ ++
          ((elementRows id (fieldItems (doc.get f))).filter (·.id == id)).map _ = _
        rw [hcovers.filter_eq_nil hid, List.map_nil, List.nil_append]
        exact filter_elementRows_self id _
    · intro e he
      rcases List.mem_append.mp he with he | he
      · obtain ⟨row, hrow, heq⟩ := hcovers.stored e he
        exact ⟨row, List.mem_append_left _ hrow, heq⟩
      · exact ⟨_, List.mem_append_right _ (List.mem_singleton_self _),
          (id_of_mem_elementRows he).symm⟩

theorem Has.addDoc (h : Synced v) {m : Made} (hm : Has v m) {id : String} {doc : Json F}
    (cells : String → Scalar F) : Has (v.addDoc (docRow v.columns id doc cells)) m := by
  cases m with
  | path p =>
    obtain ⟨col, hcol, hname, hp, hrows⟩ := hm
    refine ⟨col, hcol, hname, hp, ?_⟩
    intro row hrow
    rcases List.mem_append.mp hrow with hrow | hrow
    · exact hrows row hrow
    · obtain rfl := List.mem_singleton.mp hrow
      exact assign_path h.names hcol doc cells hp
  | paths ps =>
    obtain ⟨col, hcol, hname, hps, hrows⟩ := hm
    refine ⟨col, hcol, hname, hps, ?_⟩
    intro row hrow
    rcases List.mem_append.mp hrow with hrow | hrow
    · exact hrows row hrow
    · obtain rfl := List.mem_singleton.mp hrow
      exact assign_paths h.names hcol doc cells hps
  | field f =>
    refine ⟨hm.1, ?_⟩
    change ((v.sides f).map _).isSome
    rw [Option.isSome_map]
    exact hm.2

omit [Sums F] in
theorem pairwise_ids {rows rows' : List (DocRow F)} (hids : rows'.map (·.id) = rows.map (·.id))
    (h : rows.Pairwise fun r r' => r.id ≠ r'.id) : rows'.Pairwise fun r r' => r.id ≠ r'.id := by
  have hnodup : (rows.map (·.id)).Nodup := List.pairwise_map.mpr h
  rw [← hids] at hnodup
  exact List.pairwise_map.mp hnodup

omit [Sums F] in
theorem mem_changeRow {id : String} {f : DocRow F → DocRow F} {rows : List (DocRow F)}
    {row' : DocRow F} : row' ∈ changeRow id f rows ↔
      ∃ row ∈ rows, (row.id = id ∧ f row = row') ∨ (row.id ≠ id ∧ row = row') := by
  unfold changeRow
  rw [List.mem_map]
  refine exists_congr fun row => and_congr_right fun _ => ?_
  by_cases hid : row.id = id
  · simp [hid]
  · simp [hid]

omit [Sums F] in
theorem changeRow_ids {id : String} {f : DocRow F → DocRow F} (hf : ∀ row, (f row).id = row.id)
    (rows : List (DocRow F)) : (changeRow id f rows).map (·.id) = rows.map (·.id) := by
  unfold changeRow
  rw [List.map_map]
  apply List.map_congr_left
  intro row _
  by_cases hid : row.id = id
  · simp [hid, hf]
  · simp [hid]

theorem View.changeDoc_ids (v : View F) (id : String) (doc : Json F) :
    (v.changeDoc id doc).rows.map (·.id) = v.rows.map (·.id) :=
  changeRow_ids (f := fun row => docRow v.columns row.id doc row.cells) (fun _ => rfl) v.rows

theorem Synced.changeDoc (h : Synced v) {id : String} {doc : Json F}
    (hid : ∃ row ∈ v.rows, row.id = id) (hranged : Ranged v.columns doc) :
    Synced (v.changeDoc id doc) := by
  constructor
  · exact pairwise_ids (v.changeDoc_ids id doc) h.ids
  · exact h.names
  · intro col hcol p hp row' hrow'
    obtain ⟨row, hrow, ⟨-, rfl⟩ | ⟨-, rfl⟩⟩ := mem_changeRow.mp hrow'
    · exact Or.inr (assign_path h.names hcol doc row.cells hp)
    · exact h.path col hcol p hp row hrow
  · intro row' hrow'
    obtain ⟨row, hrow, ⟨-, rfl⟩ | ⟨-, rfl⟩⟩ := mem_changeRow.mp hrow'
    · exact hranged
    · exact h.ranged row hrow
  · intro f entries hentries
    obtain ⟨before, hbefore, rfl⟩ := Option.map_eq_some_iff.mp hentries
    have hcovers := h.sides f before hbefore
    have hrows : ∀ row ∈ v.rows, ∃ row' ∈ (v.changeDoc id doc).rows, row'.id = row.id := by
      intro row hrow
      have hmem : row.id ∈ (v.changeDoc id doc).rows.map (·.id) := by
        rw [View.changeDoc_ids]
        exact List.mem_map_of_mem hrow
      obtain ⟨row', hrow', heq⟩ := List.mem_map.mp hmem
      exact ⟨row', hrow', heq⟩
    constructor
    · intro row' hrow'
      rw [List.filter_append, List.map_append, List.filter_filter]
      obtain ⟨row, hrow, ⟨rfl, rfl⟩ | ⟨hne, rfl⟩⟩ := mem_changeRow.mp hrow'
      · change (before.filter fun e => (e.id == row.id) && (e.id != row.id)).map _ ++
          ((elementRows row.id (fieldItems (doc.get f))).filter (·.id == row.id)).map _ = _
        rw [List.filter_eq_nil_iff.mpr (by simp), List.map_nil, List.nil_append]
        exact filter_elementRows_self row.id _
      · rw [filter_elementRows_other hne.symm, List.map_nil, List.append_nil,
          ← hcovers.elements row hrow]
        congr 1
        apply List.filter_congr
        intro e _
        by_cases he : e.id = row.id
        · simp [he, hne]
        · simp [he]
    · intro e he
      rcases List.mem_append.mp he with he | he
      · obtain ⟨row, hrow, heq⟩ := hcovers.stored e (List.mem_filter.mp he).1
        obtain ⟨row', hrow', hid'⟩ := hrows row hrow
        exact ⟨row', hrow', hid'.trans heq⟩
      · obtain ⟨row, hrow, heq⟩ := hid
        obtain ⟨row', hrow', hid'⟩ := hrows row hrow
        exact ⟨row', hrow', (hid'.trans heq).trans (id_of_mem_elementRows he).symm⟩

theorem Has.changeDoc (h : Synced v) {m : Made} (hm : Has v m) (id : String) (doc : Json F) :
    Has (v.changeDoc id doc) m := by
  cases m with
  | path p =>
    obtain ⟨col, hcol, hname, hp, hrows⟩ := hm
    refine ⟨col, hcol, hname, hp, ?_⟩
    intro row' hrow'
    obtain ⟨row, hrow, ⟨-, rfl⟩ | ⟨-, rfl⟩⟩ := mem_changeRow.mp hrow'
    · exact assign_path h.names hcol doc row.cells hp
    · exact hrows row hrow
  | paths ps =>
    obtain ⟨col, hcol, hname, hps, hrows⟩ := hm
    refine ⟨col, hcol, hname, hps, ?_⟩
    intro row' hrow'
    obtain ⟨row, hrow, ⟨-, rfl⟩ | ⟨-, rfl⟩⟩ := mem_changeRow.mp hrow'
    · exact assign_paths h.names hcol doc row.cells hps
    · exact hrows row hrow
  | field f =>
    refine ⟨hm.1, ?_⟩
    change ((v.sides f).map _).isSome
    rw [Option.isSome_map]
    exact hm.2

theorem Has.fewer {rows : List (DocRow F)} {sides : String → Option (List SideRow)}
    (hrows : ∀ row ∈ rows, row ∈ v.rows) (hsides : ∀ f, (v.sides f).isSome → (sides f).isSome)
    {m : Made} (hm : Has v m) : Has ⟨v.columns, rows, sides⟩ m := by
  cases m with
  | path p =>
    obtain ⟨col, hcol, hname, hp, hcells⟩ := hm
    exact ⟨col, hcol, hname, hp, fun row hrow => hcells row (hrows row hrow)⟩
  | paths ps =>
    obtain ⟨col, hcol, hname, hps, hcells⟩ := hm
    exact ⟨col, hcol, hname, hps, fun row hrow => hcells row (hrows row hrow)⟩
  | field f => exact ⟨hm.1, hsides f hm.2⟩

theorem Synced.fewer {rows : List (DocRow F)} {sides : String → Option (List SideRow)}
    (h : Synced v) (hrows : rows.Sublist v.rows)
    (hsides : ∀ f entries, sides f = some entries → Covers rows f entries) :
    Synced ⟨v.columns, rows, sides⟩ :=
  ⟨h.ids.sublist hrows, h.names,
    fun col hcol p hp row hrow => h.path col hcol p hp row (hrows.subset hrow),
    fun row hrow => h.ranged row (hrows.subset hrow), hsides⟩

theorem Synced.removeDoc (h : Synced v) (id : String) : Synced (v.removeDoc id) := by
  apply h.fewer List.filter_sublist
  intro f entries hentries
  obtain ⟨before, hbefore, rfl⟩ := Option.map_eq_some_iff.mp hentries
  have hcovers := h.sides f before hbefore
  constructor
  · intro row hrow
    obtain ⟨hrow, hne⟩ := List.mem_filter.mp hrow
    rw [← hcovers.elements row hrow, List.filter_filter]
    congr 1
    apply List.filter_congr
    intro e _
    by_cases he : e.id = row.id
    · simpa [he] using hne
    · simp [he]
  · intro e he
    obtain ⟨he, hne⟩ := List.mem_filter.mp he
    obtain ⟨row, hrow, heq⟩ := hcovers.stored e he
    refine ⟨row, List.mem_filter.mpr ⟨hrow, ?_⟩, heq⟩
    rw [heq]
    exact hne

theorem Has.removeDoc {m : Made} (hm : Has v m) (id : String) : Has (v.removeDoc id) m := by
  apply hm.fewer
  · intro row hrow
    exact (List.mem_filter.mp hrow).1
  · intro f hf
    rw [Option.isSome_map]
    exact hf

/-- Only the row goes: the side tables must have had nothing of it. -/
theorem Synced.removeRow (h : Synced v) {id : String}
    (hbare : ∀ row ∈ v.rows, row.id = id → ∀ f, (v.sides f).isSome → sideElements row.doc f = []) :
    Synced { v with rows := v.rows.filter (·.id != id) } := by
  apply h.fewer List.filter_sublist
  intro f entries hentries
  have hcovers := h.sides f entries hentries
  constructor
  · intro row hrow
    exact hcovers.elements row (List.mem_filter.mp hrow).1
  · intro e he
    obtain ⟨row, hrow, heq⟩ := hcovers.stored e he
    refine ⟨row, List.mem_filter.mpr ⟨hrow, ?_⟩, heq⟩
    have hne : row.id ≠ id := by
      intro hid
      have helements := hcovers.elements row hrow
      rw [hbare row hrow hid f (by rw [hentries]; rfl), List.map_eq_nil_iff,
        List.filter_eq_nil_iff] at helements
      exact helements e he (by simp [heq])
    simpa using hne

def FitsRows (column : Column) (rows : List (DocRow F)) : Prop :=
  column.type = .number → ∀ p, columnPath column.name = some p → ∀ row ∈ rows,
    ∀ v, field row.doc p = some v → InRange v

def View.addColumn (v : View F) (column : Column) : View F :=
  { v with
    columns := v.columns ++ [column]
    rows := v.rows.map fun row =>
      { row with cells := Function.update row.cells column.name .null } }

section

variable {column : Column} (hnew : ∀ col ∈ v.columns, col.name ≠ column.name)

include hnew

theorem Synced.addColumn (h : Synced v) (hfits : FitsRows column v.rows) :
    Synced (v.addColumn column) := by
  have hrow : ∀ row' ∈ (v.addColumn column).rows, ∃ row ∈ v.rows,
      { row with cells := Function.update row.cells column.name .null } = row' := by
    intro row' hrow'
    exact List.mem_map.mp hrow'
  constructor
  · apply pairwise_ids _ h.ids
    change (v.rows.map _).map _ = _
    rw [List.map_map]
    rfl
  · change (v.columns ++ [column]).Pairwise _
    rw [List.pairwise_append]
    refine ⟨h.names, List.pairwise_singleton _ _, ?_⟩
    intro col hcol col' hcol'
    obtain rfl := List.mem_singleton.mp hcol'
    exact hnew col hcol
  · intro col hcol p hp row' hrow'
    obtain ⟨row, hmem, rfl⟩ := hrow row' hrow'
    rcases List.mem_append.mp hcol with hcol | hcol
    · dsimp only
      rw [Function.update_of_ne (hnew col hcol)]
      exact h.path col hcol p hp row hmem
    · obtain rfl := List.mem_singleton.mp hcol
      exact Or.inl (Function.update_self _ _ _)
  · intro row' hrow' col hcol htype p hp
    obtain ⟨row, hmem, rfl⟩ := hrow row' hrow'
    rcases List.mem_append.mp hcol with hcol | hcol
    · exact h.ranged row hmem col hcol htype p hp
    · obtain rfl := List.mem_singleton.mp hcol
      exact hfits htype p hp row hmem
  · intro f entries hentries
    have hcovers := h.sides f entries hentries
    constructor
    · intro row' hrow'
      obtain ⟨row, hmem, rfl⟩ := hrow row' hrow'
      exact hcovers.elements row hmem
    · intro e he
      obtain ⟨row, hmem, heq⟩ := hcovers.stored e he
      exact ⟨_, List.mem_map_of_mem hmem, heq⟩

theorem Has.addColumn {m : Made} (hm : Has v m) : Has (v.addColumn column) m := by
  have hcells : ∀ {col}, col ∈ v.columns → ∀ want : Json F → Scalar F,
      (∀ row ∈ v.rows, row.cells col.name = want row.doc) →
      ∀ row ∈ (v.addColumn column).rows, row.cells col.name = want row.doc := by
    intro col hcol want hrows row' hrow'
    obtain ⟨row, hrow, rfl⟩ := List.mem_map.mp hrow'
    dsimp only
    rw [Function.update_of_ne (hnew col hcol)]
    exact hrows row hrow
  cases m with
  | path p =>
    obtain ⟨col, hcol, hname, hp, hrows⟩ := hm
    exact ⟨col, List.mem_append_left _ hcol, hname, hp,
      hcells hcol (fun doc => cell doc p col.type) hrows⟩
  | paths ps =>
    obtain ⟨col, hcol, hname, hps, hrows⟩ := hm
    exact ⟨col, List.mem_append_left _ hcol, hname, hps,
      hcells hcol (fun doc => .text (compoundKey doc ps)) hrows⟩
  | field f => exact hm

end

end BlueDB.Collections
