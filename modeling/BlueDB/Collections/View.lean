import BlueDB.Collections.Names

/-!
# One collection

The table of a collection and its side tables, and what each statement and each loop over
the side tables makes of them while the tables of other collections stay as they are.
-/

namespace BlueDB.Collections

variable {F : Type}

/-- A collection with its side tables by field. -/
structure View (F : Type) where
  columns : List Column
  rows : List (DocRow F)
  sides : String → Option (List SideRow)

/-- What the tables say of a collection. It is blank when there is none. -/
def viewOf (t : Tenant F) (c : String) : View F where
  columns := match t.tables.get c with
    | some (.documents columns _) => columns
    | _ => []
  rows := match t.tables.get c with
    | some (.documents _ rows) => rows
    | _ => []
  sides f := match t.tables.get (sidePrefix c ++ f) with
    | some (.side entries) => some entries
    | _ => none

structure Shows (t : Tenant F) (c : String) (v : View F) : Prop where
  documents : t.tables.get c = some (.documents v.columns v.rows)
  sides : ∀ f, t.tables.get (sidePrefix c ++ f) = (v.sides f).map .side

/-- Only the tables of the collection have changed, and they are those of the view. -/
structure Changes (c : String) (v : View F) (t t' : Tenant F) : Prop where
  shows : Shows t' c v
  others : ∀ n, n ≠ c → (∀ f, n ≠ sidePrefix c ++ f) → t'.tables.get n = t.tables.get n
  ttl : t'.ttl = t.ttl
  made : t'.made = t.made

/-- Collections are apart from each other, and every side table belongs to one of them. -/
structure Laid (t : Tenant F) : Prop where
  apart : ∀ {c c' columns rows columns' rows'}, t.tables.get c = some (.documents columns rows) →
    t.tables.get c' = some (.documents columns' rows') → c = c' ∨ Apart c c'
  owned : ∀ {n entries}, t.tables.get n = some (.side entries) →
    ∃ c columns rows f, n = sidePrefix c ++ f ∧ t.tables.get c = some (.documents columns rows)

variable {t t' t'' : Tenant F} {c : String} {v v' : View F}

theorem Shows.refl (h : Shows t c v) : Changes c v t t := ⟨h, fun _ _ _ => rfl, rfl, rfl⟩

theorem Changes.trans (h : Changes c v t t') (h' : Changes c v' t' t'') : Changes c v' t t'' :=
  ⟨h'.shows, fun n hn hside => (h'.others n hn hside).trans (h.others n hn hside),
    h'.ttl.trans h.ttl, h'.made.trans h.made⟩

theorem Shows.viewOf_eq (h : Shows t c v) : viewOf t c = v := by
  have hsides : (viewOf t c).sides = v.sides := by
    funext f
    unfold viewOf
    dsimp only
    rw [h.sides f]
    cases v.sides f with
    | none => rfl
    | some entries => rfl
  have hcolumns : (viewOf t c).columns = v.columns := by
    unfold viewOf
    rw [h.documents]
  have hrows : (viewOf t c).rows = v.rows := by
    unfold viewOf
    rw [h.documents]
  cases v
  cases hsides
  cases hcolumns
  cases hrows
  rfl

namespace Laid

theorem shows (h : Laid t) {columns : List Column} {rows : List (DocRow F)}
    (hc : t.tables.get c = some (.documents columns rows)) : Shows t c (viewOf t c) := by
  constructor
  · unfold viewOf
    rw [hc]
  · intro f
    change _ = (match t.tables.get (sidePrefix c ++ f) with
      | some (.side entries) => some entries
      | _ => none : Option (List SideRow)).map Table.side
    cases hside : t.tables.get (sidePrefix c ++ f) with
    | none => rfl
    | some content =>
      cases content with
      | side entries => rfl
      | documents columns' rows' =>
        exfalso
        rcases h.apart hc hside with heq | hapart
        · exact coll_ne_sideTable c f heq
        · exact hapart.coll_ne f rfl

theorem shows_other {w : View F} {d : String} (h : Laid t) (hv : Shows t c v)
    (hchanges : Changes c v' t t') (hne : d ≠ c) (hw : Shows t d w) : Shows t' d w := by
  have hapart : Apart c d := by
    rcases h.apart hv.documents hw.documents with heq | hapart
    · exact absurd heq.symm hne
    · exact hapart
  constructor
  · rw [hchanges.others d hne fun f => hapart.coll_ne f]
    exact hw.documents
  · intro f
    rw [hchanges.others _ (hapart.symm.coll_ne f).symm fun f' => (hapart.side_ne f' f).symm]
    exact hw.sides f

theorem documents_other {d : String} {columns : List Column} {rows : List (DocRow F)}
    (hchanges : Changes c v' t t') (hne : d ≠ c)
    (hd : t'.tables.get d = some (.documents columns rows)) :
    t.tables.get d = some (.documents columns rows) := by
  rw [← hchanges.others d hne]
  · exact hd
  · rintro f rfl
    rw [hchanges.shows.sides f] at hd
    cases hside : v'.sides f with
    | none =>
      rw [hside] at hd
      exact absurd hd nofun
    | some entries =>
      rw [hside] at hd
      exact absurd hd nofun

theorem changes (h : Laid t) (hv : Shows t c v) (hchanges : Changes c v' t t') : Laid t' := by
  have hbefore : ∀ {d columns rows}, t'.tables.get d = some (.documents columns rows) →
      ∃ columns' rows', t.tables.get d = some (.documents columns' rows') := by
    intro d columns rows hd
    by_cases hne : d = c
    · subst hne
      exact ⟨_, _, hv.documents⟩
    · exact ⟨_, _, documents_other hchanges hne hd⟩
  constructor
  · intro d d' columns rows columns' rows' hd hd'
    obtain ⟨_, _, hd⟩ := hbefore hd
    obtain ⟨_, _, hd'⟩ := hbefore hd'
    exact h.apart hd hd'
  · intro n entries hn
    by_cases hside : ∃ f, n = sidePrefix c ++ f
    · obtain ⟨f, rfl⟩ := hside
      exact ⟨c, _, _, f, rfl, hchanges.shows.documents⟩
    · have hne : n ≠ c := by
        rintro rfl
        exact absurd (hchanges.shows.documents.symm.trans hn) nofun
      rw [hchanges.others n hne fun f heq => hside ⟨f, heq⟩] at hn
      obtain ⟨d, columns, rows, f, rfl, hd⟩ := h.owned hn
      by_cases hdc : d = c
      · exact absurd ⟨f, hdc ▸ rfl⟩ hside
      · exact ⟨d, _, _, f, rfl, (h.shows_other hv hchanges hdc (h.shows hd)).documents⟩

end Laid

theorem put_changes {n : String} {content : Table F}
    (hn : n = c ∨ ∃ f, n = sidePrefix c ++ f)
    (hdocuments : (t.tables.insert n content).get c = some (.documents v.columns v.rows))
    (hsides : ∀ f, (t.tables.insert n content).get (sidePrefix c ++ f) =
      (v.sides f).map .side) :
    Changes c v t { t with tables := t.tables.insert n content } := by
  refine ⟨⟨hdocuments, hsides⟩, ?_, rfl, rfl⟩
  intro m hm hside
  have hne : m ≠ n := by
    rintro rfl
    rcases hn with rfl | ⟨f, rfl⟩
    · exact hm rfl
    · exact hside f rfl
  change (t.tables.insert n content).get m = _
  rw [OrderedMap.get_insert, if_neg hne]

theorem Shows.putDocuments (h : Shows t c v) (columns : List Column) (rows : List (DocRow F)) :
    Changes c { v with columns := columns, rows := rows } t
      { t with tables := t.tables.insert c (.documents columns rows) } := by
  apply put_changes (Or.inl rfl)
  · rw [OrderedMap.get_insert, if_pos rfl]
  · intro f
    rw [OrderedMap.get_insert, if_neg (coll_ne_sideTable c f).symm]
    exact h.sides f

def View.setSide (v : View F) (f : String) (entries : List SideRow) : View F :=
  { v with sides := Function.update v.sides f (some entries) }

theorem Shows.putSide (h : Shows t c v) (f : String) (entries : List SideRow) :
    Changes c (v.setSide f entries) t
      { t with tables := t.tables.insert (sidePrefix c ++ f) (.side entries) } := by
  apply put_changes (Or.inr ⟨f, rfl⟩)
  · rw [OrderedMap.get_insert, if_neg (coll_ne_sideTable c f)]
    exact h.documents
  · intro g
    rw [OrderedMap.get_insert]
    by_cases hg : g = f
    · subst hg
      simp [View.setSide]
    · rw [if_neg fun heq => hg (sideTable_injective c heq), h.sides g]
      simp [View.setSide, Function.update_of_ne hg]

@[simp] theorem holds_table {n : String} {post : Option (Table F) → Tenant F → Prop}
    {fail : CollError → Tenant F → Prop} :
    Holds (table n) t post fail ↔ post (t.tables.get n) t := Iff.rfl

section Statements

variable (K : Crates F)

theorem insertRow_spec (h : Shows t c v) (row : DocRow F) :
    Holds (insertRow K c row) t
      (fun _ t' => (∀ r ∈ v.rows, r.id ≠ row.id) ∧
        Changes c { v with rows := v.rows ++ [row] } t t')
      fun _ t' => t' = t := by
  unfold insertRow
  rw [Holds.bind_iff, holds_table, h.documents]
  dsimp only
  split_ifs with hid haccepts
  · exact rfl
  · refine ⟨?_, h.putDocuments _ _⟩
    intro r hr heq
    exact hid (List.any_eq_true.mpr ⟨r, hr, by simp [heq]⟩)
  · exact rfl

theorem updateRow_spec (h : Shows t c v) (id : String) (f : DocRow F → DocRow F) :
    Holds (updateRow K c id f) t
      (fun _ t' => Changes c { v with rows := changeRow id f v.rows } t t')
      fun _ t' => t' = t ∧
        ∃ row ∈ v.rows, row.id = id ∧ K.accepts v.columns v.rows (f row) = false := by
  unfold updateRow
  rw [Holds.bind_iff, holds_table, h.documents]
  dsimp only
  split_ifs with hall
  · exact h.putDocuments _ _
  · refine ⟨rfl, ?_⟩
    simpa using hall

theorem deleteRow_spec (h : Shows t c v) (id : String) :
    Holds (deleteById c id) t
      (fun _ t' => Changes c { v with rows := v.rows.filter (·.id != id) } t t')
      fun _ _ => False := by
  unfold deleteById
  rw [Holds.bind_iff, holds_table, h.documents]
  exact h.putDocuments _ _

theorem deleteSide_spec (h : Shows t c v) {f : String} {entries : List SideRow}
    (hf : v.sides f = some entries) (id : String) :
    Holds (deleteById (sidePrefix c ++ f) id) t
      (fun _ t' => Changes c (v.setSide f (entries.filter (·.id != id))) t t')
      fun _ _ => False := by
  unfold deleteById
  rw [Holds.bind_iff, holds_table, h.sides, hf]
  exact h.putSide _ _

theorem insertSideRow_spec (h : Shows t c v) {f : String} {entries : List SideRow}
    (hf : v.sides f = some entries) (row : SideRow) :
    Holds (insertSideRow (sidePrefix c ++ f) row) t
      (fun _ t' => Changes c (v.setSide f (entries ++ [row])) t t')
      fun _ _ => False := by
  unfold insertSideRow
  rw [Holds.bind_iff, holds_table, h.sides, hf]
  exact h.putSide _ _

theorem addColumn_spec (h : Shows t c v) (column : Column) :
    Holds (addColumn c column) t
      (fun _ t' => (∀ col ∈ v.columns, col.name ≠ column.name) ∧
        Changes c { v with
          columns := v.columns ++ [column]
          rows := v.rows.map fun row =>
            { row with cells := Function.update row.cells column.name .null } } t t')
      fun _ t' => t' = t := by
  unfold addColumn
  rw [Holds.bind_iff, holds_table, h.documents]
  dsimp only
  split_ifs with hname
  · exact rfl
  · refine ⟨?_, h.putDocuments _ _⟩
    intro col hcol heq
    exact hname (List.any_eq_true.mpr ⟨col, hcol, by simp [heq]⟩)

end Statements

@[simp] theorem View.setSide_setSide (v : View F) (f : String) (entries entries' : List SideRow) :
    (v.setSide f entries).setSide f entries' = v.setSide f entries' := by
  simp [View.setSide]

@[simp] theorem View.setSide_side (v : View F) (f : String) (entries : List SideRow) :
    (v.setSide f entries).sides f = some entries := by
  simp [View.setSide]

theorem View.setSide_self {f : String} {entries : List SideRow} (hf : v.sides f = some entries) :
    v.setSide f entries = v := by
  unfold View.setSide
  rw [← hf, Function.update_eq_self]

variable [Sums F]

def elementRows (id : String) (items : List (Json F)) : List SideRow :=
  (elementTexts items).map fun val => ⟨id, val⟩

theorem insertMultikeyElements_spec (h : Shows t c v) {f : String} {entries : List SideRow}
    (hf : v.sides f = some entries) (id : String) (items : List (Json F)) :
    Holds (insertMultikeyElements (sidePrefix c ++ f) id items) t
      (fun _ t' => Changes c (v.setSide f (entries ++ elementRows id items)) t t')
      fun _ _ => False := by
  unfold insertMultikeyElements elementRows
  apply Holds.forM_log fun (done : List String) t' =>
    Changes c (v.setSide f (entries ++ done.map fun val => SideRow.mk id val)) t t'
  · rw [List.map_nil, List.append_nil, View.setSide_self hf]
    exact h.refl
  · intro done val rest _ t' hchanges
    apply (insertSideRow_spec hchanges.shows (View.setSide_side _ _ _) ⟨id, val⟩).mono
    · intro _ t'' hstep
      rw [View.setSide_setSide] at hstep
      rw [List.map_append, ← List.append_assoc]
      exact hchanges.trans hstep
    · intro _ _ hfalse
      exact hfalse

omit [Sums F] in
theorem mem_sidesIn (h : Shows t c v) {n f : String} :
    (n, f) ∈ sidesIn t c ↔ n = sidePrefix c ++ f ∧ (v.sides f).isSome := by
  unfold sidesIn
  rw [List.mem_filterMap]
  constructor
  · rintro ⟨⟨m, content⟩, hentry, hmap⟩
    obtain ⟨rest, hrest, heq⟩ := Option.map_eq_some_iff.mp hmap
    rw [stripSide_eq_some] at hrest
    obtain ⟨rfl, rfl⟩ := Prod.mk.inj heq
    refine ⟨hrest, ?_⟩
    have hget := OrderedMap.mem_entries.mp hentry
    dsimp only at hrest
    rw [hrest, h.sides] at hget
    cases hside : v.sides (String.ofList rest) with
    | none =>
      rw [hside] at hget
      exact absurd hget nofun
    | some _ => rfl
  · rintro ⟨rfl, hsome⟩
    obtain ⟨entries, hentries⟩ := Option.isSome_iff_exists.mp hsome
    have hget := h.sides f
    rw [hentries] at hget
    refine ⟨_, OrderedMap.mem_entries.mpr hget, ?_⟩
    have hstrip : stripPrefix (sidePrefix c).toList (sidePrefix c ++ f).toList = some f.toList := by
      rw [stripPrefix_eq_some, String.toList_append]
    dsimp only
    rw [hstrip, Option.map_some, String.ofList_toList]

omit [Sums F] in
theorem sidesIn_pairwise (t : Tenant F) (c : String) :
    (sidesIn t c).Pairwise fun p q => p.1 ≠ q.1 := by
  unfold sidesIn
  apply List.Pairwise.filterMap _ _ t.tables.ascending
  intro e e' hlt p hp q hq heq
  obtain ⟨_, _, rfl⟩ := Option.map_eq_some_iff.mp hp
  obtain ⟨_, _, rfl⟩ := Option.map_eq_some_iff.mp hq
  exact hlt.ne heq

def View.changeSides (v : View F) (fields : List String)
    (g : String → List SideRow → List SideRow) :
    View F :=
  { v with sides := fun f => if f ∈ fields then (v.sides f).map (g f) else v.sides f }

def View.mapSides (v : View F) (g : String → List SideRow → List SideRow) : View F :=
  { v with sides := fun f => (v.sides f).map (g f) }

omit [Sums F] in
theorem View.changeSides_nil (g : String → List SideRow → List SideRow) : v.changeSides [] g =
    v := by
  simp [View.changeSides]

omit [Sums F] in
theorem View.changeSides_concat {fields : List String} {f : String} {entries : List SideRow}
    (hf : v.sides f = some entries) (g : String → List SideRow → List SideRow) :
    (v.changeSides fields g).setSide f (g f entries) = v.changeSides (fields ++ [f]) g := by
  unfold View.changeSides View.setSide
  congr 1
  funext f'
  by_cases heq : f' = f
  · subst heq
    simp [hf]
  · simp [heq]

omit [Sums F] in
theorem View.changeSides_all {fields : List String} (g : String → List SideRow → List SideRow)
    (h : ∀ f, (v.sides f).isSome → f ∈ fields) : v.changeSides fields g = v.mapSides g := by
  unfold View.changeSides View.mapSides
  congr 1
  funext f
  split_ifs with hf
  · rfl
  · cases hside : v.sides f with
    | none => rfl
    | some entries => exact absurd (h f (by rw [hside]; rfl)) hf

omit [Sums F] in
theorem sides_spec (h : Shows t c v) {body : String × String → CollM F PUnit}
    (g : String → List SideRow → List SideRow)
    (hbody : ∀ {t' : Tenant F} {w : View F} {f entries}, Shows t' c w → w.sides f = some entries →
      Holds (body (sidePrefix c ++ f, f)) t'
        (fun _ t'' => Changes c (w.setSide f (g f entries)) t' t'') fun _ _ => False) :
    Holds ((sidesIn t c).forM body) t
      (fun _ t' => Changes c (v.mapSides g) t t') fun _ _ => False := by
  have hloop : Holds ((sidesIn t c).forM body) t
      (fun _ t' => Changes c (v.changeSides ((sidesIn t c).map Prod.snd) g) t t')
      fun _ _ => False := by
    apply Holds.forM_log fun (done : List (String × String)) t' =>
      Changes c (v.changeSides (done.map Prod.snd) g) t t'
    · rw [List.map_nil, View.changeSides_nil]
      exact h.refl
    · rintro done ⟨n, f⟩ rest hsplit t' hchanges
      have hmem : (n, f) ∈ sidesIn t c := by
        rw [hsplit]
        exact List.mem_append_right _ List.mem_cons_self
      obtain ⟨rfl, hsome⟩ := (mem_sidesIn h).mp hmem
      obtain ⟨entries, hentries⟩ := Option.isSome_iff_exists.mp hsome
      have hnew : f ∉ done.map Prod.snd := by
        intro hf
        obtain ⟨⟨m, f'⟩, hdone, rfl⟩ := List.mem_map.mp hf
        have hm : (m, f') ∈ sidesIn t c := by
          rw [hsplit]
          exact List.mem_append_left _ hdone
        have hpairs := sidesIn_pairwise t c
        rw [hsplit, List.pairwise_append] at hpairs
        exact hpairs.2.2 _ hdone _ List.mem_cons_self ((mem_sidesIn h).mp hm).1
      have hf : (v.changeSides (done.map Prod.snd) g).sides f = some entries := by
        change (if f ∈ done.map Prod.snd then (v.sides f).map (g f) else v.sides f) = _
        rw [if_neg hnew, hentries]
      apply (hbody hchanges.shows hf).mono
      · intro _ t'' hstep
        rw [View.changeSides_concat hentries] at hstep
        rw [List.map_append]
        exact hchanges.trans hstep
      · intro _ _ hfalse
        exact hfalse
  apply hloop.mono
  · intro _ t' hchanges
    rw [View.changeSides_all g] at hchanges
    · exact hchanges
    · intro f hf
      exact List.mem_map_of_mem ((mem_sidesIn h).mpr ⟨rfl, hf⟩)
  · intro _ _ hfalse
    exact hfalse

end BlueDB.Collections
