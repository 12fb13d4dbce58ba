import BlueDB.Collections.Verdicts
import BlueDB.Collections.IndexRuns

/-!
# Indexes match the documents

In a run whose requests meet the conditions every index holds what the documents say, in
every state of the run. A dotted path is enough to lose it.
-/

namespace BlueDB.Collections

variable {F : Type} [Sums F] {K : Crates F} {t t' : Tenant F} {c : String} {v v' : View F}

/-- Rows have gone, and nothing else has changed. -/
structure Fewer (t t' : Tenant F) : Prop where
  after : ∀ {c v}, Shows t c v → ∃ v', Shows t' c v'
  before : ∀ {c v'}, Shows t' c v' →
    ∃ v, Shows t c v ∧ (∀ row ∈ v'.rows, row ∈ v.rows) ∧ v'.sides = v.sides

omit [Sums F] in
theorem Fewer.refl (t : Tenant F) : Fewer t t :=
  ⟨fun h => ⟨_, h⟩, fun h => ⟨_, h, fun _ hrow => hrow, rfl⟩⟩

/-- The documents that a sweep deletes have nothing in the side tables. -/
structure SweepFits (K : Crates F) (now : ℤ) (t : Tenant F) : Prop where
  reads : ∀ c field seconds, (c, field, seconds) ∈ t.ttl.entries → K.tableName c = c
  bare : ∀ c field seconds, (c, field, seconds) ∈ t.ttl.entries →
    ∀ row ∈ (viewOf t c).rows, expired K field seconds now row.doc = true →
      ∀ f, ((viewOf t c).sides f).isSome → sideElements row.doc f = []

theorem removeRow_fewer (h : Good t) (h' : Good t') (hfewer : Fewer t t') {row : DocRow F}
    (hv : Shows t c v) (hv' : Shows t' c v') (hrow : row ∈ v.rows)
    (hbare : ∀ f, (v.sides f).isSome → sideElements row.doc f = []) :
    Holds (deleteById c row.id) t' (fun _ t'' => Good t'' ∧ Fewer t t'') fun _ _ => False := by
  obtain ⟨w, hw, hsubset, hsides⟩ := hfewer.before hv'
  have heq : w = v := hw.viewOf_eq.symm.trans hv.viewOf_eq
  subst heq
  apply (deleteRow_spec hv' row.id).mono
  · intro _ t'' hchanges
    refine ⟨h'.changes hv' hchanges ((h'.synced hv').removeRow ?_) ?_, ?_, ?_⟩
    · intro r hr hid f hf
      obtain rfl := row_eq (h.synced hv).ids (hsubset r hr) hrow hid
      rw [hsides] at hf
      exact hbare f hf
    · intro m hm
      exact hm.fewer (fun r hr => (List.mem_filter.mp hr).1) fun _ hf => hf
    · intro d u hu
      obtain ⟨u', hu'⟩ := hfewer.after hu
      by_cases hne : d = c
      · subst hne
        exact ⟨_, hchanges.shows⟩
      · exact ⟨u', h'.laid.shows_other hv' hchanges hne hu'⟩
    · intro d u hu
      by_cases hne : d = c
      · subst hne
        have hu' : u = { v' with rows := v'.rows.filter (·.id != row.id) } :=
          hu.viewOf_eq.symm.trans hchanges.shows.viewOf_eq
        subst hu'
        exact ⟨w, hw, fun r hr => hsubset r (List.mem_filter.mp hr).1, hsides⟩
      · exact hfewer.before (shows_before h'.laid hv' hchanges hne hu)
  · intro _ _ hfalse
    exact hfalse

theorem sweepTtl_fewer (h : Good t) (h' : Good t') (hfewer : Fewer t t') {field : String}
    {seconds now : ℤ} (hname : K.tableName c = c)
    (hbare : ∀ row ∈ (viewOf t c).rows, expired K field seconds now row.doc = true →
      ∀ f, ((viewOf t c).sides f).isSome → sideElements row.doc f = []) :
    Holds (sweepTtl K c field seconds now) t' (fun _ t'' => Good t'' ∧ Fewer t t'')
      fun _ _ => False := by
  unfold sweepTtl
  rw [Holds.bind_iff, hname, holds_documentRows]
  apply Holds.forM (fun t'' => Good t'' ∧ Fewer t t'') _ ⟨h', hfewer⟩
  rintro row hrow t₁ ⟨hgood, hfewer₁⟩
  split
  · next hexpired =>
    obtain ⟨v, hv, hsubset, -⟩ := hfewer.before (shows_of_mem h'.laid hrow)
    obtain ⟨v₁, hv₁⟩ := hfewer₁.after hv
    have hmem := hsubset row hrow
    rw [hv.viewOf_eq] at hbare
    exact removeRow_fewer h hgood hfewer₁ hv hv₁ hmem (hbare row hmem hexpired)
  · exact ⟨hgood, hfewer₁⟩

theorem sweepAllTtl_good (h : Good t) {now : ℤ} (hfits : SweepFits K now t) :
    Holds (sweepAllTtl K now) t (fun _ => Good) fun _ => Good := by
  unfold sweepAllTtl
  rw [Holds.bind_iff, Holds.get_iff]
  apply (@Holds.forM _ _ _ _ (fun _ _ => False) _ (fun t' => Good t' ∧ Fewer t t') _
    ⟨h, Fewer.refl t⟩ ?_).mono
  · intro _ _ hgood
    exact hgood.1
  · intro _ _ hfalse
    exact hfalse.elim
  · rintro ⟨c, field, seconds⟩ hentry t₁ ⟨hgood, hfewer⟩
    rw [Holds.tryCatch_iff]
    apply (sweepTtl_fewer h hgood hfewer (hfits.reads c field seconds hentry)
      (hfits.bare c field seconds hentry)).mono
    · intro _ _ hpost
      exact hpost
    · intro _ _ hfalse
      exact hfalse.elim

/-- The condition on a request in the state before it. -/
def Admissible (K : Crates F) (t : Tenant F) : Request F → Prop
  | .createIndex c keys options => Separate t c ∧ IndexFits K t c keys options
  | .insert c docs => Separate t c ∧ ∀ d ∈ docs, InsertFits (viewOf t c).columns d
  | .update c query _ upsert upd fresh => Separate t c ∧ Reads K query c ∧
      UpdateFits (viewOf t c).columns (viewOf t c).rows query upsert upd fresh
  | .delete c query _ => Separate t c ∧ Reads K query c
  | .sweep now => SweepFits K now t

theorem serve_good (h : Good t) {r : Request F} (hr : Admissible K t r) :
    Good (serve K t r) := by
  have hhandle : Holds (handle K r) t (fun _ => Good) fun _ => Good := by
    cases r with
    | createIndex c keys options => exact createIndex_good h hr.1 hr.2
    | insert c docs => exact insert_good h hr.1 hr.2
    | update c query multi upsert upd fresh => exact update_good h hr.1 hr.2.1 hr.2.2
    | delete c query multi => exact delete_good h hr.1 hr.2
    | sweep now => exact sweepAllTtl_good h hr
  unfold Holds at hhandle
  unfold serve stateAfter
  cases hres : handle K r t with
  | ok _ t' =>
    rw [hres] at hhandle
    exact hhandle
  | error _ t' =>
    rw [hres] at hhandle
    exact hhandle

def run (K : Crates F) (requests : List (Request F)) : Tenant F :=
  requests.foldl (serve K) Tenant.empty

def AllAdmissible (K : Crates F) : Tenant F → List (Request F) → Prop
  | _, [] => True
  | t, r :: rs => Admissible K t r ∧ AllAdmissible K (serve K t r) rs

theorem run_good {requests : List (Request F)} (h : AllAdmissible K Tenant.empty requests) :
    Good (run K requests) := by
  suffices hfold : ∀ t : Tenant F, Good t → AllAdmissible K t requests →
      Good (requests.foldl (serve K) t) by
    exact hfold _ Good.empty h
  clear h
  induction requests with
  | nil =>
    intro t ht _
    exact ht
  | cons r rs ih =>
    intro t ht hall
    exact ih _ (serve_good ht hall.1) hall.2

def IndexMatches (t : Tenant F) (c : String) (columns : List Column) (rows : List (DocRow F)) :
    Made → Prop
  | .path p => ∃ col ∈ columns, col.name = derivedCol p ∧ ∀ row ∈ rows,
      Stores (deriveTypedValue row.doc p col.type) (row.cells col.name)
  | .paths ps => ∃ col ∈ columns, col.name = compoundCol ps ∧ ∀ row ∈ rows,
      row.cells col.name = .text (compoundKey row.doc ps)
  | .field f => ∃ entries, t.tables.get (multikeySideTable c f) = some (.side entries) ∧
      (∀ row ∈ rows, ((entries.filter (·.id == row.id)).map (·.val)).Perm
        (elementTexts (fieldItems (row.doc.get f)))) ∧
      ∀ e ∈ entries, ∃ row ∈ rows, row.id = e.id

def IndexesMatch (t : Tenant F) : Prop :=
  ∀ c m, (c, m) ∈ t.made → ∃ columns rows, t.tables.get c = some (.documents columns rows) ∧
    IndexMatches t c columns rows m

theorem Good.indexesMatch (h : Good t) : IndexesMatch t := by
  intro c m hm
  obtain ⟨columns, rows, hc⟩ := h.recorded hm
  have hshows := h.laid.shows hc
  have hsynced := h.synced hshows
  have hhas := h.has hshows m hm
  refine ⟨_, _, hshows.documents, ?_⟩
  cases m with
  | path p =>
    obtain ⟨col, hcol, hname, hp, hcells⟩ := hhas
    refine ⟨col, hcol, hname, ?_⟩
    intro row hrow
    rw [hcells row hrow]
    apply stores_cell
    intro htype x hx
    exact hsynced.ranged row hrow col hcol htype p hp x hx
  | paths ps =>
    obtain ⟨col, hcol, hname, -, hcells⟩ := hhas
    exact ⟨col, hcol, hname, hcells⟩
  | field f =>
    obtain ⟨hdot, hsome⟩ := hhas
    obtain ⟨entries, hentries⟩ := Option.isSome_iff_exists.mp hsome
    have hcovers := hsynced.sides f entries hentries
    refine ⟨entries, ?_, ?_, hcovers.stored⟩
    · unfold multikeySideTable
      rw [flattened_eq hdot, hshows.sides f, hentries]
      rfl
    · intro row hrow
      rw [hcovers.elements row hrow]
      exact List.Perm.refl _

/-- When every request meets its condition, all indexes match the documents. -/
theorem indexes_match (K : Crates F) (requests : List (Request F))
    (h : AllAdmissible K Tenant.empty requests) : IndexesMatch (run K requests) :=
  (run_good h).indexesMatch

namespace Example

instance sums : Sums ℤ where
  add x y := some (x + y)

def crates : Crates ℤ where
  accepts _ _ _ := true
  tableName name := name
  parseTime := String.toInt?
  truncate f := f

def plain : IndexOptions := ⟨false, none, none, false⟩

/-- `{"address": {"city": "Pune"}}` -/
def customer : Json ℤ := .object [("address", .object [("city", .string "Pune")])]

def dotted : List (Request ℤ) :=
  [.createIndex "customers" ["address.city"] plain, .insert "customers" [(customer, "a")]]

/-- The documents of which the column says NULL although they have a value. -/
def missed (t : Tenant ℤ) (c p : String) : Bool :=
  (viewOf t c).columns.all fun col => (viewOf t c).rows.any fun row =>
    (deriveTypedValue row.doc p col.type).isSome && (row.cells col.name).kind == .null

theorem not_indexMatches {t : Tenant ℤ} {c p : String} (hmade : (c, Made.path p) ∈ t.made)
    (hmissed : missed t c p = true) : ¬IndexesMatch t := by
  intro h
  obtain ⟨columns, rows, hc, col, hcol, -, hstores⟩ := h c _ hmade
  have hview : (viewOf t c).columns = columns ∧ (viewOf t c).rows = rows := by
    unfold viewOf
    rw [hc]
    exact ⟨rfl, rfl⟩
  unfold missed at hmissed
  rw [hview.1, hview.2] at hmissed
  obtain ⟨row, hrow, hboth⟩ := List.any_eq_true.mp (List.all_eq_true.mp hmissed col hcol)
  rw [Bool.and_eq_true] at hboth
  obtain ⟨value, hvalue⟩ := Option.isSome_iff_exists.mp hboth.1
  have hstored := hstores row hrow
  rw [hvalue] at hstored
  cases hcell : row.cells col.name with
  | null =>
    rw [hcell] at hstored
    cases value with
    | number n => cases n <;> exact hstored
    | _ => exact hstored
  | _ =>
    rw [hcell] at hboth
    exact absurd hboth.2 nofun

/-- The write reads the path `address_city` off the name of the column. -/
theorem indexes_not_match : ¬∀ requests : List (Request ℤ), IndexesMatch (run crates requests) := by
  intro h
  apply not_indexMatches (t := run crates dotted) (c := "customers") (p := "address.city")
  · decide +kernel
  · decide +kernel
  · exact h dotted

def ada : Json ℤ := .object [("city", .string "Pune")]

/-- An index on the city, between two customers. -/
def flat : List (Request ℤ) :=
  [.insert "customers" [(ada, "a")], .createIndex "customers" ["city"] plain,
    .insert "customers" [(customer, "b")]]

theorem separate_of_names {t : Tenant ℤ} {c : String} (h : t.tables.entries.map Prod.fst = [c]) :
    Separate t c := by
  intro d columns rows hd
  have hmem : d ∈ t.tables.entries.map Prod.fst :=
    List.mem_map_of_mem (OrderedMap.mem_entries.mpr hd)
  rw [h] at hmem
  exact Or.inl (List.mem_singleton.mp hmem)

theorem ranged_of_types {columns : List Column} (h : columns.all (·.type != .number) = true)
    (doc : Json ℤ) : Ranged columns doc := by
  intro col hcol htype
  have hne := List.all_eq_true.mp h col hcol
  rw [htype] at hne
  exact absurd hne nofun

theorem flat_matches : IndexesMatch (run crates flat) := by
  apply indexes_match crates flat
  refine ⟨⟨fun _ _ _ h => absurd h nofun, ?_⟩, ⟨separate_of_names (by decide +kernel), ?_⟩,
    ⟨separate_of_names (by decide +kernel), ?_⟩, trivial⟩
  · intro d _ fields _
    exact ranged_of_types (by decide +kernel) _
  · refine ⟨rfl, fun h => absurd h (by decide), ?_⟩
    rintro path heq - -
    obtain rfl := (List.singleton_injective heq).symm
    refine ⟨by decide, ?_⟩
    intro _ type htype
    have htext : inferIndexType (sampleValues (viewOf (serve crates Tenant.empty
        (.insert "customers" [(ada, "a")])) "customers").rows "city") = .text := by
      decide +kernel
    obtain rfl := htext.symm.trans (Except.ok.inj htype)
    refine ⟨fun hnumber => absurd hnumber nofun, fun _ done hrefused => ?_⟩
    obtain ⟨_, _, _, _, _, _, _, _, haccepts⟩ := hrefused
    exact absurd haccepts nofun
  · intro d _ fields _
    exact ranged_of_types (by decide +kernel) _

end Example

end BlueDB.Collections
