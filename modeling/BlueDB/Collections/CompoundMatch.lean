import BlueDB.Collections.IndexMatch
import BlueDB.Collections.MatchFilter
import BlueDB.Lib.Joined

/-!
# Filters served by a compound index

A filter of equalities is collected in a map from paths to values. When the map has every
path of a compound index, the texts of their values are joined and compared with the
column of the index, and what is left is compared with the fields of the document. The
joined text says nothing of a field that is not there, and of separators in the texts
only how many there are.
-/

namespace BlueDB.Collections

open Formula (Truth)

variable {F : Type} [Sums F]

abbrev Equality (F : Type) := String × Json F

/-- Replaces the value that the path has in the map. -/
def insertEq (m : List (Equality F)) (path : String) (value : Json F) : List (Equality F) :=
  (path, value) :: m.filter (·.1 != path)

def collectEq (m : List (Equality F)) : Filter F → Option (List (Equality F))
  | .atom ⟨path, .eq, value⟩ => some (insertEq m path value)
  | _ => none

def eqMap : Filter F → Option (List (Equality F))
  | .truth => some []
  | .atom ⟨path, .eq, value⟩ => some (insertEq [] path value)
  | .all fs => fs.foldlM collectEq []
  | _ => none

def encodeCompound (parts : List String) : String := String.intercalate "\x00" parts

/-- The first index of which the map has all paths. -/
def coveringIndex (cdefs : List (String × List String)) (m : List (Equality F)) :
    Option (String × List String) :=
  cdefs.find? fun d => d.2.all fun path => (m.lookup path).isSome

def keyParts (m : List (Equality F)) (paths : List String) : List String :=
  paths.filterMap fun path => (m.lookup path).map Json.render

/-- The order in which a map is iterated over. -/
structure MapOrder (F : Type) where
  entries : List (Equality F) → List (Equality F)
  perm : ∀ m, (entries m).Perm m

def MapOrder.inserted : MapOrder F := ⟨id, fun m => List.Perm.refl m⟩

def leftovers (m : List (Equality F)) (paths : List String) : List (Comparison F) :=
  (m.filter fun c => c.1 ∉ paths).map fun c => ⟨c.1, .eq, c.2⟩

/-- `column = key AND (leftover) AND ...` -/
structure CompoundClause (F : Type) where
  column : String
  key : String
  leftovers : List (Predicate F)

def tryCompoundMatch (order : MapOrder F) (f : Filter F) (cdefs : List (String × List String)) :
    Option (CompoundClause F) :=
  if cdefs.isEmpty then none else do
    let m ← eqMap f
    if m.isEmpty then none else do
      let (ccol, paths) ← coveringIndex cdefs m
      return {
        column := ccol
        key := encodeCompound (keyParts m paths)
        leftovers := (leftovers (order.entries m) paths).map fun c => toSql (.atom c) }

/-- The fields of a row beside its index columns. -/
def DocRow.row (row : DocRow F) : Row F := ⟨row.id, row.doc⟩

namespace CompoundClause

def eval (e : Engine F) (row : DocRow F) (clause : CompoundClause F) : Except Failure Truth := do
  let t := e.relate (row.cells clause.column) .eq (.text clause.key)
  let t' ← Formula.evalAll (e.evalAtom [] row.row) clause.leftovers
  return t.and t'

def selects (e : Engine F) (row : DocRow F) (clause : CompoundClause F) : Except Failure Bool :=
  Formula.selected (clause.eval e row)

end CompoundClause

def equalities : Filter F → List (Equality F)
  | .atom ⟨path, .eq, value⟩ => [(path, value)]
  | .all fs => fs.filterMap fun
    | .atom ⟨path, .eq, value⟩ => some (path, value)
    | _ => none
  | _ => []

def HasText (doc : Json F) (c : Equality F) : Prop := deriveValue doc c.1 = some c.2.render

instance (doc : Json F) (c : Equality F) : Decidable (HasText doc c) :=
  inferInstanceAs (Decidable (_ = _))

def Satisfies (doc : Json F) (f : Filter F) : Prop := ∀ c ∈ equalities f, HasText doc c

instance (doc : Json F) (f : Filter F) : Decidable (Satisfies doc f) :=
  inferInstanceAs (Decidable (∀ c ∈ equalities f, HasText doc c))

/-- A map of equalities that stand in a list, with a value for every path of the list. -/
structure MapOf (m : List (Equality F)) (conds : List (Equality F)) : Prop where
  sound : ∀ c ∈ m, c ∈ conds
  total : ∀ c ∈ conds, ∃ value, (c.1, value) ∈ m

omit [Sums F] in
theorem MapOf.empty : MapOf ([] : List (Equality F)) [] :=
  ⟨fun _ hc => absurd hc List.not_mem_nil, fun _ hc => absurd hc List.not_mem_nil⟩

omit [Sums F] in
theorem MapOf.insert {m conds : List (Equality F)} (h : MapOf m conds) (path : String)
    (value : Json F) : MapOf (insertEq m path value) (conds ++ [(path, value)]) := by
  constructor
  · intro c hc
    rcases List.mem_cons.mp hc with rfl | hc
    · exact List.mem_append_right _ (List.mem_singleton_self _)
    · exact List.mem_append_left _ (h.sound c (List.mem_filter.mp hc).1)
  · intro c hc
    by_cases heq : c.1 = path
    · exact ⟨value, heq ▸ List.mem_cons_self⟩
    · have hold : c ∈ conds := by
        rcases List.mem_append.mp hc with hc | hc
        · exact hc
        · exact absurd (congrArg Prod.fst (List.mem_singleton.mp hc)) heq
      obtain ⟨w, hw⟩ := h.total c hold
      exact ⟨w, List.mem_cons_of_mem _ (List.mem_filter.mpr ⟨hw, bne_iff_ne.mpr heq⟩)⟩

omit [Sums F] in
theorem collectEq_spec {m m' conds : List (Equality F)} {f : Filter F} (h : MapOf m conds)
    (hm : collectEq m f = some m') : MapOf m' (conds ++ equalities f) := by
  unfold collectEq at hm
  split at hm
  · obtain rfl := Option.some.inj hm
    exact h.insert _ _
  · exact absurd hm nofun

omit [Sums F] in
theorem foldlM_collectEq {fs : List (Filter F)} {m m' conds : List (Equality F)}
    (h : MapOf m conds) (hm : fs.foldlM collectEq m = some m') :
    MapOf m' (conds ++ equalities (.all fs)) := by
  induction fs generalizing m conds with
  | nil =>
    obtain rfl := Option.some.inj hm
    exact (List.append_nil conds).symm ▸ h
  | cons f fs ih =>
    rw [List.foldlM_cons] at hm
    obtain ⟨m₁, hm₁, hrest⟩ := Option.bind_eq_some_iff.mp hm
    have hstep := ih (collectEq_spec h hm₁) hrest
    have hlist : equalities (.all (f :: fs)) = equalities f ++ equalities (.all fs) := by
      unfold collectEq at hm₁
      split at hm₁
      · rfl
      · exact absurd hm₁ nofun
    rw [hlist, ← List.append_assoc]
    exact hstep

omit [Sums F] in
theorem eqMap_spec {f : Filter F} {m : List (Equality F)} (h : eqMap f = some m) :
    MapOf m (equalities f) := by
  unfold eqMap at h
  split at h
  · obtain rfl := Option.some.inj h
    exact MapOf.empty
  · obtain rfl := Option.some.inj h
    exact MapOf.empty.insert _ _
  · exact foldlM_collectEq MapOf.empty h
  · exact absurd h nofun

theorem tryCompoundMatch_eq_some {order : MapOrder F} {f : Filter F}
    {cdefs : List (String × List String)} {clause : CompoundClause F}
    (h : tryCompoundMatch order f cdefs = some clause) :
    ∃ m ccol paths, eqMap f = some m ∧ coveringIndex cdefs m = some (ccol, paths) ∧
      clause = ⟨ccol, encodeCompound (keyParts m paths),
        (leftovers (order.entries m) paths).map fun c => toSql (.atom c)⟩ := by
  unfold tryCompoundMatch at h
  split_ifs at h
  obtain ⟨m, hm, h⟩ := Option.bind_eq_some_iff.mp h
  split_ifs at h
  obtain ⟨⟨ccol, paths⟩, hindex, h⟩ := Option.bind_eq_some_iff.mp h
  exact ⟨m, ccol, paths, hm, hindex, (Option.some.inj h).symm⟩

omit [Sums F] in
theorem mem_of_lookup {m : List (Equality F)} {path : String} {value : Json F}
    (h : m.lookup path = some value) : (path, value) ∈ m := by
  obtain ⟨l₁, l₂, rfl, -⟩ := List.lookup_eq_some_iff.mp h
  exact List.mem_append_right _ List.mem_cons_self

omit [Sums F] in
theorem coveringIndex_spec {cdefs : List (String × List String)} {m : List (Equality F)}
    {ccol : String} {paths : List String} (h : coveringIndex cdefs m = some (ccol, paths)) :
    (ccol, paths) ∈ cdefs ∧ ∀ path ∈ paths, ∃ value, m.lookup path = some value := by
  refine ⟨List.mem_of_find?_eq_some h, ?_⟩
  intro path hpath
  have hall : (paths.all fun path => (m.lookup path).isSome) = true :=
    (List.find?_eq_some_iff_append.mp h).1
  exact Option.isSome_iff_exists.mp (List.all_eq_true.mp hall path hpath)

omit [Sums F] in
theorem mem_leftovers {order : MapOrder F} {m : List (Equality F)} {paths : List String}
    {c : Comparison F} : c ∈ leftovers (order.entries m) paths ↔ c ∈ leftovers m paths := by
  unfold leftovers
  simp only [List.mem_map, List.mem_filter, (order.perm m).mem_iff]

/-- The comparison has a value on the row. -/
def Answers (e : Engine F) (row : DocRow F) (c : Comparison F) : Prop :=
  ∃ t, Formula.eval (e.evalAtom [] row.row) (toSql (.atom c)) = .ok t

def Meets (e : Engine F) (row : DocRow F) (c : Comparison F) : Prop :=
  Formula.eval (e.evalAtom [] row.row) (toSql (.atom c)) = .ok (some true)

def component (doc : Json F) (path : String) : String := (deriveValue doc path).getD ""

def separators (s : String) : ℕ := s.toList.count '\x00'

/-- A document of which the joined text and the left comparisons say what its fields
are. -/
structure Unmistaken (doc : Json F) (f : Filter F) (m : List (Equality F)) (paths : List String) :
    Prop where
  present : ∀ path ∈ paths, (deriveValue doc path).isSome = true
  separated : paths.map (fun path => separators (component doc path)) =
    (keyParts m paths).map separators
  /-- The text of a field is that of a value that it is equal to. -/
  texts : ∀ c ∈ m, c.1 ∉ paths → HasText doc c
  /-- No path has values of two texts. -/
  single : ∀ c ∈ equalities f, ∀ c' ∈ equalities f, c.1 = c'.1 → c.2.render = c'.2.render

structure Discerns (e : Engine F) (row : DocRow F) (f : Filter F) (m : List (Equality F))
    (paths : List String) : Prop where
  answers : ∀ c ∈ leftovers m paths, Answers e row c
  meets : Satisfies row.doc f → ∀ c ∈ leftovers m paths, Meets e row c
  unmistaken : compoundKey row.doc paths = encodeCompound (keyParts m paths) →
    (∀ c ∈ leftovers m paths, Meets e row c) → Unmistaken row.doc f m paths

/-- The condition on a row, for the index that the filter is served by. -/
def Discernible (e : Engine F) (f : Filter F) (cdefs : List (String × List String))
    (row : DocRow F) : Prop :=
  ∀ m ∈ eqMap f, ∀ d ∈ coveringIndex cdefs m, Discerns e row f m d.2

theorem length_keyParts {m : List (Equality F)} {paths : List String}
    (h : ∀ path ∈ paths, ∃ value, m.lookup path = some value) :
    (keyParts m paths).length = paths.length := by
  induction paths with
  | nil => rfl
  | cons path paths ih =>
    obtain ⟨⟨value, hvalue⟩, hrest⟩ := List.forall_mem_cons.mp h
    unfold keyParts
    rw [List.filterMap_cons, hvalue]
    exact congrArg Nat.succ (ih hrest)

theorem keyParts_eq_iff {m : List (Equality F)} {paths : List String} {text : String → String}
    (h : ∀ path ∈ paths, ∃ value, m.lookup path = some value) :
    paths.map text = keyParts m paths ↔
      ∀ path ∈ paths, ∀ value, m.lookup path = some value → text path = value.render := by
  induction paths with
  | nil => exact iff_of_true rfl nofun
  | cons path paths ih =>
    obtain ⟨⟨value, hvalue⟩, hrest⟩ := List.forall_mem_cons.mp h
    have hparts : keyParts m (path :: paths) = value.render :: keyParts m paths := by
      unfold keyParts
      rw [List.filterMap_cons, hvalue]
      rfl
    rw [hparts, List.map_cons, List.cons.injEq, ih hrest, List.forall_mem_cons, hvalue]
    constructor
    · rintro ⟨htext, htexts⟩
      refine ⟨?_, htexts⟩
      intro w hw
      obtain rfl := Option.some.inj hw
      exact htext
    · rintro ⟨htext, htexts⟩
      exact ⟨htext value rfl, htexts⟩

theorem encodeCompound_eq_iff {parts parts' : List String} :
    encodeCompound parts = encodeCompound parts' ↔
      ['\x00'].intercalate (parts.map String.toList) =
        ['\x00'].intercalate (parts'.map String.toList) := by
  unfold encodeCompound
  rw [← String.toList_inj, String.toList_intercalate, String.toList_intercalate]
  rfl

theorem encodeCompound_inj {parts parts' : List String} (hlength : parts.length = parts'.length)
    (h : encodeCompound parts = encodeCompound parts')
    (hseparators : parts.map separators = parts'.map separators) : parts = parts' := by
  apply List.map_injective_iff.mpr fun _ _ => String.toList_inj.mp
  apply Joined.eq_of_intercalate (a := '\x00')
  · rw [List.length_map, List.length_map, hlength]
  · exact encodeCompound_eq_iff.mp h
  · rw [List.map_map, List.map_map]
    exact hseparators

theorem encodeCompound_inj_of_not_mem {parts parts' : List String}
    (hlength : parts.length = parts'.length) (h : encodeCompound parts = encodeCompound parts')
    (hplain : ∀ part ∈ parts', '\x00' ∉ part.toList) : parts = parts' := by
  apply List.map_injective_iff.mpr fun _ _ => String.toList_inj.mp
  apply Joined.eq_of_intercalate_of_not_mem (a := '\x00')
  · rw [List.length_map, List.length_map, hlength]
  · exact encodeCompound_eq_iff.mp h
  · exact List.forall_mem_map.mpr hplain

variable {e : Engine F} {row : DocRow F} {f : Filter F} {m : List (Equality F)}
  {paths : List String}

theorem relate_text (s t : String) : e.relate (.text s) .eq (.text t) = some (decide (s = t)) := by
  change some (compare s t == .eq) = _
  congr 1
  rw [Bool.eq_iff_iff, beq_iff_eq, compare_eq_iff_eq, decide_eq_true_eq]

/-- A document that has the texts of the filter has its key. -/
theorem Satisfies.compoundKey (h : Satisfies row.doc f) (hm : MapOf m (equalities f))
    (hpaths : ∀ path ∈ paths, ∃ value, m.lookup path = some value) :
    compoundKey row.doc paths = encodeCompound (keyParts m paths) := by
  have hparts : paths.map (component row.doc) = keyParts m paths := by
    rw [keyParts_eq_iff hpaths]
    intro path _ value hvalue
    have htext := h _ (hm.sound _ (mem_of_lookup hvalue))
    unfold component
    rw [htext]
    rfl
  unfold encodeCompound
  rw [← hparts]
  rfl

theorem Satisfies.unmistaken (h : Satisfies row.doc f) (hm : MapOf m (equalities f))
    (hpaths : ∀ path ∈ paths, ∃ value, m.lookup path = some value) :
    Unmistaken row.doc f m paths where
  present path hpath := by
    obtain ⟨value, hvalue⟩ := hpaths path hpath
    rw [h _ (hm.sound _ (mem_of_lookup hvalue))]
    rfl
  separated := by
    have hparts : paths.map (component row.doc) = keyParts m paths := by
      rw [keyParts_eq_iff hpaths]
      intro path _ value hvalue
      unfold component
      rw [h _ (hm.sound _ (mem_of_lookup hvalue))]
      rfl
    rw [← hparts, List.map_map]
    rfl
  texts c hc _ := h c (hm.sound c hc)
  single c hc c' hc' heq := by
    have htext := h c hc
    have htext' := h c' hc'
    unfold HasText at htext htext'
    rw [heq, htext'] at htext
    exact (Option.some.inj htext).symm

/-- A document with the key and the left texts has all that the filter asks for. -/
theorem Unmistaken.satisfies (h : Unmistaken row.doc f m paths) (hm : MapOf m (equalities f))
    (hpaths : ∀ path ∈ paths, ∃ value, m.lookup path = some value)
    (hkey : compoundKey row.doc paths = encodeCompound (keyParts m paths)) :
    Satisfies row.doc f := by
  have hparts : paths.map (component row.doc) = keyParts m paths := by
    apply encodeCompound_inj
    · rw [List.length_map, length_keyParts hpaths]
    · exact hkey
    · rw [List.map_map]
      exact h.separated
  rw [keyParts_eq_iff hpaths] at hparts
  have hmap : ∀ c ∈ equalities f, ∃ value, (c.1, value) ∈ m ∧ HasText row.doc (c.1, value) := by
    intro c hc
    by_cases hpath : c.1 ∈ paths
    · obtain ⟨value, hvalue⟩ := hpaths c.1 hpath
      refine ⟨value, mem_of_lookup hvalue, ?_⟩
      obtain ⟨text, htext⟩ := Option.isSome_iff_exists.mp (h.present c.1 hpath)
      have hcomponent := hparts c.1 hpath value hvalue
      unfold component at hcomponent
      unfold HasText
      rw [htext] at hcomponent ⊢
      exact congrArg some hcomponent
    · obtain ⟨value, hvalue⟩ := hm.total c hc
      exact ⟨value, hvalue, h.texts _ hvalue hpath⟩
  intro c hc
  obtain ⟨value, hvalue, htext⟩ := hmap c hc
  have hsame := h.single c hc _ (hm.sound _ hvalue) rfl
  unfold HasText at htext ⊢
  rw [hsame]
  exact htext

theorem selects_eq_ok_iff {order : MapOrder F} {ccol key : String} {b : Bool}
    (hcell : row.cells ccol = .text (compoundKey row.doc paths)) :
    CompoundClause.selects e row ⟨ccol, key,
        (leftovers (order.entries m) paths).map fun c => toSql (.atom c)⟩ = .ok b ↔
      (∀ c ∈ leftovers m paths, Answers e row c) ∧
        (b = true ↔ compoundKey row.doc paths = key ∧ ∀ c ∈ leftovers m paths, Meets e row c) := by
  have hanswers : (∀ c ∈ leftovers m paths, Answers e row c) ↔
      ∃ t, Formula.evalAll (e.evalAtom [] row.row)
        ((leftovers (order.entries m) paths).map fun c => toSql (.atom c)) = .ok t := by
    rw [Formula.exists_evalAll_iff, List.forall_mem_map]
    exact forall_congr' fun c => imp_congr_left mem_leftovers.symm
  have hmeets : (∀ c ∈ leftovers m paths, Meets e row c) ↔
      Formula.evalAll (e.evalAtom [] row.row)
        ((leftovers (order.entries m) paths).map fun c => toSql (.atom c)) = .ok (some true) := by
    rw [Formula.evalAll_eq_true_iff, List.forall_mem_map]
    exact forall_congr' fun c => imp_congr_left mem_leftovers.symm
  rw [hanswers, hmeets]
  unfold CompoundClause.selects CompoundClause.eval
  dsimp only
  rw [hcell, relate_text]
  cases Formula.evalAll (e.evalAtom [] row.row)
      ((leftovers (order.entries m) paths).map fun c => toSql (.atom c)) with
  | error _ => exact iff_of_false nofun fun h => absurd h.1 nofun
  | ok t =>
    change Except.ok (Truth.and (some (decide (compoundKey row.doc paths = key))) t == some true) =
      Except.ok b ↔ _
    rw [Except.ok.injEq, Except.ok.injEq, ← Bool.coe_iff_coe, beq_iff_eq,
      Formula.Truth.and_eq_true_iff, Option.some.injEq, decide_eq_true_eq]
    constructor
    · intro h
      exact ⟨⟨t, rfl⟩, h.symm⟩
    · intro h
      exact h.2.symm

/-- The clause of a filter selects exactly the documents that have the texts of all its
values, just when these can be discerned. -/
theorem compoundMatch_selects_iff (e : Engine F) (order : MapOrder F) (f : Filter F)
    (cdefs : List (String × List String)) (clause : CompoundClause F)
    (hclause : tryCompoundMatch order f cdefs = some clause) (rows : List (DocRow F))
    (hcells : ∀ row ∈ rows, ∀ d ∈ cdefs, row.cells d.1 = .text (compoundKey row.doc d.2)) :
    (∀ row ∈ rows, clause.selects e row = .ok (decide (Satisfies row.doc f))) ↔
      ∀ row ∈ rows, Discernible e f cdefs row := by
  obtain ⟨m, ccol, paths, hm, hindex, rfl⟩ := tryCompoundMatch_eq_some hclause
  obtain ⟨hmem, hpaths⟩ := coveringIndex_spec hindex
  have hmap := eqMap_spec hm
  refine forall₂_congr fun row hrow => ?_
  rw [selects_eq_ok_iff (hcells row hrow _ hmem), decide_eq_true_eq]
  have hcondition : Discernible e f cdefs row ↔ Discerns e row f m paths := by
    unfold Discernible
    simp only [hm, Option.mem_some_iff, forall_eq', hindex]
  rw [hcondition]
  constructor
  · rintro ⟨hanswers, hselects⟩
    refine ⟨hanswers, fun h => (hselects.mp h).2, ?_⟩
    intro hkey hmeets
    exact (hselects.mpr ⟨hkey, hmeets⟩).unmistaken hmap hpaths
  · intro h
    refine ⟨h.answers, ?_, ?_⟩
    · intro hsatisfies
      exact ⟨hsatisfies.compoundKey hmap hpaths, h.meets hsatisfies⟩
    · rintro ⟨hkey, hmeets⟩
      exact (h.unmistaken hkey hmeets).satisfies hmap hpaths hkey

/-- Every path has one value, a text that is not empty and has no separator. -/
structure Plain (f : Filter F) : Prop where
  texts : ∀ c ∈ equalities f, ∃ s, c.2 = .string s ∧ s ≠ "" ∧ '\x00' ∉ s.toList
  single : ∀ c ∈ equalities f, ∀ c' ∈ equalities f, c.1 = c'.1 → c.2.render = c'.2.render

theorem eval_text (e : Engine F) (r : Row F) (path s : String) :
    Formula.eval (e.evalAtom [] r) (toSql (.atom ⟨path, .eq, .string s⟩)) =
      .ok (e.relate (textScalar (accessorText r path)) .eq (.text s)) := by
  have hvalue := value_cmpOperand_text (e := e) (r := r) path (.string s)
  have hcasts : casts path (.string s : Json F) = false := by
    rw [Bool.eq_false_iff]
    intro hcast
    exact absurd (casts_eq_true_iff.mp hcast).2 nofun
  have hkind := (kind_operands path (.string s : Json F)).1
  unfold textKind at hkind
  rw [hcasts] at hvalue hkind
  change Formula.eval _ (relationSql (cmpOperand path (.string s)) .eq (.string s)) = _
  rw [eval_relationSql, hkind, hvalue]
  rfl

theorem meets_text (hid : deriveValue row.doc "_id" = some row.id) (path s : String) :
    Meets e row ⟨path, .eq, .string s⟩ ↔ HasText row.doc (path, .string s) := by
  have haccessor : accessorText row.row path = deriveValue row.doc path := by
    unfold accessorText
    split_ifs with hpath
    · rw [hpath, hid]
      rfl
    · rfl
  unfold Meets HasText
  rw [eval_text, haccessor]
  change _ ↔ deriveValue row.doc path = some s
  cases deriveValue row.doc path with
  | none => exact iff_of_false nofun nofun
  | some t =>
    change Except.ok (e.relate (.text t) .eq (.text s)) = _ ↔ _
    rw [relate_text, Except.ok.injEq, Option.some.injEq, Option.some.injEq, decide_eq_true_eq]

theorem Plain.discernible (h : Plain f) (hid : deriveValue row.doc "_id" = some row.id)
    (cdefs : List (String × List String)) : Discernible e f cdefs row := by
  rintro m hm ⟨ccol, paths⟩ hindex
  have hmap := eqMap_spec hm
  obtain ⟨-, hpaths⟩ := coveringIndex_spec hindex
  have hleft : ∀ c ∈ leftovers m paths, ∃ path s, c = ⟨path, .eq, .string s⟩ ∧
      (path, .string s) ∈ m := by
    intro c hc
    obtain ⟨⟨path, value⟩, hmem, rfl⟩ := List.mem_map.mp hc
    have hm := (List.mem_filter.mp hmem).1
    obtain ⟨s, rfl, -⟩ := h.texts _ (hmap.sound _ hm)
    exact ⟨path, s, rfl, hm⟩
  constructor
  · intro c hc
    obtain ⟨path, s, rfl, -⟩ := hleft c hc
    exact ⟨_, eval_text e row.row path s⟩
  · intro hsatisfies c hc
    obtain ⟨path, s, rfl, hmem⟩ := hleft c hc
    exact (meets_text hid path s).mpr (hsatisfies _ (hmap.sound _ hmem))
  · intro hkey hmeets
    have hplain : ∀ part ∈ keyParts m paths, '\x00' ∉ part.toList := by
      intro part hpart
      obtain ⟨path, -, hpart⟩ := List.mem_filterMap.mp hpart
      obtain ⟨value, hvalue, rfl⟩ := Option.map_eq_some_iff.mp hpart
      obtain ⟨s, rfl, -, hs⟩ := h.texts _ (hmap.sound _ (mem_of_lookup hvalue))
      exact hs
    have hparts : paths.map (component row.doc) = keyParts m paths := by
      apply encodeCompound_inj_of_not_mem
      · rw [List.length_map, length_keyParts hpaths]
      · exact hkey
      · exact hplain
    have hcomponents := (keyParts_eq_iff hpaths).mp hparts
    refine ⟨?_, ?_, ?_, h.single⟩
    · intro path hpath
      obtain ⟨value, hvalue⟩ := hpaths path hpath
      obtain ⟨s, rfl, hne, -⟩ := h.texts _ (hmap.sound _ (mem_of_lookup hvalue))
      have hcomponent := hcomponents path hpath _ hvalue
      unfold component at hcomponent
      cases hfield : deriveValue row.doc path with
      | some _ => rfl
      | none =>
        rw [hfield] at hcomponent
        exact absurd hcomponent.symm hne
    · rw [← hparts, List.map_map]
      rfl
    · rintro ⟨path, value⟩ hc hpath
      obtain ⟨s, rfl, -⟩ := h.texts _ (hmap.sound _ hc)
      exact (meets_text hid path s).mp (hmeets _ (List.mem_map.mpr
        ⟨_, List.mem_filter.mpr ⟨hc, decide_eq_true hpath⟩, rfl⟩))

namespace Example

def cityAndStatus : List (String × List String) :=
  [(compoundCol ["city", "status"], ["city", "status"])]

def stored (doc : Json ℤ) (id : String) : DocRow ℤ :=
  ⟨id, doc, fun _ => .text (compoundKey doc ["city", "status"])⟩

theorem stored_cells (doc : Json ℤ) (id : String) : ∀ d ∈ cityAndStatus,
    (stored doc id).cells d.1 = .text (compoundKey doc d.2) := by
  intro d hd
  obtain rfl := List.mem_singleton.mp hd
  rfl

/-- `{"city": "Pune", "status": "open", "name": "Ada"}` -/
def openInPune : Filter ℤ := .all [.atom ⟨"city", .eq, .string "Pune"⟩,
  .atom ⟨"status", .eq, .string "open"⟩, .atom ⟨"name", .eq, .string "Ada"⟩]

def openInPuneClause : CompoundClause ℤ where
  column := compoundCol ["city", "status"]
  key := encodeCompound ["Pune", "open"]
  leftovers := [toSql (.atom ⟨"name", .eq, .string "Ada"⟩)]

theorem openInPune_served :
    tryCompoundMatch .inserted openInPune cityAndStatus = some openInPuneClause := rfl

def adaRow : DocRow ℤ := stored (.object [("_id", .string "a"), ("city", .string "Pune"),
  ("status", .string "open"), ("name", .string "Ada")]) "a"

def bobRow : DocRow ℤ := stored (.object [("_id", .string "b"), ("city", .string "Pune"),
  ("name", .string "Bob")]) "b"

theorem openInPune_plain : Plain openInPune := by
  constructor
  · intro c hc
    rcases hc with _ | ⟨_, _ | ⟨_, _ | ⟨_, hc⟩⟩⟩
    · exact ⟨_, rfl, by decide, by decide⟩
    · exact ⟨_, rfl, by decide, by decide⟩
    · exact ⟨_, rfl, by decide, by decide⟩
    · exact absurd hc List.not_mem_nil
  · decide

theorem openInPune_selects :
    openInPuneClause.selects engine adaRow = .ok (decide (Satisfies adaRow.doc openInPune)) ∧
    openInPuneClause.selects engine bobRow = .ok (decide (Satisfies bobRow.doc openInPune)) := by
  have hselects : ∀ row ∈ [adaRow, bobRow],
      openInPuneClause.selects engine row = .ok (decide (Satisfies row.doc openInPune)) := by
    refine (compoundMatch_selects_iff engine .inserted openInPune cityAndStatus openInPuneClause
      openInPune_served [adaRow, bobRow] ?_).mpr ?_
    · intro row hrow
      rcases hrow with _ | ⟨_, _ | ⟨_, hrow⟩⟩
      · exact stored_cells _ _
      · exact stored_cells _ _
      · exact absurd hrow List.not_mem_nil
    · intro row hrow
      apply openInPune_plain.discernible
      rcases hrow with _ | ⟨_, _ | ⟨_, hrow⟩⟩
      · decide +kernel
      · decide +kernel
      · exact absurd hrow List.not_mem_nil
  exact ⟨hselects _ List.mem_cons_self, hselects _ (List.mem_cons_of_mem _ List.mem_cons_self)⟩

/-- `{"city": "", "status": "open"}` -/
def openNowhere : Filter ℤ :=
  .all [.atom ⟨"city", .eq, .string ""⟩, .atom ⟨"status", .eq, .string "open"⟩]

def openNowhereClause : CompoundClause ℤ :=
  ⟨compoundCol ["city", "status"], encodeCompound ["", "open"], []⟩

/-- The document has no city. -/
def eveRow : DocRow ℤ := stored (.object [("_id", .string "e"), ("status", .string "open")]) "e"

/-- A missing city is taken for an empty one. -/
theorem openNowhere_selects : ¬∀ (order : MapOrder ℤ) (f : Filter ℤ)
    (cdefs : List (String × List String)) (clause : CompoundClause ℤ) (rows : List (DocRow ℤ)),
    tryCompoundMatch order f cdefs = some clause →
    (∀ row ∈ rows, ∀ d ∈ cdefs, row.cells d.1 = .text (compoundKey row.doc d.2)) →
    ∀ row ∈ rows, clause.selects engine row = .ok (decide (Satisfies row.doc f)) := by
  intro h
  have hserved : tryCompoundMatch .inserted openNowhere cityAndStatus = some openNowhereClause :=
    rfl
  have heve := h .inserted openNowhere cityAndStatus openNowhereClause [eveRow] hserved
    (fun row hrow => List.mem_singleton.mp hrow ▸ stored_cells _ _) eveRow
    (List.mem_singleton_self _)
  have hselected : openNowhereClause.selects engine eveRow = .ok true := by decide +kernel
  have hmissing : ¬Satisfies eveRow.doc openNowhere := by decide +kernel
  rw [hselected] at heve
  exact hmissing (of_decide_eq_true (Except.ok.inj heve).symm)

end Example

end BlueDB.Collections
