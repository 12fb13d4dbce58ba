import BlueDB.Collections.Verdicts

/-!
# Filters of the aggregation pipeline

A `$match` stage lowers the filter that `find` lowers to SQL to an expression of the
analytical engine: it names a dotted path as one key, has no test for NULL beside `$ne`
and `$nin`, has the text of a null for a null, and takes an empty list for a condition
that always holds. The two select the same documents when no comparison meets with one
of these.
-/

namespace BlueDB.Collections

open Formula (Truth)

variable {F : Type} [Doubles F] {e : Engine F} {r : Row F}

mutual

/-- The expression of a filter; it is refused with a pattern anywhere. -/
def toDfExpr : Filter F → Option (Predicate F)
  | .truth => some .truth
  | .atom c => cmpDfExpr c
  | .all fs => if fs.isEmpty then some .truth else (toDfExprs fs).map .all
  | .any fs => if fs.isEmpty then some .truth else (toDfExprs fs).map .any
  | .neg f => (toDfExpr f).map .neg

def toDfExprs : List (Filter F) → Option (List (Predicate F))
  | [] => some []
  | f :: fs =>
    match toDfExpr f, toDfExprs fs with
    | some p, some ps => some (p :: ps)
    | _, _ => none

end

def dfLeaf (c : Comparison F) : Predicate F := (cmpDfExpr c).getD (.atom .blank)

def NoPattern (f : Filter F) : Prop := ∀ c, Formula.Part (.atom c) f → c.op ≠ .regex

theorem toDfExpr_eq {f : Filter F} (h : NoPattern f) :
    toDfExpr f = some (Formula.lower .truth dfLeaf f) := by
  have hlist : ∀ {fs : List (Filter F)},
      (∀ f ∈ fs, toDfExpr f = some (Formula.lower .truth dfLeaf f)) →
      toDfExprs fs = some (Formula.lowerList .truth dfLeaf fs) := by
    intro fs hfs
    induction fs with
    | nil => rfl
    | cons f fs ih =>
      obtain ⟨hf, hrest⟩ := List.forall_mem_cons.mp hfs
      simp only [toDfExprs, Formula.lowerList, hf, ih hrest]
  induction f using Formula.induct with
  | truth => rfl
  | atom c =>
    have hop := h c (Formula.Part.refl _)
    simp only [toDfExpr, Formula.lower, dfLeaf]
    cases hcase : c.op with
    | regex => exact absurd hcase hop
    | _ => simp only [cmpDfExpr, hcase, Option.getD_some]
  | all fs ih =>
    simp only [toDfExpr, Formula.lower]
    split_ifs
    · rfl
    · rw [hlist fun f hf => ih f hf fun c hc => h c (Formula.Part.all hf hc)]
      rfl
  | any fs ih =>
    simp only [toDfExpr, Formula.lower]
    split_ifs
    · rfl
    · rw [hlist fun f hf => ih f hf fun c hc => h c (Formula.Part.any hf hc)]
      rfl
  | neg f ih =>
    simp only [toDfExpr, Formula.lower]
    rw [ih fun c hc => h c (Formula.Part.neg hc)]
    rfl

/-- Whether a `$match` stage selects the row. -/
def Engine.matchSelects (e : Engine F) (r : Row F) (f : Filter F) : Except Failure Bool :=
  match toDfExpr f with
  | some p => e.selects [] r p
  | none => throw .pattern

def accessorText (r : Row F) (path : String) : Option String :=
  if path = "_id" then some r.id else (field r.doc path).map Json.render

def keyText (r : Row F) (path : String) : Option String :=
  if path = "_id" then some r.id else (r.doc.get path).map Json.render

def textScalar (s : Option String) : Scalar F := (s.map Scalar.text).getD .null

/-- A text, or the number it is cast to. -/
def readText (e : Engine F) (cast : Bool) (s : Option String) : Except Failure (Scalar F) :=
  if cast then
    match s with
    | some s =>
      match e.castDouble s with
      | some f => .ok (.double f)
      | none => throw .cast
    | none => .ok .null
  else .ok (textScalar s)

def casts (path : String) (value : Json F) : Bool := decide (path ≠ "_id") && isNumeric value

def textKind (path : String) (value : Json F) : Kind :=
  if casts path value then .double else .text

theorem value_sortAccessor (path : String) :
    e.value [] r (sortAccessor path) = .ok (textScalar (accessorText r path)) := by
  unfold sortAccessor accessorText
  split_ifs
  · rfl
  · unfold Engine.value field
    cases (segments path).foldlM (fun v key => v.get key) r.doc <;> rfl

theorem value_pathExpr (path : String) :
    e.value [] r (pathExpr path) = .ok (textScalar (keyText r path)) := by
  unfold pathExpr keyText
  split_ifs
  · rfl
  · unfold Engine.value
    cases r.doc.get path <;> rfl

theorem value_cast {o : Operand} {s : Option String} (h : e.value [] r o = .ok (textScalar s)) :
    e.value [] r (.cast o) = readText e true s := by
  simp only [Engine.value, h]
  cases s <;> rfl

omit [Doubles F] in
theorem casts_eq_true_iff {path : String} {value : Json F} :
    casts path value = true ↔ path ≠ "_id" ∧ isNumeric value = true := by
  unfold casts
  rw [Bool.and_eq_true, decide_eq_true_eq]

theorem value_cmpOperand_text (path : String) (value : Json F) :
    e.value [] r (cmpOperand path value) =
      readText e (casts path value) (accessorText r path) := by
  unfold cmpOperand
  by_cases hcast : casts path value = true
  · rw [if_pos (casts_eq_true_iff.mp hcast), hcast]
    exact value_cast (value_sortAccessor path)
  · rw [if_neg fun h => hcast (casts_eq_true_iff.mpr h), Bool.eq_false_iff.mpr hcast]
    exact value_sortAccessor path

theorem value_pathExprFor (path : String) (value : Json F) :
    e.value [] r (pathExprFor path value) = readText e (casts path value) (keyText r path) := by
  unfold pathExprFor
  by_cases hcast : casts path value = true
  · rw [if_pos (casts_eq_true_iff.mp hcast), hcast]
    exact value_cast (value_pathExpr path)
  · rw [if_neg fun h => hcast (casts_eq_true_iff.mpr h), Bool.eq_false_iff.mpr hcast]
    exact value_pathExpr path

omit [Doubles F] in
theorem kind_operands (path : String) (value : Json F) :
    Engine.kind [] (cmpOperand path value) = textKind path value ∧
      Engine.kind [] (pathExprFor path value) = textKind path value := by
  unfold cmpOperand pathExprFor textKind
  by_cases hcast : casts path value = true
  · have hcond := casts_eq_true_iff.mp hcast
    rw [if_pos hcond, if_pos hcond, if_pos hcast]
    exact ⟨rfl, rfl⟩
  · have hcond := fun h => hcast (casts_eq_true_iff.mpr h)
    rw [if_neg hcond, if_neg hcond, if_neg hcast]
    unfold sortAccessor pathExpr
    split_ifs
    · exact ⟨rfl, rfl⟩
    · exact ⟨rfl, rfl⟩

def dfLiterals (op : Cmp) (value : Json F) : List (Scalar F) :=
  match op with
  | .isIn | .nin => (value.asArray.getD []).map jsonToLit
  | .exists_ => []
  | _ => [jsonToLit value]

/-- What an operator of the engine says of a value. -/
def Engine.passesDf (e : Engine F) (op : Cmp) (value : Json F) (x : Scalar F) : Truth :=
  match op with
  | .eq => e.relate x .eq (jsonToLit value)
  | .ne => e.relate x .ne (jsonToLit value)
  | .gt => e.relate x .gt (jsonToLit value)
  | .gte => e.relate x .gte (jsonToLit value)
  | .lt => e.relate x .lt (jsonToLit value)
  | .lte => e.relate x .lte (jsonToLit value)
  | .isIn => e.isIn x (dfLiterals op value)
  | .nin => (e.isIn x (dfLiterals op value)).not
  | .exists_ => some ((x.kind == .null) != value.asBool.getD true)
  | .regex => none

theorem jsonToLit_eq {v : Json F} (h : (jsonToScalar v).kind ≠ .null) :
    jsonToLit v = jsonToScalar v := by
  cases v with
  | null => exact absurd rfl h
  | _ => rfl

theorem jsonToScalar_null {v : Json F} (h : (jsonToScalar v).kind = .null) : v = .null := by
  cases v with
  | null => rfl
  | number n =>
    unfold jsonToScalar at h
    dsimp only at h
    cases hi : n.asI64 with
    | some _ => rw [hi] at h; exact absurd h nofun
    | none => rw [hi] at h; exact absurd h nofun
  | _ => exact absurd h nofun

/-- The literals of the engine are those of SQL, with a text for a null. -/
def litOf (y : Scalar F) : Scalar F :=
  match y with
  | .null => .text (Json.null : Json F).write
  | y => y

theorem jsonToLit_eq_litOf (v : Json F) : jsonToLit v = litOf (jsonToScalar v) := by
  by_cases hnull : (jsonToScalar v).kind = .null
  · obtain rfl := jsonToScalar_null hnull
    rfl
  · rw [jsonToLit_eq hnull]
    cases hcase : jsonToScalar v with
    | null => rw [hcase] at hnull; exact absurd rfl hnull
    | _ => rfl

theorem dfLiterals_eq (op : Cmp) (value : Json F) :
    dfLiterals op value = (literals op value).map litOf := by
  have hitems : (value.asArray.getD []).map jsonToLit =
      ((value.asArray.getD []).map jsonToScalar).map litOf := by
    rw [List.map_map]
    exact List.map_congr_left fun v _ => jsonToLit_eq_litOf v
  cases op with
  | isIn => exact hitems
  | nin => exact hitems
  | exists_ => rfl
  | _ => exact congrArg (fun y => [y]) (jsonToLit_eq_litOf value)

theorem litOf_kind (y : Scalar F) : (litOf y).kind ≠ .null := by
  cases y <;> exact nofun

theorem litOf_of_ne {y : Scalar F} (h : y.kind ≠ .null) : litOf y = y := by
  cases y with
  | null => exact absurd rfl h
  | _ => rfl

def HasNull (op : Cmp) (value : Json F) : Prop := ∃ y ∈ literals op value, y.kind = .null

theorem dfLiterals_eq_literals {op : Cmp} {value : Json F} (h : ¬HasNull op value) :
    dfLiterals op value = literals op value := by
  rw [dfLiterals_eq]
  exact (List.map_congr_left fun y hy => litOf_of_ne fun hnull => h ⟨y, hy, hnull⟩).trans
    (List.map_id _)

theorem casts_of_hasNull {op : Cmp} {path : String} {value : Json F} (h : HasNull op value) :
    casts path value = false := by
  rw [Bool.eq_false_iff]
  intro hcast
  have hnumeric := (casts_eq_true_iff.mp hcast).2
  obtain ⟨y, hy, hnull⟩ := h
  have hitems : ∀ items : List (Json F), value = .array items → y ∉ items.map jsonToScalar := by
    rintro items rfl hmem
    obtain ⟨v, hv, rfl⟩ := List.mem_map.mp hmem
    obtain rfl := jsonToScalar_null hnull
    have hall := (Bool.and_eq_true _ _ ▸ hnumeric : _ ∧ _).2
    exact absurd (List.all_eq_true.mp hall _ hv) nofun
  have hlist : y ∉ (value.asArray.getD []).map jsonToScalar := by
    cases value with
    | array items => exact hitems items rfl
    | _ => exact List.not_mem_nil
  have hone : y ≠ jsonToScalar value := by
    rintro rfl
    obtain rfl := jsonToScalar_null hnull
    exact absurd hnumeric nofun
  cases op with
  | isIn => exact hlist hy
  | nin => exact hlist hy
  | exists_ => exact absurd hy List.not_mem_nil
  | _ => exact hone (List.mem_singleton.mp hy)

theorem comparable_dfLiterals (op : Cmp) (path : String) (value : Json F) :
    ((dfLiterals op value).all fun y => e.comparable (textKind path value) y.kind) =
      (literals op value).all fun y => e.comparable (textKind path value) y.kind := by
  by_cases hnull : HasNull op value
  · have hkind : textKind path value = .text := by
      unfold textKind
      rw [casts_of_hasNull hnull]
      rfl
    rw [hkind, dfLiterals_eq, List.all_map]
    refine List.all_congr rfl fun y => ?_
    cases y with
    | null => simp [litOf, Scalar.kind, Engine.comparable]
    | _ => rfl
  · rw [dfLiterals_eq_literals hnull]

theorem Truth.or_eq_true {t t' : Truth} :
    t.or t' = some true ↔ t = some true ∨ t' = some true := by
  rcases t with _ | _ | _ <;> rcases t' with _ | _ | _ <;> decide

theorem Truth.or_eq_false {t t' : Truth} :
    t.or t' = some false ↔ t = some false ∧ t' = some false := by
  rcases t with _ | _ | _ <;> rcases t' with _ | _ | _ <;> decide

theorem Truth.not_injective : Function.Injective Formula.Truth.not := by
  intro t t' h
  rcases t with _ | _ | _ <;> rcases t' with _ | _ | _ <;> first | rfl | exact absurd h nofun

section

variable {x : Scalar F} {ys : List (Scalar F)}

theorem isIn_eq_true : e.isIn x ys = some true ↔ ∃ y ∈ ys, e.relate x .eq y = some true := by
  induction ys with
  | nil => simp [Engine.isIn]
  | cons y ys ih =>
    change (e.relate x .eq y).or (e.isIn x ys) = some true ↔ _
    rw [Truth.or_eq_true, ih, List.exists_mem_cons_iff]

theorem isIn_eq_false : e.isIn x ys = some false ↔ ∀ y ∈ ys, e.relate x .eq y = some false := by
  induction ys with
  | nil => simp [Engine.isIn]
  | cons y ys ih =>
    change (e.relate x .eq y).or (e.isIn x ys) = some false ↔ _
    rw [Truth.or_eq_false, ih, List.forall_mem_cons]

theorem relate_to_null {y : Scalar F} (hy : y.kind = .null) (rel : Relation) :
    e.relate x rel y = none := by
  cases y with
  | null => cases x <;> rfl
  | _ => exact absurd hy nofun

/-- A value is in a list and in its rendering for the engine alike, when the list has no
null, or when the value is met. -/
theorem isIn_litOf_iff (hx : x.kind ≠ .null) :
    e.isIn x ys = e.isIn x (ys.map litOf) ↔
      ((∃ y ∈ ys, y.kind = .null) → ∃ y ∈ ys, e.relate x .eq y = some true) := by
  have hnonnull : ∀ {y}, e.relate x .eq y = some true → y.kind ≠ .null := by
    intro y hy hnull
    rw [relate_to_null hnull] at hy
    exact absurd hy nofun
  have hhit : (∃ y ∈ ys, e.relate x .eq y = some true) →
      e.isIn x ys = e.isIn x (ys.map litOf) := by
    rintro ⟨y, hmem, hy⟩
    rw [isIn_eq_true.mpr ⟨y, hmem, hy⟩]
    refine (isIn_eq_true.mpr ⟨litOf y, List.mem_map_of_mem hmem, ?_⟩).symm
    rwa [litOf_of_ne (hnonnull hy)]
  by_cases hnull : ∃ y ∈ ys, y.kind = .null
  · constructor
    · intro heq _
      by_contra hnone
      obtain ⟨b, hb⟩ := @isIn_some _ _ e _ (ys.map litOf) hx fun y hy => by
        obtain ⟨z, -, rfl⟩ := List.mem_map.mp hy
        exact litOf_kind z
      rw [hb] at heq
      cases b with
      | true => exact hnone (isIn_eq_true.mp heq)
      | false =>
        obtain ⟨y, hmem, hy⟩ := hnull
        have hfalse := isIn_eq_false.mp heq y hmem
        rw [relate_to_null hy] at hfalse
        exact absurd hfalse nofun
    · intro h
      exact hhit (h hnull)
  · refine iff_of_true ?_ fun h => absurd h hnull
    have hsame : ys.map litOf = ys :=
      (List.map_congr_left fun y hy => litOf_of_ne fun hn => hnull ⟨y, hy, hn⟩).trans
        (List.map_id _)
    rw [hsame]

theorem relate_litOf_iff {y : Scalar F} (rel : Relation) :
    e.relate x rel y = e.relate x rel (litOf y) ↔ (y.kind = .null → x.kind = .null) := by
  by_cases hy : y.kind = .null
  · rw [relate_to_null hy]
    by_cases hx : x.kind = .null
    · refine iff_of_true ?_ fun _ => hx
      cases x with
      | null => exact (relate_null rel _).symm
      | _ => exact absurd hx nofun
    · obtain ⟨b, hb⟩ := relate_some (e := e) hx (litOf_kind y) rel
      rw [hb]
      exact iff_of_false nofun fun h => hx (h hy)
  · rw [litOf_of_ne hy]
    exact iff_of_true rfl fun h => absurd h hy

end

/-- When the two say the same of a value: no null among the literals but for a value
that is NULL, or that is met in the list, and no NULL with `$ne` and `$nin`. -/
def Coincides (e : Engine F) (op : Cmp) (value : Json F) (x : Scalar F) : Prop :=
  let met := ∃ y ∈ literals op value, e.relate x .eq y = some true
  match op with
  | .ne => x.kind ≠ .null ∧ ¬HasNull op value
  | .nin => x.kind ≠ .null ∧ (HasNull op value → met)
  | .isIn => HasNull op value → x.kind = .null ∨ met
  | _ => HasNull op value → x.kind = .null

theorem hasNull_singleton {op : Cmp} {value : Json F}
    (h : literals op value = [jsonToScalar value]) :
    HasNull op value ↔ (jsonToScalar value).kind = .null := by
  unfold HasNull
  rw [h]
  simp

theorem passes_eq_iff {op : Cmp} {value : Json F} {x : Scalar F} (hexists : op ≠ .exists_)
    (hregex : op ≠ .regex) (hne : literals op value ≠ []) :
    e.passes op value x = e.passesDf op value x ↔ Coincides e op value x := by
  have hrelation : ∀ rel, literals op value = [jsonToScalar value] →
      (e.relate x rel (jsonToScalar value) = e.relate x rel (jsonToLit value) ↔
        (HasNull op value → x.kind = .null)) := by
    intro rel hsingle
    rw [jsonToLit_eq_litOf, relate_litOf_iff, hasNull_singleton hsingle]
  have hlist : x.kind ≠ .null → (e.isIn x (literals op value) = e.isIn x (dfLiterals op value) ↔
      (HasNull op value → ∃ y ∈ literals op value, e.relate x .eq y = some true)) := by
    intro hx
    rw [dfLiterals_eq]
    exact isIn_litOf_iff hx
  have hpresent : x.kind ≠ .null → ∀ t : Truth, t.or (some (x.kind == .null)) = t := by
    intro hx t
    rw [beq_eq_false_iff_ne.mpr hx]
    exact Truth.or_false t
  cases op with
  | exists_ => exact absurd rfl hexists
  | regex => exact absurd rfl hregex
  | eq | gt | gte | lt | lte => exact hrelation _ rfl
  | ne =>
    by_cases hx : x.kind = .null
    · refine iff_of_false ?_ fun h => h.1 hx
      cases x with
      | null =>
        rw [passes_null_of_lenient (Or.inl rfl)]
        simp only [Engine.passesDf, relate_null]
        rintro ⟨⟩
      | _ => cases hx
    · simp only [Engine.passes, Engine.passesDf, hpresent hx]
      rw [hrelation .ne rfl]
      exact ⟨fun h => ⟨hx, fun hnull => hx (h hnull)⟩, fun h hnull => absurd hnull h.2⟩
  | isIn =>
    by_cases hx : x.kind = .null
    · refine iff_of_true ?_ fun _ => Or.inl hx
      cases x with
      | null =>
        simp only [Engine.passes, Engine.passesDf, dfLiterals_eq]
        rw [isIn_null hne, isIn_null (by simpa using hne)]
      | _ => cases hx
    · simp only [Engine.passes, Engine.passesDf]
      rw [hlist hx]
      exact ⟨fun h hnull => Or.inr (h hnull), fun h hnull => (h hnull).resolve_left hx⟩
  | nin =>
    by_cases hx : x.kind = .null
    · refine iff_of_false ?_ fun h => h.1 hx
      cases x with
      | null =>
        rw [passes_null_of_lenient (Or.inr rfl)]
        simp only [Engine.passesDf, dfLiterals_eq]
        rw [isIn_null (by simpa using hne)]
        rintro ⟨⟩
      | _ => cases hx
    · simp only [Engine.passes, Engine.passesDf, hpresent hx]
      rw [Truth.not_injective.eq_iff, hlist hx]
      exact (and_iff_right hx).symm

/-- When `find` and `$match` say the same of a comparison: for a field that both read
the same text of, by the literals; otherwise when the operator says the same of both. -/
def Matched (e : Engine F) (c : Comparison F) (r : Row F) : Prop :=
  let v := accessorText r c.path
  let w := keyText r c.path
  let cast := casts c.path c.value
  match c.op with
  | .exists_ => (cast = true → ∀ s, v = some s → (e.castDouble s).isSome = true) ∧
      (v = none ↔ w = none)
  | op =>
    if literals op c.value = [] then e.acceptsEmptyList = true ∧
      (readText e cast v).map (fun _ => ()) = (readText e cast w).map fun _ => ()
    else ((literals op c.value).all fun y => e.comparable (textKind c.path c.value) y.kind) = true →
      if v = w then ∀ x, readText e cast v = .ok x → Coincides e op c.value x
      else (readText e cast v).map (e.passes op c.value) =
        (readText e cast w).map (e.passesDf op c.value)

section

variable {c : Comparison F}

theorem matched_exists (hop : c.op = .exists_) : Matched e c r ↔
    (casts c.path c.value = true →
        ∀ s, accessorText r c.path = some s → (e.castDouble s).isSome = true) ∧
      (accessorText r c.path = none ↔ keyText r c.path = none) := by
  unfold Matched
  rw [hop]

theorem matched_of_ne (hop : c.op ≠ .exists_) : Matched e c r ↔
    if literals c.op c.value = [] then e.acceptsEmptyList = true ∧
      (readText e (casts c.path c.value) (accessorText r c.path)).map (fun _ => ()) =
        (readText e (casts c.path c.value) (keyText r c.path)).map fun _ => ()
    else ((literals c.op c.value).all fun y =>
        e.comparable (textKind c.path c.value) y.kind) = true →
      if accessorText r c.path = keyText r c.path then
        ∀ x, readText e (casts c.path c.value) (accessorText r c.path) = .ok x →
          Coincides e c.op c.value x
      else (readText e (casts c.path c.value) (accessorText r c.path)).map (e.passes c.op c.value) =
        (readText e (casts c.path c.value) (keyText r c.path)).map (e.passesDf c.op c.value) := by
  unfold Matched
  cases hcase : c.op with
  | exists_ => exact absurd hcase hop
  | _ => rfl

theorem eval_dfLeaf (hexists : c.op ≠ .exists_) (hregex : c.op ≠ .regex) :
    Formula.eval (e.evalAtom [] r) (dfLeaf c) =
      if (dfLiterals c.op c.value).all fun y => e.comparable (textKind c.path c.value) y.kind then
        (readText e (casts c.path c.value) (keyText r c.path)).map (e.passesDf c.op c.value)
      else throw .types := by
  obtain ⟨-, hkind⟩ := kind_operands c.path c.value
  have hvalue := value_pathExprFor (e := e) (r := r) c.path c.value
  have hrelate : ∀ rel, e.evalAtom [] r (.relate (pathExprFor c.path c.value) rel
      (jsonToLit c.value)) =
      if e.comparable (textKind c.path c.value) (jsonToLit c.value).kind then
        (readText e (casts c.path c.value) (keyText r c.path)).map fun x =>
          e.relate x rel (jsonToLit c.value)
      else throw .types := by
    intro rel
    simp only [Engine.evalAtom, hkind, hvalue]
    rfl
  have hlist : ∀ negated, e.evalAtom [] r (.inList (pathExprFor c.path c.value)
      ((c.value.asArray.getD []).map jsonToLit) negated) =
      if ((c.value.asArray.getD []).map jsonToLit).all fun y =>
          e.comparable (textKind c.path c.value) y.kind then
        (readText e (casts c.path c.value) (keyText r c.path)).map fun x =>
          if negated then (e.isIn x ((c.value.asArray.getD []).map jsonToLit)).not
          else e.isIn x ((c.value.asArray.getD []).map jsonToLit)
      else throw .types := by
    intro negated
    simp only [Engine.evalAtom, hkind, hvalue]
    rfl
  unfold dfLeaf cmpDfExpr
  cases hop : c.op with
  | exists_ => exact absurd hop hexists
  | regex => exact absurd hop hregex
  | isIn => exact hlist false
  | nin => exact hlist true
  | _ =>
    simp only [dfLiterals, List.all_cons, List.all_nil, Bool.and_true]
    exact hrelate _

theorem eval_emptyList (hlist : c.op = .isIn ∨ c.op = .nin) (hnil : literals c.op c.value = []) :
    Formula.eval (e.evalAtom [] r) (cmpSql c) =
      if e.acceptsEmptyList then
        (readText e (casts c.path c.value) (accessorText r c.path)).map fun _ => some (c.op == .nin)
      else throw .malformed := by
  have hitems : (c.value.asArray.getD []).isEmpty = true := by
    rw [List.isEmpty_iff]
    rcases hlist with hop | hop
    · rw [hop] at hnil
      exact List.map_eq_nil_iff.mp hnil
    · rw [hop] at hnil
      exact List.map_eq_nil_iff.mp hnil
  have hvalue := value_cmpOperand_text (e := e) (r := r) c.path c.value
  have hempty : ∀ negated, Formula.eval (e.evalAtom [] r)
      (inSql (cmpOperand c.path c.value) c.value negated) =
      if e.acceptsEmptyList then
        (e.value [] r (cmpOperand c.path c.value)).map fun _ => some negated
      else throw .malformed := by
    intro negated
    unfold inSql
    dsimp only
    rw [hitems]
    rfl
  unfold cmpSql
  rw [← hvalue]
  rcases hlist with hop | hop
  · rw [hop]
    exact hempty false
  · rw [hop]
    exact eval_or_isNull _ (hempty true)

omit [Doubles F] in
theorem readText_kind {cast : Bool} {s : Option String} {x : Scalar F}
    (h : readText e cast s = .ok x) : (x.kind == .null) = s.isNone := by
  cases s with
  | none =>
    have hx : x = .null := by
      cases cast with
      | true => exact (Except.ok.inj h).symm
      | false => exact (Except.ok.inj h).symm
    rw [hx]
    rfl
  | some s =>
    cases cast with
    | true =>
      change (match e.castDouble s with
        | some f => (Except.ok (Scalar.double f) : Except Failure (Scalar F))
        | none => throw Failure.cast) = _ at h
      cases hcast : e.castDouble s with
      | none => rw [hcast] at h; exact absurd h nofun
      | some f =>
        rw [hcast] at h
        rw [← Except.ok.inj h]
        rfl
    | false =>
      rw [← Except.ok.inj h]
      rfl

omit [Doubles F] in
theorem exists_readText_iff {cast : Bool} {s : Option String} :
    (∃ x, readText e cast s = .ok x) ↔
      (cast = true → ∀ t, s = some t → (e.castDouble t).isSome = true) := by
  cases cast with
  | false => exact iff_of_true ⟨_, rfl⟩ nofun
  | true =>
    cases s with
    | none => exact iff_of_true ⟨_, rfl⟩ nofun
    | some s =>
      have hread : readText e true (some s) = match e.castDouble s with
        | some f => (Except.ok (Scalar.double f) : Except Failure (Scalar F))
        | none => throw .cast := rfl
      rw [hread]
      cases hcast : e.castDouble s with
      | none =>
        refine iff_of_false (fun ⟨_, hx⟩ => absurd hx nofun) fun h => ?_
        have hsome := h rfl s rfl
        rw [hcast] at hsome
        exact absurd hsome nofun
      | some f =>
        refine iff_of_true ⟨_, rfl⟩ fun _ t ht => ?_
        rw [← Option.some.inj ht, hcast]
        rfl

omit [Doubles F] in
theorem readText_error {cast : Bool} {s : Option String} {f : Failure}
    (h : readText e cast s = .error f) : f = .cast := by
  cases cast with
  | false => exact absurd h nofun
  | true =>
    cases s with
    | none => exact absurd h nofun
    | some s =>
      change (match e.castDouble s with
        | some f => (Except.ok (Scalar.double f) : Except Failure (Scalar F))
        | none => throw Failure.cast) = _ at h
      cases hcast : e.castDouble s with
      | none => rw [hcast] at h; exact (Except.error.inj h).symm
      | some _ => rw [hcast] at h; exact absurd h nofun

theorem match_exists_iff (hop : c.op = .exists_) :
    Formula.eval (e.evalAtom [] r) (dfLeaf c) = Formula.eval (e.evalAtom [] r) (cmpSql c) ↔
      Matched e c r := by
  have hdf : Formula.eval (e.evalAtom [] r) (dfLeaf c) =
      .ok (some ((keyText r c.path).isNone != c.value.asBool.getD true)) := by
    unfold dfLeaf cmpDfExpr
    rw [hop]
    simp only [Option.getD_some, Formula.eval, Engine.evalAtom, value_pathExpr]
    cases keyText r c.path <;> rfl
  have hsql : Formula.eval (e.evalAtom [] r) (cmpSql c) =
      (readText e (casts c.path c.value) (accessorText r c.path)).map fun x =>
        some ((x.kind == .null) != c.value.asBool.getD true) := by
    rw [← value_cmpOperand_text]
    unfold cmpSql
    rw [hop]
    rfl
  rw [matched_exists hop, hdf, hsql, ← exists_readText_iff]
  have hnone : (accessorText r c.path = none ↔ keyText r c.path = none) ↔
      (accessorText r c.path).isNone = (keyText r c.path).isNone := by
    rw [Bool.eq_iff_iff, Option.isNone_iff_eq_none, Option.isNone_iff_eq_none]
  rw [hnone]
  cases hread : readText e (casts c.path c.value) (accessorText r c.path) with
  | error _ =>
    refine iff_of_false (by rintro ⟨⟩) ?_
    rintro ⟨⟨_, ⟨⟩⟩, -⟩
  | ok x =>
    have hkind := readText_kind hread
    simp only [Except.map, hkind, Except.ok.injEq, Option.some.injEq]
    constructor
    · intro h
      exact ⟨⟨x, rfl⟩, (Bool.xor_left_inj.mp h).symm⟩
    · intro h
      rw [h.2]

theorem match_listed_iff (hexists : c.op ≠ .exists_) (hregex : c.op ≠ .regex)
    (hne : literals c.op c.value ≠ []) :
    Formula.eval (e.evalAtom [] r) (dfLeaf c) = Formula.eval (e.evalAtom [] r) (cmpSql c) ↔
      Matched e c r := by
  have hplain := @eval_cmpSqlCol _ _ e [] r (cmpOperand c.path c.value) _ _ hregex fun _ => hne
  rw [(kind_operands c.path c.value).1, value_cmpOperand_text] at hplain
  rw [matched_of_ne hexists, eval_dfLeaf hexists hregex, comparable_dfLiterals, if_neg hne]
  unfold cmpSql
  rw [hplain]
  unfold Engine.judge
  by_cases hall : ((literals c.op c.value).all fun y =>
      e.comparable (textKind c.path c.value) y.kind) = true
  · rw [if_pos hall, if_pos hall]
    refine Iff.trans ?_ (true_imp_iff.symm.trans (by rw [hall, eq_self, true_imp_iff]))
    by_cases hsame : accessorText r c.path = keyText r c.path
    · rw [if_pos hsame, ← hsame]
      cases readText e (casts c.path c.value) (accessorText r c.path) with
      | error _ => exact iff_of_true rfl fun _ hx => absurd hx nofun
      | ok x =>
        constructor
        · intro h x' hx'
          obtain rfl := Except.ok.inj hx'
          exact (passes_eq_iff hexists hregex hne).mp (Except.ok.inj h).symm
        · intro h
          have hpass := (passes_eq_iff hexists hregex hne).mpr (h x rfl)
          exact congrArg Except.ok hpass.symm
    · rw [if_neg hsame]
      exact eq_comm
  · rw [if_neg hall, if_neg hall]
    exact iff_of_true rfl fun h => absurd h hall

/-- The two agree on a comparison without pattern just when the condition holds. -/
theorem match_leaf_iff (hregex : c.op ≠ .regex) :
    Formula.eval (e.evalAtom [] r) (dfLeaf c) = Formula.eval (e.evalAtom [] r) (cmpSql c) ↔
      Matched e c r := by
  by_cases hexists : c.op = .exists_
  · exact match_exists_iff hexists
  by_cases hnil : literals c.op c.value = []
  · have hlist : c.op = .isIn ∨ c.op = .nin := by
      cases hop : c.op with
      | isIn => exact Or.inl rfl
      | nin => exact Or.inr rfl
      | exists_ => exact absurd hop hexists
      | _ => rw [hop] at hnil; exact absurd hnil nofun
    have hdf : dfLiterals c.op c.value = [] := by rw [dfLiterals_eq, hnil]; rfl
    have hpasses : e.passesDf c.op c.value = fun _ => some (c.op == .nin) := by
      funext x
      rcases hlist with hop | hop
      · rw [hop] at hdf ⊢
        simp only [Engine.passesDf, hdf]
        rfl
      · rw [hop] at hdf ⊢
        simp only [Engine.passesDf, hdf]
        rfl
    rw [matched_of_ne hexists, if_pos hnil, eval_dfLeaf hexists hregex, eval_emptyList hlist hnil,
      hdf, hpasses, List.all_nil, if_pos rfl]
    cases e.acceptsEmptyList with
    | false =>
      refine iff_of_false ?_ fun h => absurd h.1 nofun
      cases hread : readText e (casts c.path c.value) (keyText r c.path) with
      | error f => rw [readText_error hread]; exact nofun
      | ok x => exact nofun
    | true =>
      rw [if_pos rfl, eq_self, true_and]
      cases readText e (casts c.path c.value) (keyText r c.path) with
      | error f =>
        cases readText e (casts c.path c.value) (accessorText r c.path) with
        | error f' => simp [Except.map, eq_comm]
        | ok y => exact iff_of_false nofun nofun
      | ok x =>
        cases readText e (casts c.path c.value) (accessorText r c.path) with
        | error f' => exact iff_of_false nofun nofun
        | ok y => exact iff_of_true rfl rfl
  · exact match_listed_iff hexists hregex hnil

end

/-- A filter without patterns and its negation, and all parts of them, select the same
documents in `find` and in `$match`, exactly when no list of conditions is empty and
every comparison meets its condition on every document. -/
theorem match_agrees_iff (e : Engine F) (f : Filter F) (hpattern : NoPattern f)
    (rows : List (Row F)) :
    (∀ r ∈ rows, ∀ g, Formula.Part g f →
      e.matchSelects r g = e.selects [] r (toSql g) ∧
      e.matchSelects r (.neg g) = e.selects [] r (toSql (.neg g))) ↔
    ∀ r ∈ rows, (∀ c, Formula.Part (.atom c) f → Matched e c r) ∧
      ¬(Formula.Part (.all []) f ∨ Formula.Part (.any []) f) := by
  refine forall₂_congr fun r _ => ?_
  have hselects : ∀ g, NoPattern g → e.matchSelects r g =
      Formula.selected (Formula.eval (e.evalAtom [] r) (Formula.lower .truth dfLeaf g)) := by
    intro g hg
    unfold Engine.matchSelects
    rw [toDfExpr_eq hg]
    rfl
  have hpart : ∀ g, Formula.Part g f → NoPattern g ∧ NoPattern (.neg g) := by
    intro g hg
    refine ⟨fun c hc => hpattern c (hc.trans hg), fun c hc => ?_⟩
    cases hc with
    | neg hc => exact hpattern c (hc.trans hg)
  have hparts := @Formula.selected_parts_iff _ _ _ _ (e.evalAtom [] r) (e.evalAtom [] r) .truth
    (.atom .blank) dfLeaf cmpSql f
  refine Iff.trans (forall₂_congr fun g hg => ?_) (hparts.trans ?_)
  · rw [hselects g (hpart g hg).1, hselects _ (hpart g hg).2]
    rfl
  · constructor
    · intro h
      exact ⟨fun c hc => (match_leaf_iff (hpattern c hc)).mp (h.leaves c hc),
        fun hempty => absurd (h.empties hempty) nofun⟩
    · rintro ⟨hleaves, hempty⟩
      exact ⟨fun c hc => (match_leaf_iff (hpattern c hc)).mpr (hleaves c hc),
        fun hp => absurd hp hempty⟩

namespace Example

/-- `{"status": "open"}` -/
def isOpen : Filter ℤ := .atom ⟨"status", .eq, .string "open"⟩

def open_ : Row ℤ := ⟨"a", .object [("_id", .string "a"), ("status", .string "open")]⟩

theorem isOpen_noPattern : NoPattern isOpen := by
  intro c hc
  cases hc
  decide

theorem isOpen_agrees : NoPattern isOpen ∧ ∀ r ∈ [open_], ∀ g, Formula.Part g isOpen →
    engine.matchSelects r g = engine.selects [] r (toSql g) ∧
    engine.matchSelects r (.neg g) = engine.selects [] r (toSql (.neg g)) := by
  refine ⟨isOpen_noPattern,
    (match_agrees_iff engine isOpen isOpen_noPattern [open_]).mpr fun r hr => ⟨?_, ?_⟩⟩
  · intro c hc
    obtain rfl := List.mem_singleton.mp hr
    cases hc
    have htext : accessorText open_ "status" = keyText open_ "status" := by decide +kernel
    have hlisted : literals Cmp.eq (Json.string "open" : Json ℤ) ≠ [] := List.cons_ne_nil _ _
    refine (matched_of_ne (by decide)).mpr ?_
    rw [if_neg hlisted, if_pos htext]
    rintro - x - ⟨y, hy, hnull⟩
    obtain rfl := List.mem_singleton.mp hy
    exact absurd hnull nofun
  · rintro (h | h) <;> cases h

/-- `{"status": {"$ne": "open"}}` -/
def isNotOpen : Filter ℤ := .atom ⟨"status", .ne, .string "open"⟩

/-- An order without the field is found with `$ne`, and does not match. -/
theorem match_not_agrees : ¬∀ (f : Filter ℤ) (r : Row ℤ), NoPattern f →
    engine.matchSelects r f = engine.selects [] r (toSql f) := by
  intro h
  have horder := h isNotOpen order (by intro c hc; cases hc; decide)
  have hmatch : engine.matchSelects order isNotOpen = .ok false := by
    decide +kernel
  have hfind : engine.selects [] order (toSql isNotOpen) = .ok true := by
    decide +kernel
  rw [hmatch, hfind] at horder
  exact absurd (Except.ok.inj horder) nofun

end Example

end BlueDB.Collections
