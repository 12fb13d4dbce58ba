import BlueDB.Sql.SetOps

/-!
# INTERSECT and EXCEPT

An INTERSECT becomes a selection of the rows of its left branch by `IN`, an
EXCEPT one by `NOT IN`. A set operation finds a null equal to a null, `IN` finds
it equal to nothing, and gives a verdict for it or does not; ALL counts the rows of
both branches, the selection only those of the left.
-/

namespace BlueDB.Sql.SetOps

section Bags

variable {α : Type} [DecidableEq α] {null : α} {l r : Multiset α}

theorem count_filter_ite (p : α → Prop) [DecidablePred p] (a : α) :
    (l.filter p).count a = if p a then l.count a else 0 := by
  split_ifs with h
  · exact Multiset.count_filter_of_pos h
  · exact Multiset.count_filter_of_neg h

theorem filter_in_eq_inter_iff :
    (l.filter fun a => a ≠ null ∧ a ∈ r) = l ∩ r ↔
      (null ∉ l ∨ null ∉ r) ∧ ∀ a ∈ r, a ≠ null → l.count a ≤ r.count a := by
  constructor
  · intro h
    have hcount : ∀ a, (if a ≠ null ∧ a ∈ r then l.count a else 0) =
        min (l.count a) (r.count a) := by
      intro a
      have hone := congrArg (Multiset.count a) h
      rw [count_filter_ite, Multiset.count_inter] at hone
      exact hone
    constructor
    · have hnull := hcount null
      rw [if_neg fun h' => h'.1 rfl] at hnull
      rw [← Multiset.count_eq_zero, ← Multiset.count_eq_zero]
      omega
    · intro a ha hne
      have hone := hcount a
      rw [if_pos ⟨hne, ha⟩] at hone
      omega
  · intro ⟨hnull, hle⟩
    apply Multiset.ext.mpr
    intro a
    rw [count_filter_ite, Multiset.count_inter]
    split_ifs with hin
    · have hone := hle a hin.2 hin.1
      omega
    · rw [not_and_or, not_not] at hin
      rw [← Multiset.count_eq_zero, ← Multiset.count_eq_zero] at hnull
      rcases hin with rfl | hin
      · omega
      · rw [Multiset.count_eq_zero.mpr hin, Nat.min_zero]

theorem dedup_in_eq_inter_iff :
    (l.filter fun a => a ≠ null ∧ a ∈ r).dedup = (l ∩ r).dedup ↔ null ∉ l ∨ null ∉ r := by
  rw [Multiset.dedup_ext]
  simp only [Multiset.mem_filter, Multiset.mem_inter]
  constructor
  · intro h
    by_contra hnull
    rw [not_or, not_not, not_not] at hnull
    exact ((h null).mpr hnull).2.1 rfl
  · intro hnull a
    constructor
    · exact fun ha => ⟨ha.1, ha.2.2⟩
    · intro ha
      refine ⟨ha.1, ?_, ha.2⟩
      rintro rfl
      exact hnull.elim (fun h => h ha.1) fun h => h ha.2

/-- What `IN` keeps and what it leaves out make up the left branch, as do the rows of
INTERSECT ALL and EXCEPT ALL. -/
theorem filter_not_in_eq_sub_iff :
    (l.filter fun a => ¬(a ≠ null ∧ a ∈ r)) = l - r ↔
      (null ∉ l ∨ null ∉ r) ∧ ∀ a ∈ r, a ≠ null → l.count a ≤ r.count a := by
  rw [← filter_in_eq_inter_iff]
  have hsplit := (Multiset.filter_add_not (fun a => a ≠ null ∧ a ∈ r) l).trans
    ((add_comm _ _).trans (Multiset.sub_add_inter l r)).symm
  constructor
  · intro h
    rw [h] at hsplit
    exact add_right_cancel hsplit
  · intro h
    rw [h] at hsplit
    exact add_left_cancel hsplit

theorem dedup_not_in_eq_iff :
    (l.filter fun a => ¬(a ≠ null ∧ a ∈ r)).dedup = (l.filter (· ∉ r)).dedup ↔
      null ∉ l ∨ null ∉ r := by
  rw [Multiset.dedup_ext]
  simp only [Multiset.mem_filter]
  constructor
  · intro h
    by_contra hnull
    rw [not_or, not_not, not_not] at hnull
    exact ((h null).mp ⟨hnull.1, fun hne => hne.1 rfl⟩).2 hnull.2
  · intro hnull a
    refine and_congr_right fun ha => not_congr ⟨And.right, fun har => ⟨?_, har⟩⟩
    rintro rfl
    exact hnull.elim (fun h => h ha) fun h => h har

/-- The rows that are not among those of the right branch, for a branch with rows. -/
def NotIn (null : α) (r : Multiset α) (a : α) : Prop := r = 0 ∨ a ≠ null ∧ a ∉ r ∧ null ∉ r

instance (null : α) (r : Multiset α) : DecidablePred (NotIn null r) :=
  fun _ => inferInstanceAs (Decidable (_ ∨ _))

omit [DecidableEq α] in
theorem notIn_of_null (h : null ∈ r) (a : α) : ¬NotIn null r a := by
  rintro (rfl | ⟨_, _, hnull⟩)
  · exact Multiset.notMem_zero _ h
  · exact hnull h

omit [DecidableEq α] in
theorem notIn_iff (hr : r ≠ 0) (hnull : null ∉ r) (a : α) : NotIn null r a ↔ a ≠ null ∧ a ∉ r := by
  unfold NotIn
  rw [or_iff_right hr, and_iff_left hnull]

theorem filter_notIn_eq_sub_iff :
    l.filter (NotIn null r) = l - r ↔
      r = 0 ∨ (if null ∈ r then l ≤ r else null ∉ l ∧ ∀ a ∈ r, l.count a ≤ r.count a) := by
  by_cases hr : r = 0
  · rw [or_iff_left_of_imp fun _ => hr, hr]
    have hall : l.filter (NotIn null 0) = l := Multiset.filter_eq_self.mpr fun _ _ => Or.inl rfl
    simp [hall]
  · rw [or_iff_right hr]
    split_ifs with hnull
    · have hnone : l.filter (NotIn null r) = 0 :=
        Multiset.filter_eq_nil.mpr fun a _ => notIn_of_null hnull a
      rw [hnone, eq_comm, tsub_eq_zero_iff_le]
    · have hcount : l.filter (NotIn null r) = l - r ↔
          ∀ a, (if a ≠ null ∧ a ∉ r then l.count a else 0) = l.count a - r.count a := by
        rw [Multiset.ext]
        apply forall_congr'
        intro a
        rw [count_filter_ite, Multiset.count_sub]
        simp only [notIn_iff hr hnull]
      rw [hcount]
      constructor
      · intro h
        constructor
        · have hone := h null
          rw [if_neg fun h' => h'.1 rfl, Multiset.count_eq_zero.mpr hnull] at hone
          rw [← Multiset.count_eq_zero]
          omega
        · intro a ha
          have hone := h a
          rw [if_neg fun h' => h'.2 ha] at hone
          omega
      · intro ⟨hleft, hle⟩ a
        split_ifs with hout
        · rw [Multiset.count_eq_zero.mpr hout.2, Nat.sub_zero]
        · rw [not_and_or, not_not, not_not] at hout
          rcases hout with rfl | ha
          · rw [Multiset.count_eq_zero.mpr hleft, Nat.zero_sub]
          · have hone := hle a ha
            omega

/-- The distinct rows `NOT IN` selects are those of EXCEPT. -/
theorem dedup_notIn_eq_iff :
    (l.filter (NotIn null r)).dedup = (l.filter (· ∉ r)).dedup ↔
      r = 0 ∨ (if null ∈ r then ∀ a ∈ l, a ∈ r else null ∉ l) := by
  rw [Multiset.dedup_ext]
  simp only [Multiset.mem_filter]
  by_cases hr : r = 0
  · rw [or_iff_left_of_imp fun _ => hr, iff_true_right hr]
    intro a
    exact and_congr_right fun _ => iff_of_true (Or.inl hr) (hr ▸ Multiset.notMem_zero a)
  · rw [or_iff_right hr]
    split_ifs with hnull
    · constructor
      · intro h a ha
        by_contra hout
        exact notIn_of_null hnull a ((h a).mpr ⟨ha, hout⟩).2
      · intro h a
        exact iff_of_false (fun ha => notIn_of_null hnull a ha.2) fun ha => ha.2 (h a ha.1)
    · constructor
      · intro h hleft
        exact ((notIn_iff hr hnull null).mp ((h null).mpr ⟨hleft, hnull⟩).2).1 rfl
      · intro hleft a
        rw [notIn_iff hr hnull]
        constructor
        · exact fun ha => ⟨ha.1, ha.2.2⟩
        · intro ha
          refine ⟨ha.1, ?_, ha.2⟩
          rintro rfl
          exact hleft ha.1

end Bags

variable {A : Type} [DecidableEq A]

/-- The rows of INTERSECT and EXCEPT, with their multiplicities. -/
def operationBag (op : SetOperator) (quantifier : SetQuantifier)
    (l r : Multiset (List (Value A))) : Multiset (List (Value A)) :=
  match op with
  | .intersect => if keepAll quantifier then l ∩ r else (l ∩ r).dedup
  | .except => if keepAll quantifier then l - r else (l.filter (· ∉ r)).dedup
  | .union => if keepAll quantifier then l + r else (l + r).dedup

/-- A null is not in both branches, and no row is more often in the left one. -/
def Matching (quantifier : SetQuantifier) (l r : Multiset (List (Value A))) : Prop :=
  ([.null] ∉ l ∨ [.null] ∉ r) ∧
    (keepAll quantifier = true → ∀ row ∈ r, row ≠ [.null] → l.count row ≤ r.count row)

/-- The branches are such that `IN` and `NOT IN` select the rows of the operation. -/
def InAgrees (verdict : Option Bool) (op : SetOperator) (quantifier : SetQuantifier)
    (l r : Multiset (List (Value A))) : Prop :=
  match op with
  | .intersect => Matching quantifier l r
  | .except =>
    if verdict = some false then Matching quantifier l r
    else r = 0 ∨ (if [.null] ∈ r then if keepAll quantifier then l ≤ r else ∀ row ∈ l, row ∈ r
      else [.null] ∉ l ∧ (keepAll quantifier = true → ∀ row ∈ r, l.count row ≤ r.count row))
  | .union => False

section Selection

variable {M : Membership A} {left right : SetExpr A} {lq rq q : Query A}
  {L R : Relation String (Value A)}

theorem Membership.isIn_eq_true (M : Membership A) {x : Value A} {values : List (Value A)} :
    M.isIn x values = some true ↔ x ≠ .null ∧ x ∈ values := by
  constructor
  · intro h
    by_contra hout
    by_cases hnil : values = []
    · rw [hnil, M.empty] at h
      cases h
    by_cases hnulls : x = .null ∨ x ∉ values ∧ .null ∈ values
    · exact M.verdict_ne ((M.unknown hnil hnulls).symm.trans h)
    · have hnull : x ≠ .null := fun hx => hnulls (.inl hx)
      have hmem : x ∉ values := fun hx => hout ⟨hnull, hx⟩
      rw [M.missed hnull hmem fun hn => hnulls (.inr ⟨hmem, hn⟩)] at h
      cases h
  · exact fun h => M.found h.1 h.2

theorem Membership.isIn_eq_false (M : Membership A) {x : Value A} {values : List (Value A)} :
    M.isIn x values = some false ↔
      if M.verdict = some false then ¬(x ≠ .null ∧ x ∈ values)
      else values = [] ∨ x ≠ .null ∧ x ∉ values ∧ .null ∉ values := by
  by_cases hnil : values = []
  · rw [hnil, iff_true_left (M.empty x)]
    simp
  by_cases hnulls : x = .null ∨ x ∉ values ∧ .null ∈ values
  · rw [M.unknown hnil hnulls]
    split_ifs with hverdict
    · exact iff_of_true hverdict (by rintro ⟨hx, hmem⟩; exact hnulls.elim hx fun h => h.1 hmem)
    · refine iff_of_false hverdict ?_
      rintro (h | ⟨hx, hmem, hnull⟩)
      · exact hnil h
      · exact hnulls.elim hx fun h => hnull h.2
  · rw [not_or, not_and] at hnulls
    by_cases hmem : x ∈ values
    · rw [M.found hnulls.1 hmem]
      simp [hnil, hnulls.1, hmem]
    · rw [M.missed hnulls.1 hmem (hnulls.2 hmem)]
      simp [hnulls.1, hmem, hnulls.2 hmem]

omit [DecidableEq A] in
theorem mem_values {x : Value A} (hR : R.columns.length = 1) :
    x ∈ R.rows.flatMap id ↔ [x] ∈ R.bag := by
  change _ ↔ [x] ∈ (R.rows : Multiset (List (Value A)))
  rw [List.mem_flatMap, Multiset.mem_coe]
  constructor
  · intro ⟨row, hrow, hx⟩
    obtain ⟨y, rfl⟩ := List.length_eq_one_iff.mp ((R.width row hrow).trans hR)
    obtain rfl := List.mem_singleton.mp hx
    exact hrow
  · exact fun h => ⟨[x], h, List.mem_singleton_self x⟩

omit [DecidableEq A] in
theorem values_eq_nil (hR : R.columns.length = 1) : R.rows.flatMap id = [] ↔ R.bag = 0 := by
  change _ ↔ (R.rows : Multiset (List (Value A))) = 0
  rw [List.flatMap_eq_nil_iff, Multiset.coe_eq_zero]
  constructor
  · intro h
    by_contra hne
    obtain ⟨row, hrow⟩ := List.exists_mem_of_ne_nil _ hne
    have hlen := (R.width row hrow).trans hR
    rw [show row = [] from h row hrow] at hlen
    cases hlen
  · intro h row hrow
    rw [h] at hrow
    cases hrow

/-- The rows of the left branch that the selection keeps. -/
def Selected (verdict : Option Bool) (negated : Bool) (r : Multiset (List (Value A)))
    (row : List (Value A)) : Prop :=
  if negated then
    if verdict = some false then ¬(row ≠ [.null] ∧ row ∈ r) else NotIn [.null] r row
  else row ≠ [.null] ∧ row ∈ r

instance (verdict : Option Bool) (negated : Bool) (r : Multiset (List (Value A))) :
    DecidablePred (Selected verdict negated r) :=
  fun row => by
    unfold Selected
    cases negated <;> infer_instance

theorem isIn_selected (M : Membership A) (hR : R.columns.length = 1) (negated : Bool)
    (x : Value A) : M.isIn x (R.rows.flatMap id) = some !negated ↔
      Selected M.verdict negated R.bag [x] := by
  cases negated with
  | false =>
    change M.isIn x _ = some true ↔ [x] ≠ [.null] ∧ [x] ∈ R.bag
    rw [M.isIn_eq_true, mem_values hR]
    simp
  | true =>
    change M.isIn x _ = some false ↔
      if M.verdict = some false then ¬([x] ≠ [.null] ∧ [x] ∈ R.bag) else NotIn [.null] R.bag [x]
    rw [M.isIn_eq_false, values_eq_nil hR, mem_values hR, mem_values hR]
    simp [NotIn]

theorem semiJoin_eval (n : ℕ) (keepAll negated : Bool) {c : String} (hl : lq.eval M = some L)
    (hr : rq.eval M = some R) (hL : L.columns = [c]) (hR : R.columns.length = 1) :
    ∃ rel, (semiJoin n keepAll negated c lq rq).eval M = some rel ∧
      rel.bag = if keepAll then L.bag.filter (Selected M.verdict negated R.bag)
        else (L.bag.filter (Selected M.verdict negated R.bag)).dedup := by
  have hcols : (L.rename (Column.mk (.left n))).columns = [⟨.left n, c⟩] := by
    change L.columns.map _ = _
    rw [hL]
    rfl
  have hresolves : Relation.Resolves (L.rename (Column.mk (.left n))).columns ⟨.left n, c⟩ := by
    rw [hcols]
    exact Relation.resolves_head (by simp)
  have hvalue : ∀ row ∈ L.rows, ∃ x, row = [x] ∧
      Relation.value .null (L.rename (Column.mk (.left n))).columns row ⟨.left n, c⟩ = x := by
    intro row hrow
    obtain ⟨x, rfl⟩ := List.length_eq_one_iff.mp ((L.width row hrow).trans (by rw [hL]; rfl))
    refine ⟨x, rfl, ?_⟩
    rw [hcols, Relation.value_head]
  have hsource : (Source.table lq (.left n)).eval M = some (L.rename (Column.mk (.left n))) := by
    rw [Source.eval, hl]
    rfl
  let kept := (L.rename (Column.mk (.left n))).filter fun row =>
    M.isIn (Relation.value .null (L.rename (Column.mk (.left n))).columns row ⟨.left n, c⟩)
      (R.rows.flatMap id) = some !negated
  have hfilter : (Filter.isIn ⟨.left n, c⟩ negated rq).eval M (L.rename (Column.mk (.left n))) =
      some kept := by
    rw [Filter.eval, hr]
    exact if_pos ⟨hR, hresolves⟩
  have hkept : kept.rows = L.rows.filter fun row => Selected M.verdict negated R.bag row := by
    apply List.filter_congr
    intro row hrow
    obtain ⟨x, rfl, hx⟩ := hvalue row hrow
    rw [hx, decide_eq_decide]
    exact isIn_selected M hR negated x
  -- the projection gives a row of one column back
  have hproject : (kept.project [((Expr.column ⟨.left n, c⟩).value kept.columns, c)]).rows =
      L.rows.filter fun row => Selected M.verdict negated R.bag row := by
    change kept.rows.map _ = _
    rw [hkept]
    apply (List.map_congr_left _).trans (List.map_id _)
    intro row hrow
    obtain ⟨x, rfl, hx⟩ := hvalue row (List.mem_of_mem_filter hrow)
    exact congrArg (fun v => [v]) hx
  have heval : (semiJoin n keepAll negated c lq rq).eval M =
      some (if !keepAll then
        (kept.project [((Expr.column ⟨.left n, c⟩).value kept.columns, c)]).distinct
      else kept.project [((Expr.column ⟨.left n, c⟩).value kept.columns, c)]) := by
    unfold semiJoin
    rw [Query.eval, hsource]
    simp only [Option.bind_some, hfilter, List.all_cons, List.all_nil, Bool.and_true,
      Expr.resolves, List.map_cons, List.map_nil]
    exact if_pos (decide_eq_true hresolves)
  have hbag : (kept.project [((Expr.column ⟨.left n, c⟩).value kept.columns, c)]).bag =
      L.bag.filter (Selected M.verdict negated R.bag) := by
    change ((kept.project _).rows : Multiset (List (Value A))) = _
    rw [hproject]
    exact (Multiset.filter_coe _ _).symm
  refine ⟨_, heval, ?_⟩
  cases keepAll with
  | true => exact hbag
  | false => exact (Relation.bag_distinct _).trans (congrArg _ hbag)

theorem select_columns {distinct : Bool} {projection : List (Expr × String)} {source : Source A}
    {selection : Filter A} {rel : Relation String (Value A)}
    (h : (Query.select distinct projection source selection).eval M = some rel) :
    rel.columns = projection.map Prod.snd := by
  rw [Query.eval] at h
  obtain ⟨from', _, h⟩ := Option.bind_eq_some_iff.mp h
  obtain ⟨kept, _, h⟩ := Option.bind_eq_some_iff.mp h
  split_ifs at h with hresolves hdistinct
  · rw [← Option.some.inj h]
    change (projection.map _).map Prod.snd = _
    rw [List.map_map]
    rfl
  · rw [← Option.some.inj h]
    change (projection.map _).map Prod.snd = _
    rw [List.map_map]
    rfl

omit [DecidableEq A] in
theorem columns_of_singleColumn {e : SetExpr A} {c : String} {cols : List String}
    (hc : singleColumn e = some c) (hcols : columns e = some cols) : cols = [c] := by
  induction e with
  | select s =>
    unfold singleColumn at hc
    unfold columns projectionColumns at hcols
    split at hc
    · next item hitem =>
      rw [hitem, if_neg (by simp), List.mapM_cons, hc] at hcols
      exact (Option.some.inj hcols).symm
    · cases hc
  | setOperation op quantifier left right ihl ihr => exact ihl hc hcols
  | values rows => cases hc
  | other => cases hc

theorem branch_columns {e : SetExpr A} {n n' : ℕ} {c : String} {rel : Relation String (Value A)}
    (h : setexprToSql e n = some (q, n')) (hq : q.eval M = some rel)
    (hc : singleColumn e = some c) :
    rel.columns = [c] := by
  cases e with
  | select s =>
    obtain ⟨rfl, -⟩ := Prod.mk.inj (Option.some.inj h)
    obtain rfl : s.result = rel := Option.some.inj hq
    apply s.named
    unfold singleColumn at hc
    unfold projectionColumns
    split at hc
    · next item hitem =>
      rw [hitem, if_neg (by simp), List.mapM_cons, hc]
      rfl
    · cases hc
  | values rows => cases hc
  | other => cases hc
  | setOperation op quantifier left right =>
    have hleft : singleColumn left = some c := hc
    obtain ⟨⟨lq, m⟩, _, h⟩ := Option.bind_eq_some_iff.mp h
    obtain ⟨⟨rq, m'⟩, _, h⟩ := Option.bind_eq_some_iff.mp h
    obtain ⟨q', hq', hpair⟩ := Option.map_eq_some_iff.mp h
    obtain ⟨rfl, -⟩ := Prod.mk.inj hpair
    unfold operationSql at hq'
    cases op with
    | intersect | except =>
      simp only [hleft, Option.map_some, Option.some.injEq] at hq'
      subst hq'
      exact select_columns hq
    | union =>
      obtain ⟨lcols, hlcols, hq'⟩ := Option.bind_eq_some_iff.mp hq'
      obtain ⟨rcols, hrcols, hq'⟩ := Option.bind_eq_some_iff.mp hq'
      split_ifs at hq' with hlen
      obtain rfl := Option.some.inj hq'
      obtain rfl := columns_of_singleColumn hleft hlcols
      unfold unionOf at hq
      split_ifs at hq with hall
      · rw [unionAll_eq] at hq
        rw [select_columns hq, unionProjection_names (not_not.mp hlen)]
      · exact select_columns hq

/-- What the queries of the branches return: the right one a single column. -/
def Branches (M : Membership A) (left right : SetExpr A) (L R : Relation String (Value A)) : Prop :=
  ∃ l r m m', setexprToSql left 1 = some (l, m) ∧ setexprToSql right m = some (r, m') ∧
    l.eval M = some L ∧ r.eval M = some R ∧ R.columns.length = 1

/-- The bag that `IN` or `NOT IN` selects, against that of the operation. -/
theorem selected_eq_iff {verdict : Option Bool} {op : SetOperator} {quantifier : SetQuantifier}
    {l r : Multiset (List (Value A))} (hop : op = .intersect ∨ op = .except) :
    (if keepAll quantifier then l.filter (Selected verdict (op = .except) r)
      else (l.filter (Selected verdict (op = .except) r)).dedup) = operationBag op quantifier l r ↔
        InAgrees verdict op quantifier l r := by
  rcases hop with rfl | rfl
  · have hselected : l.filter (Selected verdict (SetOperator.intersect = .except) r) =
        l.filter fun row => row ≠ [.null] ∧ row ∈ r :=
      Multiset.filter_congr fun row _ => by simp [Selected]
    rw [hselected]
    unfold operationBag InAgrees Matching
    dsimp only
    split_ifs with hall
    · rw [filter_in_eq_inter_iff]
      simp [hall]
    · rw [dedup_in_eq_inter_iff]
      simp [hall]
  · unfold InAgrees
    dsimp only
    by_cases hverdict : verdict = some false
    · have hselected : l.filter (Selected verdict (SetOperator.except = .except) r) =
          l.filter fun row => ¬(row ≠ [.null] ∧ row ∈ r) :=
        Multiset.filter_congr fun row _ => by simp [Selected, hverdict]
      rw [hselected, if_pos hverdict]
      unfold operationBag Matching
      dsimp only
      split_ifs with hall
      · rw [filter_not_in_eq_sub_iff]
        simp [hall]
      · rw [dedup_not_in_eq_iff]
        simp [hall]
    · have hselected : l.filter (Selected verdict (SetOperator.except = .except) r) =
          l.filter (NotIn [.null] r) := Multiset.filter_congr fun row _ => by
        simp [Selected, hverdict]
      rw [hselected, if_neg hverdict]
      unfold operationBag
      dsimp only
      split_ifs with hall hnull hnull
      · rw [filter_notIn_eq_sub_iff, if_pos hnull]
      · rw [filter_notIn_eq_sub_iff, if_neg hnull]
        simp [hall]
      · rw [dedup_notIn_eq_iff, if_pos hnull]
      · rw [dedup_notIn_eq_iff, if_neg hnull]
        simp [hall]

end Selection

def valuesOf (values : List (Value Empty)) : Relation String (Value Empty) :=
  ⟨["a"], values.map fun v => [v], by simp⟩

/-- `SELECT a FROM t`. -/
def selectValues (values : List (Value Empty)) : SetExpr Empty :=
  .select ⟨[.identifier "a"], valuesOf values, by
    intro cols hcols
    cases hcols
    rfl⟩

end BlueDB.Sql.SetOps
