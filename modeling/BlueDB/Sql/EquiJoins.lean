import BlueDB.Sql.JoinedRows

/-!
# Equi-joins keep their rows

The position that the pass has for a table is never before the table, so that its columns
are in scope where it puts the equality, unless the table is a dictionary and the position
that of another table.
-/

namespace BlueDB.Pushdown

open Formula (Truth)
open JoinChain (Link Reads Placed run)

variable {X S D : Type} {e : Engine X S D}

def TableFactor.keys : TableFactor S → List String
  | .table name none => [name]
  | .table name (some aliasName) => [aliasName, name]
  | .derived _ aliasName => [aliasName]
  | .series _ aliasName => [aliasName]
  | .dictionary _ _ => []

def TableFactor.isDictionary : TableFactor S → Bool
  | .dictionary _ _ => true
  | _ => false

theorem visible_mem_keys {factor : TableFactor S} (h : factor.isDictionary = false) :
    factor.visible ∈ factor.keys := by
  cases factor with
  | table name aliasName =>
    cases aliasName with
    | none => exact List.mem_singleton_self _
    | some _ => exact List.mem_cons_self
  | derived _ _ => exact List.mem_singleton_self _
  | series _ _ => exact List.mem_singleton_self _
  | dictionary _ _ => exact absurd h nofun

theorem lookup_registerTable (t : Registered) (pos : ℕ) (factor : TableFactor S) (name : String) :
    (registerTable t pos factor).tablePos.lookup name =
      if name ∈ factor.keys then some pos else t.tablePos.lookup name := by
  have hcons : ∀ (key : String) (entries : List (String × ℕ)),
      ((key, pos) :: entries).lookup name =
        if name = key then some pos else entries.lookup name := by
    intro key entries
    rw [List.lookup_cons]
    by_cases hname : name = key
    · rw [if_pos hname, hname, beq_self_eq_true]
    · rw [if_neg hname, beq_eq_false_iff_ne.mpr hname]
  cases factor with
  | table table aliasName =>
    cases aliasName with
    | none => simp only [registerTable, TableFactor.keys, hcons, List.mem_singleton]
    | some aliasName =>
      simp only [registerTable, TableFactor.keys, hcons, List.mem_cons, List.not_mem_nil, or_false]
      split_ifs <;> simp_all
  | derived _ aliasName | series _ aliasName =>
    simp only [registerTable, TableFactor.keys, hcons, List.mem_singleton]
  | dictionary _ _ => simp only [registerTable, TableFactor.keys, List.not_mem_nil, if_false]

theorem lookup_registerTables {t : Registered} {pos : ℕ} {factors : List (TableFactor S)}
    (h : ∀ name p, t.tablePos.lookup name = some p → p < pos) :
    (∀ name p, t.tablePos.lookup name = some p →
      ∃ p', (registerTables t pos factors).tablePos.lookup name = some p' ∧ p ≤ p') ∧
    ∀ (i : ℕ) (factor : TableFactor S), factors[i]? = some factor → ∀ name ∈ factor.keys,
      ∃ p, (registerTables t pos factors).tablePos.lookup name = some p ∧ pos + i ≤ p := by
  induction factors generalizing t pos with
  | nil => exact ⟨fun _ p hp => ⟨p, hp, le_rfl⟩, fun _ _ hi => absurd hi nofun⟩
  | cons factor factors ih =>
    have hbound : ∀ name p, (registerTable t pos factor).tablePos.lookup name = some p →
        p < pos + 1 := by
      intro name p hp
      rw [lookup_registerTable] at hp
      split_ifs at hp
      · exact (Option.some.inj hp).symm ▸ Nat.lt_succ_self pos
      · exact (h name p hp).trans (Nat.lt_succ_self pos)
    obtain ⟨hkept, hlater⟩ := ih hbound
    refine ⟨?_, ?_⟩
    · intro name p hp
      by_cases hname : name ∈ factor.keys
      · have hstep : (registerTable t pos factor).tablePos.lookup name = some pos := by
          rw [lookup_registerTable, if_pos hname]
        obtain ⟨p', hp', hle⟩ := hkept name pos hstep
        exact ⟨p', hp', (h name p hp).le.trans hle⟩
      · have hstep : (registerTable t pos factor).tablePos.lookup name = some p := by
          rw [lookup_registerTable, if_neg hname, hp]
        exact hkept name p hstep
    · intro i factor' hi name hname
      cases i with
      | zero =>
        obtain rfl := Option.some.inj hi
        have hstep : (registerTable t pos factor).tablePos.lookup name = some pos := by
          rw [lookup_registerTable, if_pos hname]
        exact hkept name pos hstep
      | succ i =>
        obtain ⟨p, hp, hle⟩ := hlater i factor' hi name hname
        exact ⟨p, hp, by omega⟩

theorem mem_tables_registerTables {t : Registered} {pos : ℕ} {factors : List (TableFactor S)}
    {name : String} {p : ℕ} (h : (name, p) ∈ (registerTables t pos factors).tables) :
    (name, p) ∈ t.tables ∨
      ∃ i aliasName, factors[i]? = some (.table name aliasName) ∧ p = pos + i := by
  induction factors generalizing t pos with
  | nil => exact Or.inl h
  | cons factor factors ih =>
    rcases ih h with hstep | ⟨i, aliasName, hi, rfl⟩
    · have htable : ∀ aliasName table, factor = .table table aliasName →
          (name, p) ∈ t.tables ++ [(table, pos)] → (name, p) ∈ t.tables ∨
            ∃ i aliasName, (factor :: factors)[i]? = some (.table name aliasName) ∧
              p = pos + i := by
        rintro aliasName table rfl hmem
        rcases List.mem_append.mp hmem with hold | hnew
        · exact Or.inl hold
        · obtain ⟨rfl, rfl⟩ := Prod.mk.inj (List.mem_singleton.mp hnew)
          exact Or.inr ⟨0, aliasName, rfl, rfl⟩
      cases factor with
      | table table aliasName => cases aliasName <;> exact htable _ table rfl hstep
      | _ => exact Or.inl hstep
    · exact Or.inr ⟨i + 1, aliasName, hi, by omega⟩

def Select.refPosition (schemaMap : SchemaMap) (s : Select X S) (r : Ref) : Option ℕ :=
  match r.table with
  | some table => s.registered.tablePos.lookup table
  | none => buildColumnIndex schemaMap s.registered.tables r.column

theorem colPosition_eq_some {schemaMap : SchemaMap} {s : Select X S} {x : Expr X} {p : ℕ}
    (h : colPosition s.registered.tablePos (buildColumnIndex schemaMap s.registered.tables) x =
      some p) : ∃ r, columnOf x = some r ∧ s.refPosition schemaMap r = some p := by
  induction x with
  | identifier name => exact ⟨⟨none, name⟩, rfl, h⟩
  | compoundIdentifier table ident => exact ⟨⟨some table, ident⟩, rfl, h⟩
  | nested inner ih => exact ih h
  | _ => exact absurd h nofun

def Conforms (e : Engine X S D) (schemaMap : SchemaMap) (s : Select X S) : Prop :=
  ∀ name aliasName, .table name aliasName ∈ s.factors → ∀ schema ∈ schemaMap name,
    ∀ columns ∈ schema.columnDefs, (e.contents (.table name aliasName)).columns = columns

theorem buildColumnIndex_spec {schemaMap : SchemaMap} {s : Select X S} {column : String} {p : ℕ}
    (h : buildColumnIndex schemaMap s.registered.tables column = some p)
    (hconforms : Conforms e schemaMap s) :
    ∃ entry, (e.scope s)[p]? = some entry ∧ column ∈ entry.2 := by
  have hmem : (column, p) ∈ columnPositions schemaMap s.registered.tables := by
    unfold buildColumnIndex at h
    split at h
    · next column' p' heq =>
      obtain rfl := Option.some.inj h
      have hfilter : (column', p') ∈ (columnPositions schemaMap s.registered.tables).filter
          (·.1 == column) := heq ▸ List.mem_singleton_self _
      obtain ⟨hmem, hname⟩ := List.mem_filter.mp hfilter
      rwa [← beq_iff_eq.mp hname]
    · exact absurd h nofun
  obtain ⟨⟨name, pos⟩, htable, hcolumn⟩ := List.mem_flatMap.mp hmem
  obtain ⟨column', hcolumns, heq⟩ := List.mem_map.mp hcolumn
  obtain ⟨rfl, rfl⟩ := Prod.mk.inj heq
  rcases mem_tables_registerTables htable with hnone | ⟨i, aliasName, hi, hpos⟩
  · exact absurd hnone List.not_mem_nil
  · rw [Nat.zero_add] at hpos
    rw [hpos]
    have hentry : (e.scope s)[i]? = some (e.entry (.table name aliasName)) := by
      unfold Engine.scope
      rw [List.getElem?_map, hi]
      rfl
    refine ⟨_, hentry, ?_⟩
    cases hschema : (schemaMap name).bind Schema.columnDefs with
    | none =>
      rw [hschema] at hcolumns
      exact absurd hcolumns List.not_mem_nil
    | some columns =>
      rw [hschema] at hcolumns
      obtain ⟨schema, hname, hdefs⟩ := Option.bind_eq_some_iff.mp hschema
      have hsame := hconforms name aliasName (List.mem_of_getElem? hi) schema hname columns hdefs
      unfold Engine.entry
      rw [hsame]
      exact hcolumns

/-- The pass has no position before the table of a column, unless that is a dictionary. -/
theorem resolve_le_refPosition {schemaMap : SchemaMap} {s : Select X S} {r : Ref} {t p : ℕ}
    (ht : e.resolve (e.scope s) r = some t) (hp : s.refPosition schemaMap r = some p)
    (hconforms : Conforms e schemaMap s) (hunique : Unambiguous (e.scope s) r)
    (hdictionary : ∀ factor, r.table ≠ none → s.factors[t]? = some factor →
      factor.isDictionary = false) : t ≤ p := by
  obtain ⟨entry, hentry, hcolumn, hname⟩ := resolve_spec ht
  unfold Select.refPosition at hp
  split at hp
  · next table htable =>
    unfold Engine.scope at hentry
    rw [List.getElem?_map] at hentry
    obtain ⟨factor, hfactor, rfl⟩ := Option.map_eq_some_iff.mp hentry
    have hkind := hdictionary factor (by rw [htable]; exact nofun) hfactor
    have hkey : table ∈ factor.keys := by
      rw [← hname table htable]
      exact visible_mem_keys hkind
    have hempty : ∀ name p, (([] : List (String × ℕ)).lookup name) = some p → p < 0 :=
      fun _ _ hnone => absurd hnone nofun
    obtain ⟨p', hp', hle⟩ := (lookup_registerTables (t := ⟨[], []⟩) hempty).2 t factor hfactor
      table hkey
    have hlookup : s.registered.tablePos.lookup table = some p' := hp'
    rw [hlookup] at hp
    obtain rfl := Option.some.inj hp
    rw [Nat.zero_add] at hle
    exact hle
  · next htable =>
    obtain ⟨entry', hentry', hcolumn'⟩ := buildColumnIndex_spec hp hconforms
    exact (hunique htable t p entry entry' hentry hcolumn hentry' hcolumn').le

def qualifiers : Expr X → List String
  | .compoundIdentifier table _ => [table]
  | .nested inner => qualifiers inner
  | .binaryOp left _ right => qualifiers left ++ qualifiers right
  | _ => []

/-- The columns of an expression that are named without their table, as far as the pass
looks into it. -/
def unqualified : Expr X → List String
  | .identifier name => [name]
  | .nested inner => unqualified inner
  | .binaryOp left _ right => unqualified left ++ unqualified right
  | _ => []

theorem mem_qualifiers_column {x : Expr X} {r : Ref} (h : columnOf x = some r) {table : String} :
    table ∈ qualifiers x ↔ r.table = some table := by
  induction x with
  | identifier name =>
    obtain rfl := Option.some.inj h
    exact iff_of_false List.not_mem_nil nofun
  | compoundIdentifier table' ident =>
    obtain rfl := Option.some.inj h
    rw [qualifiers, List.mem_singleton, Option.some.injEq, eq_comm]
  | nested inner ih => exact ih h
  | _ => exact absurd h nofun

theorem mem_unqualified_column {x : Expr X} {r : Ref} (h : columnOf x = some r)
    (htable : r.table = none) : r.column ∈ unqualified x := by
  induction x with
  | identifier name =>
    obtain rfl := Option.some.inj h
    exact List.mem_singleton_self _
  | compoundIdentifier table' ident =>
    obtain rfl := Option.some.inj h
    exact absurd htable nofun
  | nested inner ih => exact ih h
  | _ => exact absurd h nofun

theorem unqualified_unnest (x : Expr X) : unqualified (unnest x) = unqualified x := by
  induction x with
  | nested inner ih => exact ih
  | _ => rfl

theorem unqualified_splitAnd {x c : Expr X} (h : c ∈ splitAnd x) :
    ∀ name ∈ unqualified c, name ∈ unqualified x := by
  induction x with
  | binaryOp left op right ihl ihr =>
    cases op with
    | and =>
      intro name hname
      rw [unqualified, List.mem_append]
      rcases List.mem_append.mp h with hleft | hright
      · exact Or.inl (ihl hleft name hname)
      · exact Or.inr (ihr hright name hname)
    | _ => rw [List.mem_singleton.mp h]; exact fun _ hname => hname
  | _ => rw [List.mem_singleton.mp h]; exact fun _ hname => hname

theorem inScope_unnest (scope : Scope) (x : Expr X) :
    e.inScope scope (unnest x) = e.inScope scope x := by
  induction x with
  | nested inner ih => exact ih
  | _ => rfl

theorem holds_unnest (scope : Scope) (row : List (Record D)) (x : Expr X) :
    e.holds scope row (unnest x) = e.holds scope row x := by
  induction x with
  | nested inner ih =>
    unfold Engine.holds at ih ⊢
    rw [unnest, ih, Engine.eval]
  | _ => rfl

/-- What is moved, and where to. -/
structure Moves (schemaMap : SchemaMap) (s : Select X S) (c : Expr X) (i : ℕ) (x : Expr X)
    (r r' : Ref) : Prop where
  equates : Equates x r r'
  unnested : unnest c = x
  inner : ∃ j, s.joins[i]? = some j ∧ j.isInner = true
  position : ∃ p q, s.refPosition schemaMap r = some p ∧ s.refPosition schemaMap r' = some q ∧
    max p q = i + 1

theorem target_spec {schemaMap : SchemaMap} {s : Select X S} {c x : Expr X} {i : ℕ}
    (h : s.target schemaMap c = some (i, x)) : ∃ r r', Moves schemaMap s c i x r r' := by
  unfold Select.target at h
  obtain ⟨htarget, hinner⟩ := Option.filter_eq_some_iff.mp h
  unfold equijoinTarget at htarget
  split at htarget
  · next left right hunnest =>
    obtain ⟨p, hp, htarget⟩ := Option.bind_eq_some_iff.mp htarget
    obtain ⟨q, hq, htarget⟩ := Option.bind_eq_some_iff.mp htarget
    split_ifs at htarget with hne
    obtain ⟨hi, hx⟩ := Prod.mk.inj (Option.some.inj htarget)
    obtain ⟨r, hr, hposition⟩ := colPosition_eq_some hp
    obtain ⟨r', hr', hposition'⟩ := colPosition_eq_some hq
    exact ⟨r, r', ⟨left, right, hx.symm, hr, hr'⟩, hunnest.trans hx,
      (Option.any_eq_true _ _).mp hinner, p, q, hposition, hposition', by omega⟩
  · exact absurd htarget nofun

/-- The equalities that are moved to a join. -/
def Select.moved (schemaMap : SchemaMap) (s : Select X S) (selection : Expr X) (i : ℕ) :
    List (Expr X) :=
  (((splitAnd selection).filterMap (s.target schemaMap)).filter (·.1 == i)).map Prod.snd

theorem mem_moved {schemaMap : SchemaMap} {s : Select X S} {selection x : Expr X} {i : ℕ} :
    x ∈ s.moved schemaMap selection i ↔
      ∃ c ∈ splitAnd selection, s.target schemaMap c = some (i, x) := by
  unfold Select.moved
  constructor
  · intro h
    obtain ⟨m, hm, rfl⟩ := List.mem_map.mp h
    obtain ⟨hmem, hi⟩ := List.mem_filter.mp hm
    obtain rfl := beq_iff_eq.mp hi
    exact List.mem_filterMap.mp hmem
  · intro h
    have hmem : (i, x) ∈ ((splitAnd selection).filterMap (s.target schemaMap)).filter (·.1 == i) :=
      List.mem_filter.mpr ⟨List.mem_filterMap.mpr h, beq_self_eq_true i⟩
    exact List.mem_map.mpr ⟨(i, x), hmem, rfl⟩

/-- The names of a statement: visible names are distinct, columns that the WHERE names
without a table are of one table, and tables are as their schemas say. -/
structure WellNamed (e : Engine X S D) (schemaMap : SchemaMap) (s : Select X S) : Prop where
  visible : (s.factors.map TableFactor.visible).Nodup
  unique : ∀ selection ∈ s.selection, ∀ name ∈ unqualified selection,
    Unambiguous (e.scope s) ⟨none, name⟩
  conforms : Conforms e schemaMap s

/-- No equality is moved to a join before a dictionary that it names. -/
def DictionariesInScope (schemaMap : SchemaMap) (s : Select X S) : Prop :=
  ∀ selection ∈ s.selection, ∀ c ∈ splitAnd selection, ∀ m ∈ s.target schemaMap c,
    ∀ table ∈ qualifiers m.2, ∀ (t : ℕ) (dict : S),
      s.factors[t]? = some (.dictionary dict table) → t ≤ m.1 + 1

theorem dictionariesInScope_of_registered {schemaMap : SchemaMap} {s : Select X S}
    (h : ∀ factor ∈ s.factors, factor.isDictionary = false) : DictionariesInScope schemaMap s := by
  intro _ _ _ _ _ _ _ _ t dict ht
  exact absurd (h _ (List.mem_of_getElem? ht)) nofun

theorem resolve_take {scope : Scope} {r : Ref} {t : ℕ} (h : Unambiguous scope r)
    (ht : e.resolve scope r = some t) (n : ℕ) (hn : n ≤ scope.length) :
    e.resolve (scope.take n) r = if t < n then some t else none := by
  have hsplit : scope.take n ++ scope.drop n = scope := List.take_append_drop n scope
  have hbegins := @resolve_of_append _ _ _ e (scope.take n) (scope.drop n) _ (hsplit.symm ▸ h)
  rw [hsplit, ht, List.length_take, min_eq_left hn, Option.filter_some] at hbegins
  rw [hbegins]
  simp only [decide_eq_true_eq]

section

variable {schemaMap : SchemaMap} {s : Select X S} {selection c x : Expr X} {i : ℕ} {r r' : Ref}

theorem Moves.unambiguous (h : Moves schemaMap s c i x r r') (hnames : WellNamed e schemaMap s)
    (hselection : s.selection = some selection) (hc : c ∈ splitAnd selection) :
    Unambiguous (e.scope s) r ∧ Unambiguous (e.scope s) r' := by
  obtain ⟨left, right, hx, hleft, hright⟩ := h.equates
  have hcolumns : ∀ name ∈ unqualified x, Unambiguous (e.scope s) ⟨none, name⟩ := by
    intro name hname
    rw [← h.unnested, unqualified_unnest] at hname
    exact hnames.unique selection hselection name (unqualified_splitAnd hc name hname)
  rw [hx] at hcolumns
  refine ⟨fun htable => ?_, fun htable => ?_⟩
  · exact hcolumns r.column (List.mem_append_left _ (mem_unqualified_column hleft htable)) rfl
  · exact hcolumns r'.column (List.mem_append_right _ (mem_unqualified_column hright htable)) rfl

theorem Moves.resolved (h : Moves schemaMap s c i x r r') (hc : c ∈ splitAnd selection)
    (hscope : e.inScope (e.scope s) selection = true) :
    ∃ t t', e.resolve (e.scope s) r = some t ∧ e.resolve (e.scope s) r' = some t' := by
  rw [← all_splitAnd (conjunctive_inScope _)] at hscope
  have hin := List.all_eq_true.mp hscope c hc
  rw [← inScope_unnest, h.unnested, h.equates.inScope_iff] at hin
  obtain ⟨t, ht⟩ := Option.isSome_iff_exists.mp hin.1
  obtain ⟨t', ht'⟩ := Option.isSome_iff_exists.mp hin.2
  exact ⟨t, t', ht, ht'⟩

theorem Moves.le_length (h : Moves schemaMap s c i x r r') : i + 2 ≤ (e.scope s).length := by
  obtain ⟨j, hj, -⟩ := h.inner
  have hlt := (List.getElem?_eq_some_iff.mp hj).1
  unfold Engine.scope Select.factors
  rw [List.length_map, List.length_cons, List.length_map]
  omega

theorem Moves.inScope_iff (h : Moves schemaMap s c i x r r') (hnames : WellNamed e schemaMap s)
    (hselection : s.selection = some selection) (hc : c ∈ splitAnd selection) {t t' : ℕ}
    (ht : e.resolve (e.scope s) r = some t) (ht' : e.resolve (e.scope s) r' = some t') :
    e.inScope ((e.scope s).take (i + 2)) x = true ↔ t ≤ i + 1 ∧ t' ≤ i + 1 := by
  obtain ⟨hr, hr'⟩ := h.unambiguous hnames hselection hc
  rw [h.equates.inScope_iff, resolve_take hr ht _ h.le_length, resolve_take hr' ht' _ h.le_length]
  split_ifs <;> simp <;> omega

/-- A moved equality says of the rows what it says with all tables in scope. -/
theorem Moves.holds_take (h : Moves schemaMap s c i x r r') (hnames : WellNamed e schemaMap s)
    (hselection : s.selection = some selection) (hc : c ∈ splitAnd selection)
    (hscope : e.inScope (e.scope s) selection = true)
    (hin : e.inScope ((e.scope s).take (i + 2)) x = true) (row : List (Record D)) :
    e.holds ((e.scope s).take (i + 2)) row x = e.holds (e.scope s) row c := by
  obtain ⟨t, t', ht, ht'⟩ := h.resolved hc hscope
  obtain ⟨hle, hle'⟩ := (h.inScope_iff hnames hselection hc ht ht').mp hin
  obtain ⟨hr, hr'⟩ := h.unambiguous hnames hselection hc
  rw [← holds_unnest (x := c), h.unnested, h.equates.holds_eq, h.equates.holds_eq,
    resolve_take hr ht _ h.le_length, resolve_take hr' ht' _ h.le_length,
    if_pos (Nat.lt_succ_of_le hle), if_pos (Nat.lt_succ_of_le hle'), ht, ht']

theorem moved_inScope_iff (hnames : WellNamed e schemaMap s)
    (hselection : s.selection = some selection)
    (hscope : e.inScope (e.scope s) selection = true) :
    (∀ i, ∀ x ∈ s.moved schemaMap selection i, e.inScope ((e.scope s).take (i + 2)) x = true) ↔
      DictionariesInScope schemaMap s := by
  constructor
  · rintro h selection' hselection' c hc ⟨i, x⟩ hm table htable t dict hfactor
    rw [hselection] at hselection'
    obtain rfl := Option.some.inj hselection'
    obtain ⟨r, r', hmoves⟩ := target_spec hm
    obtain ⟨t₁, t₂, ht₁, ht₂⟩ := hmoves.resolved hc hscope
    have hin := h i x (mem_moved.mpr ⟨c, hc, hm⟩)
    obtain ⟨hle₁, hle₂⟩ := (hmoves.inScope_iff hnames hselection hc ht₁ ht₂).mp hin
    have hsame : ∀ (r : Ref) (t' : ℕ), e.resolve (e.scope s) r = some t' → r.table = some table →
        t = t' := by
      intro r t' ht' hr
      obtain ⟨entry, hentry, -, hname⟩ := resolve_spec ht'
      unfold Engine.scope at hentry
      rw [List.getElem?_map] at hentry
      obtain ⟨factor, hfactor', rfl⟩ := Option.map_eq_some_iff.mp hentry
      have hvisible : (s.factors.map TableFactor.visible)[t]? = some table := by
        rw [List.getElem?_map, hfactor]
        rfl
      have hvisible' : (s.factors.map TableFactor.visible)[t']? = some table := by
        rw [List.getElem?_map, hfactor']
        exact congrArg some (hname table hr)
      have hlt := (List.getElem?_eq_some_iff.mp hvisible).1
      exact (List.getElem?_inj hlt hnames.visible).mp (hvisible.trans hvisible'.symm)
    obtain ⟨left, right, hx, hleft, hright⟩ := hmoves.equates
    rw [hx] at htable
    rcases List.mem_append.mp htable with hmem | hmem
    · rw [hsame r t₁ ht₁ ((mem_qualifiers_column hleft).mp hmem)]
      exact hle₁
    · rw [hsame r' t₂ ht₂ ((mem_qualifiers_column hright).mp hmem)]
      exact hle₂
  · intro h i x hx
    obtain ⟨c, hc, htarget⟩ := mem_moved.mp hx
    obtain ⟨r, r', hmoves⟩ := target_spec htarget
    obtain ⟨t, t', ht, ht'⟩ := hmoves.resolved hc hscope
    obtain ⟨hr, hr'⟩ := hmoves.unambiguous hnames hselection hc
    obtain ⟨p, q, hp, hq, hmax⟩ := hmoves.position
    obtain ⟨left, right, heq, hleft, hright⟩ := hmoves.equates
    have hplace : ∀ (r : Ref) (t p : ℕ), e.resolve (e.scope s) r = some t →
        s.refPosition schemaMap r = some p → Unambiguous (e.scope s) r →
        (∀ table, r.table = some table → table ∈ qualifiers x) → p ≤ i + 1 → t ≤ i + 1 := by
      intro r t p ht hp hr hqualifies hle
      by_cases hdictionary : ∃ table dict, r.table = some table ∧
          s.factors[t]? = some (.dictionary dict table)
      · obtain ⟨table, dict, htable, hfactor⟩ := hdictionary
        exact h selection hselection c hc (i, x) htarget table (hqualifies table htable) t dict
          hfactor
      · refine (resolve_le_refPosition ht hp hnames.conforms hr ?_).trans hle
        intro factor htable hfactor
        obtain ⟨table, htable⟩ := Option.ne_none_iff_exists'.mp htable
        obtain ⟨entry, hentry, -, hname⟩ := resolve_spec ht
        unfold Engine.scope at hentry
        rw [List.getElem?_map, hfactor] at hentry
        obtain rfl := Option.some.inj hentry
        cases factor with
        | dictionary dict aliasName =>
          have hvisible : aliasName = table := hname table htable
          rw [hvisible] at hfactor
          exact absurd ⟨table, dict, htable, hfactor⟩ hdictionary
        | _ => rfl
    rw [hmoves.inScope_iff hnames hselection hc ht ht']
    constructor
    · refine hplace r t p ht hp hr ?_ ((le_max_left p q).trans hmax.le)
      intro table htable
      rw [heq]
      exact List.mem_append_left _ ((mem_qualifiers_column hleft).mpr htable)
    · refine hplace r' t' q ht' hq hr' ?_ ((le_max_right p q).trans hmax.le)
      intro table htable
      rw [heq]
      exact List.mem_append_right _ ((mem_qualifiers_column hright).mpr htable)

end

section

variable {schemaMap : SchemaMap} {s : Select X S} {selection : Expr X}

theorem rewriteSelect_eq (hjoins : s.joins ≠ []) (hselection : s.selection = some selection) :
    rewriteSelect schemaMap s =
      { s with
        joins := s.joins.mapIdx fun i j => mergeAll (s.moved schemaMap selection i) j
        selection := combineAnd
          ((splitAnd selection).filter fun c => (s.target schemaMap c).isNone) } := by
  unfold rewriteSelect
  rw [if_neg (by rwa [List.isEmpty_iff]), hselection]
  rfl

theorem rewriteSelect_of_none (h : s.joins = [] ∨ s.selection = none) :
    rewriteSelect schemaMap s = s := by
  unfold rewriteSelect
  rcases h with hjoins | hselection
  · rw [hjoins]
    rfl
  · rw [hselection]
    exact ite_self s

theorem dictionariesInScope_of_none (h : s.joins = [] ∨ s.selection = none) :
    DictionariesInScope schemaMap s := by
  rintro selection hselection c hc ⟨i, x⟩ hm
  rcases h with hjoins | hnone
  · obtain ⟨r, r', hmoves⟩ := target_spec hm
    obtain ⟨j, hj, -⟩ := hmoves.inner
    rw [hjoins] at hj
    exact absurd hj nofun
  · rw [hnone] at hselection
    exact absurd hselection nofun

theorem toInner_moved : ToInner (s.moved schemaMap selection) s.joins := by
  intro i j hj
  by_cases hnil : s.moved schemaMap selection i = []
  · exact Or.inl hnil
  · obtain ⟨x, hx⟩ := List.exists_mem_of_ne_nil _ hnil
    obtain ⟨c, -, htarget⟩ := mem_moved.mp hx
    obtain ⟨r, r', hmoves⟩ := target_spec htarget
    obtain ⟨j', hj', hinner⟩ := hmoves.inner
    rw [hj] at hj'
    obtain rfl := Option.some.inj hj'
    exact Or.inr hinner

theorem placed_steps (scope : Scope) {moved : ℕ → List (Expr X)} {joins : List (Join X S)}
    (h : ToInner moved joins) (hmoved : ∀ i, ∀ x ∈ moved i, ∃ r r', Equates x r r') :
    Placed scope.length (e.steps scope moved joins) := by
  induction joins generalizing scope moved with
  | nil => trivial
  | cons j js ih =>
    have hlength : (scope ++ [e.entry j.relation]).length = scope.length + 1 := List.length_append
    refine ⟨?_, ?_, ?_⟩
    · intro row rest hrow
      dsimp only
      rw [Bool.eq_iff_iff, List.all_eq_true, List.all_eq_true]
      refine forall₂_congr fun x hx => ?_
      obtain ⟨r, r', hequates⟩ := hmoved 0 x hx
      exact Eq.congr_left (hequates.reads _ row rest (hlength.le.trans hrow))
    · intro houter
      rcases h 0 j rfl with hnil | hinner
      · funext row
        rw [hnil]
        rfl
      · have hkind : (!j.isInner) = true := houter
        rw [hinner] at hkind
        exact absurd hkind nofun
    · have hstep := ih (scope ++ [e.entry j.relation]) h.tail fun i => hmoved (i + 1)
      rw [hlength] at hstep
      exact hstep

theorem scope_rewritten (moved : ℕ → List (Expr X)) (x : Option (Expr X)) :
    e.scope { s with joins := s.joins.mapIdx fun i j => mergeAll (moved i) j, selection := x } =
      e.scope s := by
  have hrelations : (s.joins.mapIdx fun i j => mergeAll (moved i) j).map Join.relation =
      s.joins.map Join.relation := by
    apply List.ext_getElem?
    intro i
    rw [List.getElem?_map, List.getElem?_map, List.getElem?_mapIdx]
    cases s.joins[i]? with
    | none => rfl
    | some j => exact congrArg some (mergeAll_relation _ j)
  unfold Engine.scope Select.factors
  dsimp only
  rw [hrelations]

theorem scope_take (i : ℕ) : [e.entry s.relation] ++ (s.joins.take (i + 1)).map
    (fun j => e.entry j.relation) = (e.scope s).take (i + 2) := by
  unfold Engine.scope Select.factors
  rw [List.map_cons, List.take_succ_cons, List.map_map, List.map_take]
  rfl

/-- The residual conditions and those that are moved are the WHERE. -/
theorem holds_selection (hnames : WellNamed e schemaMap s)
    (hselection : s.selection = some selection)
    (hscope : e.inScope (e.scope s) selection = true)
    (hmoved : ∀ i, ∀ x ∈ s.moved schemaMap selection i,
      e.inScope ((e.scope s).take (i + 2)) x = true) (row : List (Record D)) :
    e.holds (e.scope s) row selection = true ↔
      (∀ c ∈ splitAnd selection, s.target schemaMap c = none →
        e.holds (e.scope s) row c = true) ∧
      ∀ i < s.joins.length, ∀ x ∈ s.moved schemaMap selection i,
        e.holds ((e.scope s).take (i + 2)) row x = true := by
  rw [← all_splitAnd (conjunctive_holds _ _), List.all_eq_true]
  constructor
  · intro h
    refine ⟨fun c hc _ => h c hc, ?_⟩
    intro i _ x hx
    obtain ⟨c, hc, htarget⟩ := mem_moved.mp hx
    obtain ⟨r, r', hmoves⟩ := target_spec htarget
    rw [hmoves.holds_take hnames hselection hc hscope (hmoved i x hx)]
    exact h c hc
  · rintro ⟨hresidual, hjoins⟩ c hc
    cases htarget : s.target schemaMap c with
    | none => exact hresidual c hc htarget
    | some m =>
      have hx : m.2 ∈ s.moved schemaMap selection m.1 := mem_moved.mpr ⟨c, hc, htarget⟩
      obtain ⟨r, r', hmoves⟩ := target_spec (x := m.2) (i := m.1) htarget
      obtain ⟨j, hj, -⟩ := hmoves.inner
      have hlt := (List.getElem?_eq_some_iff.mp hj).1
      rw [← hmoves.holds_take hnames hselection hc hscope (hmoved m.1 m.2 hx)]
      exact hjoins m.1 hlt m.2 hx

theorem rows_eq_some {rows : List (List (Record D))} (h : e.rows s = some rows) :
    (e.onsInScope [e.entry s.relation] s.joins = true ∧
      s.selection.all (e.inScope (e.scope s)) = true) ∧
    (run (e.links [e.entry s.relation] s.joins)
      ((e.contents s.relation).records.map fun r => [r])).filter (fun row =>
        s.selection.all (e.holds (e.scope s) row)) = rows := by
  unfold Engine.rows at h
  split_ifs at h with hscope
  exact ⟨(Bool.and_eq_true _ _).mp hscope, Option.some.inj h⟩

theorem moved_lt {x : Expr X} {i : ℕ} (hx : x ∈ s.moved schemaMap selection i) :
    i < s.joins.length := by
  obtain ⟨c, -, htarget⟩ := mem_moved.mp hx
  obtain ⟨r, r', hmoves⟩ := target_spec htarget
  obtain ⟨j, hj, -⟩ := hmoves.inner
  exact (List.getElem?_eq_some_iff.mp hj).1

/-- A rewritten statement that is not refused has its equalities in scope. -/
theorem inScope_of_rows (hjoins : s.joins ≠ []) (hselection : s.selection = some selection)
    {rows : List (List (Record D))} (h : e.rows (rewriteSelect schemaMap s) = some rows) :
    ∀ i, ∀ x ∈ s.moved schemaMap selection i,
      e.inScope ((e.scope s).take (i + 2)) x = true := by
  rw [rewriteSelect_eq hjoins hselection] at h
  obtain ⟨⟨hons, -⟩, -⟩ := rows_eq_some h
  obtain ⟨-, hmoved⟩ := (onsInScope_mergeAll _ toInner_moved).mp hons
  intro i x hx
  rw [← scope_take]
  exact hmoved i (moved_lt hx) x hx

theorem rows_rewritten (hnames : WellNamed e schemaMap s) (hjoins : s.joins ≠ [])
    (hselection : s.selection = some selection) {rows : List (List (Record D))}
    (hrows : e.rows s = some rows) (hmoved : ∀ i, ∀ x ∈ s.moved schemaMap selection i,
      e.inScope ((e.scope s).take (i + 2)) x = true) :
    e.rows (rewriteSelect schemaMap s) = some rows := by
  obtain ⟨⟨hons, hscope⟩, rfl⟩ := rows_eq_some hrows
  rw [hselection] at hscope
  change e.inScope (e.scope s) selection = true at hscope
  have hons' : e.onsInScope [e.entry s.relation]
      (s.joins.mapIdx fun i j => mergeAll (s.moved schemaMap selection i) j) = true := by
    rw [onsInScope_mergeAll _ toInner_moved]
    refine ⟨hons, fun i _ x hx => ?_⟩
    rw [scope_take]
    exact hmoved i x hx
  have hresidual : (combineAnd ((splitAnd selection).filter fun c =>
      (s.target schemaMap c).isNone)).all (e.inScope (e.scope s)) = true := by
    rw [all_combineAnd (conjunctive_inScope _), List.all_eq_true]
    rw [← all_splitAnd (conjunctive_inScope _), List.all_eq_true] at hscope
    exact fun c hc => hscope c (List.mem_filter.mp hc).1
  have hlinks : run (e.links [e.entry s.relation]
      (s.joins.mapIdx fun i j => mergeAll (s.moved schemaMap selection i) j))
        ((e.contents s.relation).records.map fun r => [r]) =
      (run (e.links [e.entry s.relation] s.joins)
        ((e.contents s.relation).records.map fun r => [r])).filter fun row =>
          (e.steps [e.entry s.relation] (s.moved schemaMap selection) s.joins).all
            fun p => p.2 row := by
    have hequates : ∀ i, ∀ x ∈ s.moved schemaMap selection i, ∃ r r', Equates x r r' := by
      intro i x hx
      obtain ⟨c, -, htarget⟩ := mem_moved.mp hx
      obtain ⟨r, r', hmoves⟩ := target_spec htarget
      exact ⟨r, r', hmoves.equates⟩
    rw [links_mergeAll _ toInner_moved, ← map_fst_steps _ (s.moved schemaMap selection)]
    apply JoinChain.run_restrict (placed_steps _ toInner_moved hequates)
    intro row hrow
    obtain ⟨r, -, rfl⟩ := List.mem_map.mp hrow
    rfl
  rw [rewriteSelect_eq hjoins hselection]
  unfold Engine.rows
  rw [scope_rewritten]
  dsimp only
  rw [hons', hresidual, Bool.and_self, if_pos rfl, hlinks, List.filter_filter]
  congr 1
  apply List.filter_congr
  intro row _
  rw [Bool.eq_iff_iff, Bool.and_eq_true, all_combineAnd (conjunctive_holds _ _), List.all_eq_true,
    all_steps, hselection]
  change _ ↔ e.holds (e.scope s) row selection = true
  rw [holds_selection hnames hselection hscope hmoved row]
  simp only [List.mem_filter, Option.isNone_iff_eq_none, and_imp, scope_take]

end

/-- TRUE, perhaps in parentheses. -/
inductive LiterallyTrue : Expr X → Prop
  | bool : LiterallyTrue (.bool true)
  | nested {inner : Expr X} : LiterallyTrue inner → LiterallyTrue (.nested inner)

theorem isTriviallyTrue_iff {x : Expr X} : isTriviallyTrue x = true ↔ LiterallyTrue x := by
  induction x with
  | bool b =>
    cases b with
    | true => exact iff_of_true rfl .bool
    | false => exact iff_of_false nofun nofun
  | nested inner ih =>
    constructor
    · intro h
      exact .nested (ih.mp h)
    · rintro ⟨⟩
      next h => exact ih.mpr h
  | _ => exact iff_of_false nofun nofun

def Select.KeepsCrossProduct (s : Select X S) : Prop :=
  ∃ j ∈ s.joins, ∃ on, j.operator = .inner (.on on) ∧ LiterallyTrue on

theorem isCrossProduct_iff {j : Join X S} :
    j.isCrossProduct = true ↔ ∃ on, j.operator = .inner (.on on) ∧ LiterallyTrue on := by
  obtain ⟨relation, operator⟩ := j
  cases operator with
  | inner c =>
    cases c with
    | on x =>
      change isTriviallyTrue x = true ↔ _
      rw [isTriviallyTrue_iff]
      constructor
      · intro h
        exact ⟨x, rfl, h⟩
      · rintro ⟨on, heq, hon⟩
        cases heq
        exact hon
    | none => exact iff_of_false nofun fun ⟨_, heq, _⟩ => nomatch heq
  | leftOuter c => exact iff_of_false nofun fun ⟨_, heq, _⟩ => nomatch heq

theorem rejectCrossProducts_iff (s : Select X S) :
    rejectCrossProducts (.query (.select s)) = .error .crossProduct ↔ s.KeepsCrossProduct := by
  have hany : s.joins.any Join.isCrossProduct = true ↔ s.KeepsCrossProduct := by
    rw [List.any_eq_true]
    exact exists_congr fun j => and_congr_right fun _ => isCrossProduct_iff
  rw [← hany]
  change (if s.joins.any Join.isCrossProduct then throw .crossProduct else return ()) =
    (.error .crossProduct : Except GlueError Unit) ↔ _
  split_ifs with h
  · exact iff_of_true rfl h
  · exact iff_of_false nofun h

/-- The rewritten statement has the rows of the statement, and is refused exactly when it
keeps a cross product, just when the dictionaries that its equalities name are in scope. -/
theorem pushdown_preserves_iff (e : Engine X S D) (schemaMap : SchemaMap) (s : Select X S)
    (hnames : WellNamed e schemaMap s) (rows : List (List (Record D)))
    (hrows : e.rows s = some rows) :
    (∃ s', pushdownEquijoins schemaMap (.query (.select s)) = .query (.select s') ∧
      (∃ rows', e.rows s' = some rows' ∧ rows'.Perm rows) ∧
      (rejectCrossProducts (.query (.select s')) = .error .crossProduct ↔
        s'.KeepsCrossProduct)) ↔
      DictionariesInScope schemaMap s := by
  have hreduce : (∃ s', pushdownEquijoins schemaMap (.query (.select s)) = .query (.select s') ∧
      (∃ rows', e.rows s' = some rows' ∧ rows'.Perm rows) ∧
      (rejectCrossProducts (.query (.select s')) = .error .crossProduct ↔
        s'.KeepsCrossProduct)) ↔
      ∃ rows', e.rows (rewriteSelect schemaMap s) = some rows' ∧ rows'.Perm rows := by
    constructor
    · rintro ⟨s', hs', hsame, -⟩
      cases hs'
      exact hsame
    · intro hsame
      exact ⟨_, rfl, hsame, rejectCrossProducts_iff _⟩
  rw [hreduce]
  by_cases hnone : s.joins = [] ∨ s.selection = none
  · rw [rewriteSelect_of_none hnone]
    exact iff_of_true ⟨rows, hrows, List.Perm.refl rows⟩ (dictionariesInScope_of_none hnone)
  · obtain ⟨hjoins, hsome⟩ := not_or.mp hnone
    obtain ⟨selection, hselection⟩ := Option.ne_none_iff_exists'.mp hsome
    have hscope := (rows_eq_some hrows).1.2
    rw [hselection] at hscope
    rw [← moved_inScope_iff hnames hselection hscope]
    constructor
    · rintro ⟨rows', hrows', -⟩
      exact inScope_of_rows hjoins hselection hrows'
    · intro hmoved
      exact ⟨rows, rows_rewritten hnames hjoins hselection hrows hmoved, List.Perm.refl rows⟩

namespace Example

def first (tables : List (List String)) (name : String) : Option ℕ :=
  tables.findIdx? fun columns => columns.contains name

theorem first_sound {tables : List (List String)} {name : String} {t : ℕ}
    (h : first tables name = some t) : ∃ columns, tables[t]? = some columns ∧ name ∈ columns := by
  obtain ⟨hlt, hmem, -⟩ := List.findIdx?_eq_some_iff_getElem.mp h
  exact ⟨tables[t], List.getElem?_eq_getElem hlt, List.contains_iff_mem.mp hmem⟩

theorem first_complete {tables : List (List String)} {name : String} {columns : List String}
    (h : columns ∈ tables) (hname : name ∈ columns) : (first tables name).isSome = true := by
  unfold first
  rw [List.findIdx?_isSome, List.any_eq_true]
  exact ⟨columns, h, List.contains_iff_mem.mpr hname⟩

/-- `orders` and `notes` have a key each, and the dictionary the names of the tables. -/
def contents : TableFactor String → Relation String
  | .table "orders" _ => ⟨["k"], [fun _ => .data "orders"]⟩
  | .table "notes" _ => ⟨["n"], [fun _ => .data "orders", fun _ => .data "notes"]⟩
  | .dictionary _ _ => ⟨["TABLE_NAME"], [fun _ => .data "notes", fun _ => .data "orders"]⟩
  | _ => ⟨[], []⟩

def engine : Engine Empty String String where
  contents := contents
  pick := first
  pick_sound := first_sound
  pick_complete := first_complete
  equal := (· == ·)
  operator _ _ _ := .null
  known _ _ := true
  other _ _ _ := .null

def schemas : SchemaMap
  | "orders" => some ⟨some ["k"]⟩
  | "notes" => some ⟨some ["n"]⟩
  | _ => none

theorem contents_columns {name : String} {columns : List String}
    (h : (schemas name).bind Schema.columnDefs = some columns) (aliasName : Option String) :
    (contents (.table name aliasName)).columns = columns := by
  unfold schemas at h
  split at h
  · exact Option.some.inj h
  · exact Option.some.inj h
  · exact absurd h nofun

theorem conforms (s : Select Empty String) : Conforms engine schemas s := by
  intro name aliasName _ schema hschema columns hcolumns
  exact contents_columns (Option.bind_eq_some_iff.mpr ⟨schema, hschema, hcolumns⟩) aliasName

/-- `FROM orders AS o JOIN notes ON TRUE LEFT JOIN orders AS p ON FALSE WHERE o.k = n` -/
def noted : Select Empty String where
  relation := .table "orders" (some "o")
  joins := [⟨.table "notes" none, .inner (.on (.bool true))⟩,
    ⟨.table "orders" (some "p"), .leftOuter (.on (.bool false))⟩]
  selection := some (.binaryOp (.compoundIdentifier "o" "k") .eq (.identifier "n"))

theorem noted_named : WellNamed engine schemas noted := by
  refine ⟨by decide, ?_, conforms noted⟩
  intro selection hselection name hname _ t t' entry entry' ht hmem ht' hmem'
  obtain rfl := Option.some.inj hselection
  obtain rfl := List.mem_singleton.mp hname
  have hone : ∀ (t : ℕ) (entry : String × List String), (engine.scope noted)[t]? = some entry →
      "n" ∈ entry.2 → t = 1 := by
    intro t entry ht hmem
    match t with
    | 0 => exact absurd (Option.some.inj ht ▸ hmem) (by decide)
    | 1 => rfl
    | 2 => exact absurd (Option.some.inj ht ▸ hmem) (by decide)
    | t + 3 => exact absurd ht nofun
  rw [hone t entry ht hmem, hone t' entry' ht' hmem']

theorem noted_answered : (engine.rows noted).isSome = true := by decide

theorem noted_preserved : ∃ s',
    pushdownEquijoins schemas (.query (.select noted)) = .query (.select s') ∧
      (∃ rows', engine.rows s' = some rows' ∧
        rows'.Perm ((engine.rows noted).get noted_answered)) ∧
      (rejectCrossProducts (.query (.select s')) = .error .crossProduct ↔
        s'.KeepsCrossProduct) := by
  refine (pushdown_preserves_iff engine schemas noted noted_named _
    (Option.some_get noted_answered).symm).mpr ?_
  apply dictionariesInScope_of_registered
  decide +kernel

/-- `FROM orders AS o JOIN notes ON TRUE JOIN GLUE_TABLES AS orders ON orders.TABLE_NAME = o.k
WHERE orders.TABLE_NAME = notes.n` -/
def listed : Select Empty String where
  relation := .table "orders" (some "o")
  joins := [⟨.table "notes" none, .inner (.on (.bool true))⟩,
    ⟨.dictionary "GLUE_TABLES" "orders", .inner (.on (.binaryOp
      (.compoundIdentifier "orders" "TABLE_NAME") .eq (.compoundIdentifier "o" "k")))⟩]
  selection := some (.binaryOp (.compoundIdentifier "orders" "TABLE_NAME") .eq
    (.compoundIdentifier "notes" "n"))

theorem listed_named : WellNamed engine schemas listed := by
  refine ⟨by decide, ?_, conforms listed⟩
  intro selection hselection name hname
  obtain rfl := Option.some.inj hselection
  exact absurd hname List.not_mem_nil

/-- The equality is put where the dictionary is not joined yet. -/
theorem pushdown_not_preserves : ¬∀ (s : Select Empty String) (rows : List (List (Record String))),
    WellNamed engine schemas s → engine.rows s = some rows →
    ∃ s', pushdownEquijoins schemas (.query (.select s)) = .query (.select s') ∧
      (∃ rows', engine.rows s' = some rows' ∧ rows'.Perm rows) ∧
      (rejectCrossProducts (.query (.select s')) = .error .crossProduct ↔
        s'.KeepsCrossProduct) := by
  intro h
  have hanswered : (engine.rows listed).isSome = true := by decide +kernel
  obtain ⟨s', hs', ⟨rows', hrows', -⟩, -⟩ := h listed _ listed_named
    (Option.some_get hanswered).symm
  have hrefused : (engine.rows (rewriteSelect schemas listed)).isSome = false := by decide +kernel
  cases hs'
  rw [hrows'] at hrefused
  exact absurd hrefused nofun

end Example

end BlueDB.Pushdown
