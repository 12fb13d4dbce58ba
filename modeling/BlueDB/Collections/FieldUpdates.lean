import BlueDB.Collections.Identity

/-!
# What an update reads and changes

Operators read and change the fields they name, and no other. Two documents that agree on
these fields agree on them after the update, and one succeeds where the other does.
-/

namespace BlueDB.Collections

variable {F : Type}

/-- The fields that the operators of an update name. -/
def touched : Json F → List String
  | .object upd => upd.flatMap fun op => match op.2 with
    | .object body => body.map Prod.fst
    | _ => []
  | _ => []

def HasOperators : Json F → Prop
  | .object upd => (upd.any fun op => op.1.toList.head? == some '$') = true
  | _ => False

/-- The fields agree where it is asked. -/
def Agree (S : String → Prop) (fields other : Fields F) : Prop :=
  ∀ k, S k → fields.lookup k = other.lookup k

/-- A step that takes agreeing fields to agreeing fields, and leaves what it does not name. -/
structure Local {β : Type} (f : Fields F → β → Except MqlError (Fields F))
    (names : β → List String) :
    Prop where
  frame : ∀ {fields b fields'}, f fields b = .ok fields' → ∀ k ∉ names b,
    fields'.lookup k = fields.lookup k
  agree : ∀ {S : String → Prop} {fields other b fields'}, (∀ k ∈ names b, S k) →
    Agree S fields other → f fields b = .ok fields' →
    ∃ other', f other b = .ok other' ∧ Agree S fields' other'

namespace Local

variable {β : Type} {f : Fields F → β → Except MqlError (Fields F)} {names : β → List String}

theorem foldlM (h : Local f names) :
    Local (fun fields (bs : List β) => bs.foldlM f fields) fun bs => bs.flatMap names where
  frame := by
    intro fields bs
    induction bs generalizing fields with
    | nil =>
      intro fields' hfold k _
      cases hfold
      rfl
    | cons b bs ih =>
      intro fields' hfold k hk
      rw [List.foldlM_cons] at hfold
      rw [List.flatMap_cons, List.mem_append, not_or] at hk
      cases hb : f fields b with
      | error e =>
        rw [hb] at hfold
        cases hfold
      | ok fields₁ =>
        rw [hb] at hfold
        exact (ih hfold k hk.2).trans (h.frame hb k hk.1)
  agree := by
    intro S fields other bs
    induction bs generalizing fields other with
    | nil =>
      intro fields' _ hagree hfold
      cases hfold
      exact ⟨other, rfl, hagree⟩
    | cons b bs ih =>
      intro fields' hnames hagree hfold
      rw [List.foldlM_cons] at hfold
      cases hb : f fields b with
      | error e =>
        rw [hb] at hfold
        cases hfold
      | ok fields₁ =>
        rw [hb] at hfold
        have hhead : ∀ k ∈ names b, S k := fun k hk =>
          hnames k (List.mem_flatMap.mpr ⟨b, List.mem_cons_self, hk⟩)
        have htail : ∀ k ∈ bs.flatMap names, S k := by
          intro k hk
          apply hnames
          rw [List.flatMap_cons]
          exact List.mem_append_right _ hk
        obtain ⟨other₁, hother, hagree₁⟩ := h.agree hhead hagree hb
        obtain ⟨other', hother', hagree'⟩ := ih htail hagree₁ hfold
        refine ⟨other', ?_, hagree'⟩
        rw [List.foldlM_cons, hother]
        exact hother'

end Local

/-- A step on one field, whose new value is made of its old one. -/
def Fieldwise (f : Fields F → String × Json F → Except MqlError (Fields F))
    (v : Option (Json F) → String × Json F → Except MqlError (Option (Json F))) : Prop :=
  ∀ fields b, match f fields b, v (fields.lookup b.1) b with
    | .ok fields', .ok x =>
      fields'.lookup b.1 = x ∧ ∀ k ≠ b.1, fields'.lookup k = fields.lookup k
    | .error _, .error _ => True
    | _, _ => False

theorem Fieldwise.local {f : Fields F → String × Json F → Except MqlError (Fields F)}
    {v : Option (Json F) → String × Json F → Except MqlError (Option (Json F))}
    (h : Fieldwise f v) : Local f fun b => [b.1] where
  frame := by
    intro fields b fields' hf k hk
    have hb := h fields b
    rw [hf] at hb
    split at hb
    · next heq _ =>
      cases heq
      exact hb.2 k fun hkb => hk (List.mem_singleton.mpr hkb)
    · next heq _ => cases heq
    · exact hb.elim
  agree := by
    intro S fields other b fields' hnames hagree hf
    have hsame := hagree b.1 (hnames b.1 (List.mem_singleton_self _))
    have hb := h fields b
    have ho := h other b
    rw [hf, hsame] at hb
    split at hb
    · next fields₁ x heq hx =>
      cases heq
      rw [hx] at ho
      split at ho
      · next other' x' hother hx' =>
        cases hx'
        refine ⟨other', hother, ?_⟩
        intro k hk
        by_cases hkb : k = b.1
        · rw [hkb, hb.1, ho.1]
        · rw [hb.2 k hkb, ho.2 k hkb]
          exact hagree k hk
      · next hx' => cases hx'
      · exact ho.elim
    · next heq _ => cases heq
    · exact hb.elim

theorem lookup_setField_pair (fields : Fields F) (k : String) (x : Json F) :
    (setField fields (k, x)).lookup k = some x ∧
      ∀ j ≠ k, (setField fields (k, x)).lookup j = fields.lookup j := by
  constructor
  · rw [lookup_setField, if_pos rfl]
  · intro j hj
    rw [lookup_setField, if_neg hj]

theorem fieldwise_set : Fieldwise (F := F) (fun fields f => .ok (setField fields f))
    fun _ f => .ok (some f.2) :=
  fun fields f => lookup_setField_pair fields f.1 f.2

theorem fieldwise_unset : Fieldwise (F := F) (fun fields f => .ok (unsetField fields f))
    fun _ _ => .ok none := by
  intro fields f
  constructor
  · rw [lookup_unsetField, if_pos rfl]
  · intro k hk
    rw [lookup_unsetField, if_neg hk]

theorem fieldwise_push : Fieldwise (F := F) pushField fun cur f => match cur with
    | none => .ok (some (.array [f.2]))
    | some (.array items) => .ok (some (.array (items ++ [f.2])))
    | some _ => .error (.malformed "$push target not an array") := by
  intro fields f
  unfold pushField
  cases fields.lookup f.1 with
  | none => exact lookup_setField_pair fields f.1 _
  | some x =>
    cases x with
    | array items => exact lookup_setField_pair fields f.1 _
    | _ => trivial

theorem flatMap_names (body : Fields F) : (body.flatMap fun b => [b.1]) = body.map Prod.fst := by
  induction body with
  | nil => rfl
  | cons b body ih => rw [List.flatMap_cons, ih, List.map_cons, List.singleton_append]

theorem foldlM_ok {α β ε : Type} (g : α → β → α) (l : List β) (a : α) :
    l.foldlM (fun a b => (.ok (g a b) : Except ε α)) a = .ok (l.foldl g a) := by
  induction l generalizing a with
  | nil => rfl
  | cons b l ih => exact ih (g a b)

theorem object_of_hasOperators {update : Json F} (h : HasOperators update) :
    ∃ upd, update = .object upd := by
  cases update with
  | object upd => exact ⟨upd, rfl⟩
  | _ => exact h.elim

theorem Fieldwise.loop {f : Fields F → String × Json F → Except MqlError (Fields F)}
    {v : Option (Json F) → String × Json F → Except MqlError (Option (Json F))}
    (h : Fieldwise f v) : Local (fun fields (body : Fields F) => body.foldlM f fields)
      fun body => body.map Prod.fst := by
  have hloop := h.local.foldlM
  simp only [flatMap_names] at hloop
  exact hloop

variable [Sums F]

theorem fieldwise_inc : Fieldwise (F := F) incField fun cur f => match f.2.asF64 with
    | some x => .ok (some (num (Sums.add ((cur.bind Json.asF64).getD (Doubles.ofInt 0)) x)))
    | none => .error (.malformed "$inc needs a number") := by
  intro fields f
  unfold incField
  dsimp only
  cases f.2.asF64 with
  | none => trivial
  | some x => exact lookup_setField_pair fields f.1 _

theorem fieldwise_pull : Fieldwise (F := F) (fun fields f => .ok (pullField fields f))
    fun cur f => match cur with
    | some (.array items) => .ok (some (.array (items.filter fun x => !x.same f.2)))
    | other => .ok other := by
  intro fields f
  unfold pullField
  dsimp only
  cases hx : fields.lookup f.1 with
  | none => exact ⟨hx, fun _ _ => rfl⟩
  | some x =>
    cases x with
    | array items => exact lookup_setField_pair fields f.1 _
    | _ => exact ⟨hx, fun _ _ => rfl⟩

/-- The fields that one operator names. -/
def opNames (op : String × Json F) : List String :=
  match op.2 with
  | .object body => body.map Prod.fst
  | _ => []

theorem local_applyOp : Local (applyOp (F := F)) opNames := by
  have hset := (fieldwise_set (F := F)).loop
  have hunset := (fieldwise_unset (F := F)).loop
  have hpull := (fieldwise_pull (F := F)).loop
  simp only [foldlM_ok] at hset hunset hpull
  constructor
  · rintro fields ⟨name, value⟩ fields' hop k hk
    unfold applyOp at hop
    cases value with
    | object body =>
      dsimp only at hop
      split at hop
      · exact hset.frame hop k hk
      · exact hunset.frame hop k hk
      · exact fieldwise_inc.loop.frame hop k hk
      · exact fieldwise_push.loop.frame hop k hk
      · exact hpull.frame hop k hk
      · cases hop
    | _ => cases hop
  · rintro S fields other ⟨name, value⟩ fields' hnames hagree hop
    unfold applyOp at hop ⊢
    cases value with
    | object body =>
      dsimp only at hop ⊢
      split at hop
      · exact hset.agree hnames hagree hop
      · exact hunset.agree hnames hagree hop
      · exact fieldwise_inc.loop.agree hnames hagree hop
      · exact fieldwise_push.loop.agree hnames hagree hop
      · exact hpull.agree hnames hagree hop
      · cases hop
    | _ => cases hop

theorem applyUpdate_ops {upd : Fields F} (hops : HasOperators (.object upd)) (fields : Fields F) :
    applyUpdate (.object fields) (.object upd) = upd.foldlM applyOp fields := by
  unfold applyUpdate
  exact if_pos hops

theorem applyUpdate_frame {update : Json F} (hops : HasOperators update) {fields fields' : Fields F}
    (h : applyUpdate (.object fields) update = .ok fields') {k : String} (hk : k ∉ touched update) :
    fields'.lookup k = fields.lookup k := by
  obtain ⟨upd, rfl⟩ := object_of_hasOperators hops
  rw [applyUpdate_ops hops] at h
  exact local_applyOp.foldlM.frame h k hk

theorem applyUpdate_agree {update : Json F} (hops : HasOperators update)
    {fields other fields' : Fields F} (hagree : Agree (· ∈ touched update) fields other)
    (h : applyUpdate (.object fields) update = .ok fields') :
    ∃ other', applyUpdate (.object other) update = .ok other' ∧
      Agree (· ∈ touched update) fields' other' := by
  obtain ⟨upd, rfl⟩ := object_of_hasOperators hops
  rw [applyUpdate_ops hops] at h
  obtain ⟨other', hother, hagree'⟩ := local_applyOp.foldlM.agree (fun _ hk => hk) hagree h
  exact ⟨other', (applyUpdate_ops hops other).trans hother, hagree'⟩

end BlueDB.Collections
