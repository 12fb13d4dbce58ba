import BlueDB.Collections.Update

/-!
# The identity of a document

An update with operators keeps the `_id` of a document when the last operator that sets,
removes or adds to `_id` sets it to what it was, or no operator does.
-/

namespace BlueDB.Collections

variable {F : Type}

theorem lookup_cons_ite {κ ν : Type*} [DecidableEq κ] (k : κ) (p : κ × ν) (l : List (κ × ν)) :
    (p :: l).lookup k = if k = p.1 then some p.2 else l.lookup k := by
  rw [List.lookup_cons]
  by_cases hk : k = p.1
  · rw [if_pos hk, beq_iff_eq.mpr hk]
  · rw [if_neg hk, beq_eq_false_iff_ne.mpr hk]

theorem lookup_insertEntry {κ ν : Type*} [LinearOrder κ] (k : κ) (v : ν) (l : List (κ × ν))
    (j : κ) : (OrderedMap.insertEntry k v l).lookup j = if j = k then some v else l.lookup j := by
  induction l with
  | nil =>
    unfold OrderedMap.insertEntry
    exact lookup_cons_ite j (k, v) []
  | cons p rest ih =>
    unfold OrderedMap.insertEntry
    split
    · exact lookup_cons_ite j (k, v) (p :: rest)
    · split
      · next hk =>
        rw [lookup_cons_ite, lookup_cons_ite]
        split_ifs with hj hjp
        · rfl
        · exact absurd (hjp.trans hk.symm) hj
        · rfl
      · next hk =>
        rw [lookup_cons_ite, lookup_cons_ite, ih]
        split_ifs with hjp hj
        · exact absurd (hj.symm.trans hjp) hk
        · rfl
        · rfl
        · rfl

theorem lookup_setField (fields : Fields F) (f : String × Json F) (k : String) :
    (setField fields f).lookup k = if k = f.1 then some f.2 else fields.lookup k :=
  lookup_insertEntry f.1 f.2 fields k

theorem lookup_unsetField (fields : Fields F) (f : String × Json F) (k : String) :
    (unsetField fields f).lookup k = if k = f.1 then none else fields.lookup k := by
  unfold unsetField
  induction fields with
  | nil => simp
  | cons p rest ih =>
    by_cases hp : p.1 = f.1
    · rw [List.filter_cons_of_neg (by simp [hp]), ih, lookup_cons_ite]
      split_ifs with hk hkp
      · rfl
      · exact absurd (hkp.trans hp) hk
      · rfl
    · rw [List.filter_cons_of_pos (by simp [hp]), lookup_cons_ite, lookup_cons_ite, ih]
      split_ifs with hkp hk
      · exact absurd (hkp.symm.trans hk) hp
      · rfl
      · rfl
      · rfl

/-- A relation of the items done so far and the value holds at the end of a loop that succeeds. -/
theorem foldlM_tracks {α β ε : Type} {f : α → β → Except ε α} (inv : α → List β → Prop)
    (hstep : ∀ a done b a', inv a done → f a b = .ok a' → inv a' (done ++ [b])) :
    ∀ (l : List β) {a : α} {done : List β} {a' : α}, inv a done → l.foldlM f a = .ok a' →
      inv a' (done ++ l) := by
  intro l
  induction l with
  | nil =>
    intro a done a' h hfold
    cases hfold
    rw [List.append_nil]
    exact h
  | cons b l ih =>
    intro a done a' h hfold
    rw [List.foldlM_cons] at hfold
    cases hb : f a b with
    | error e =>
      rw [hb] at hfold
      cases hfold
    | ok a₁ =>
      rw [hb] at hfold
      have hrest := ih (hstep a done b a₁ h hb) hfold
      rw [List.append_assoc] at hrest
      exact hrest

theorem foldl_tracks {α β : Type} {f : α → β → α} (inv : α → List β → Prop)
    (hstep : ∀ a done b, inv a done → inv (f a b) (done ++ [b])) :
    ∀ (l : List β) {a : α} {done : List β}, inv a done → inv (l.foldl f a) (done ++ l) := by
  intro l
  induction l with
  | nil =>
    intro a done h
    rw [List.append_nil]
    exact h
  | cons b l ih =>
    intro a done h
    have hrest := ih (hstep a done b h)
    rw [List.append_assoc] at hrest
    exact hrest

/-- The values that an operator leaves `_id` with, for each time that it names it: none when it
removes it or makes a number of it. Values pushed or pulled are left out. -/
def opWrites (op : String) (body : Fields F) : List (Option (Json F)) :=
  match op with
  | "$set" => (body.filter fun f => f.1 == "_id").map fun f => some f.2
  | "$unset" | "$inc" => (body.filter fun f => f.1 == "_id").map fun _ => none
  | _ => []

def idWrites (update : Fields F) : List (Option (Json F)) :=
  update.flatMap fun op => match op.2 with
    | .object body => opWrites op.1 body
    | _ => []

/-- The last value written is the `_id` it was, if one is. -/
def EndsWith (id : String) (writes : List (Option (Json F))) : Prop :=
  ∀ w ∈ writes.getLast?, w = some (.string id)

/-- An update without operators keeps every `_id`. -/
def KeepsId (id : String) : Json F → Prop
  | .object upd =>
    (upd.any fun op => op.1.toList.head? == some '$') = true → EndsWith id (idWrites upd)
  | _ => True

theorem endsWith_append (id : String) (writes : List (Option (Json F))) (w : Option (Json F)) :
    EndsWith id (writes ++ [w]) ↔ w = some (.string id) := by
  unfold EndsWith
  rw [List.getLast?_append]
  simp

/-- The `_id` is what it was if and only if the last write to it was. -/
def Tracked (id : String) (fields : Fields F) (writes : List (Option (Json F))) : Prop :=
  fields.lookup "_id" = some (.string id) ↔ EndsWith id writes

theorem opWrites_set (body : Fields F) :
    opWrites "$set" body = (body.filter fun f => f.1 == "_id").map fun f => some f.2 := rfl

theorem opWrites_unset (body : Fields F) :
    opWrites "$unset" body = (body.filter fun f => f.1 == "_id").map fun _ => none := rfl

theorem opWrites_append (op : String) (body body' : Fields F) :
    opWrites op (body ++ body') = opWrites op body ++ opWrites op body' := by
  unfold opWrites
  split
  · rw [List.filter_append, List.map_append]
  · rw [List.filter_append, List.map_append]
  · rw [List.filter_append, List.map_append]
  · rfl

theorem Tracked.of_lookup {id : String} {fields fields' : Fields F}
    {writes : List (Option (Json F))} (h : Tracked id fields writes)
    (hlookup : fields'.lookup "_id" = some (.string id) ↔ fields.lookup "_id" = some (.string id)) :
    Tracked id fields' writes := hlookup.trans h

theorem Tracked.write {id : String} {fields : Fields F} {writes : List (Option (Json F))}
    (w : Option (Json F)) (hlookup : fields.lookup "_id" = w) :
      Tracked id fields (writes ++ [w]) := by
  unfold Tracked
  rw [endsWith_append, hlookup]

section Operators

variable {id : String} {fields fields' : Fields F} {writes : List (Option (Json F))}

theorem Tracked.set (h : Tracked id fields writes) (f : String × Json F) :
    Tracked id (setField fields f) (writes ++ opWrites "$set" [f]) := by
  have hlookup := lookup_setField fields f "_id"
  by_cases hid : f.1 = "_id"
  · rw [if_pos hid.symm] at hlookup
    have hw : opWrites "$set" [f] = [some f.2] := by simp [opWrites_set, hid]
    rw [hw]
    exact Tracked.write _ hlookup
  · rw [if_neg (Ne.symm hid)] at hlookup
    have hw : opWrites "$set" [f] = [] := by simp [opWrites_set, hid]
    rw [hw, List.append_nil]
    exact h.of_lookup (by rw [hlookup])

theorem Tracked.unset (h : Tracked id fields writes) (f : String × Json F) :
    Tracked id (unsetField fields f) (writes ++ opWrites "$unset" [f]) := by
  have hlookup := lookup_unsetField fields f "_id"
  by_cases hid : f.1 = "_id"
  · rw [if_pos hid.symm] at hlookup
    have hw : opWrites "$unset" [f] = [none] := by simp [opWrites_unset, hid]
    rw [hw]
    exact Tracked.write _ hlookup
  · rw [if_neg (Ne.symm hid)] at hlookup
    have hw : opWrites "$unset" [f] = [] := by simp [opWrites_unset, hid]
    rw [hw, List.append_nil]
    exact h.of_lookup (by rw [hlookup])

/-- A value is pushed into an array or makes a new one, and neither is an `_id`. -/
theorem Tracked.push (h : Tracked id fields writes) {f : String × Json F}
    (hpush : pushField fields f = .ok fields') : Tracked id fields' writes := by
  apply h.of_lookup
  have hset : ∀ items, fields.lookup f.1 ≠ some (.string id) →
      ((setField fields (f.1, .array items)).lookup "_id" = some (.string id) ↔
        fields.lookup "_id" = some (.string id)) := by
    intro items hne
    rw [lookup_setField]
    by_cases hid : "_id" = f.1
    · rw [if_pos hid, hid]
      constructor
      · intro heq
        cases heq
      · intro heq
        exact absurd heq hne
    · rw [if_neg hid]
  unfold pushField at hpush
  split at hpush
  · next hnone =>
    cases hpush
    exact hset _ (by rw [hnone]; nofun)
  · next items harray =>
    cases hpush
    exact hset _ (by rw [harray]; nofun)
  · cases hpush

variable [Sums F]

theorem num_ne_string (x : Option F) (id : String) : num x ≠ .string id := by
  intro h
  unfold num at h
  split at h
  · split at h <;> cases h
  · cases h

theorem Tracked.pull (h : Tracked id fields writes) (f : String × Json F) :
    Tracked id (pullField fields f) writes := by
  apply h.of_lookup
  unfold pullField
  split
  · next items harray =>
    rw [lookup_setField]
    by_cases hid : "_id" = f.1
    · rw [if_pos hid, hid, harray]
      constructor <;>
      · intro heq
        cases heq
    · rw [if_neg hid]
  · rfl

theorem Tracked.inc (h : Tracked id fields writes) {f : String × Json F}
    (hinc : incField fields f = .ok fields') :
    Tracked id fields' (writes ++ opWrites "$inc" [f]) := by
  unfold incField at hinc
  split at hinc
  · next x _ =>
    cases hinc
    have hlookup := lookup_setField fields
      (f.1, num (Sums.add (((fields.lookup f.1).bind Json.asF64).getD (Doubles.ofInt 0)) x)) "_id"
    by_cases hid : f.1 = "_id"
    · rw [if_pos hid.symm] at hlookup
      have hw : opWrites "$inc" [f] = [none] := by simp [opWrites, hid]
      rw [hw]
      unfold Tracked
      rw [endsWith_append, hlookup]
      constructor
      · intro heq
        exact absurd (Option.some.inj heq) (num_ne_string _ id)
      · intro heq
        cases heq
    · rw [if_neg (Ne.symm hid)] at hlookup
      have hw : opWrites "$inc" [f] = [] := by simp [opWrites, hid]
      rw [hw, List.append_nil]
      exact h.of_lookup (by rw [hlookup])
  · cases hinc

end Operators

variable [Sums F]

theorem Tracked.op {id : String} {fields fields' : Fields F} {writes : List (Option (Json F))}
    (h : Tracked id fields writes) {op : String × Json F} (hop : applyOp fields op = .ok fields') :
    Tracked id fields' (writes ++ idWrites [op]) := by
  obtain ⟨name, value⟩ := op
  cases value with
  | object body =>
    have hwrites : idWrites [(name, Json.object body)] = opWrites name ([] ++ body) := by
      simp [idWrites]
    have hstart : Tracked id fields (writes ++ opWrites name []) := by
      have hnil : opWrites name ([] : Fields F) = [] := by
        unfold opWrites
        split <;> rfl
      rw [hnil, List.append_nil]
      exact h
    rw [hwrites]
    unfold applyOp at hop
    dsimp only at hop
    split at hop
    · cases hop
      apply foldl_tracks (fun fields done => Tracked id fields (writes ++ opWrites "$set" done))
        _ body hstart
      intro a done b ha
      rw [opWrites_append, ← List.append_assoc]
      exact ha.set b
    · cases hop
      apply foldl_tracks (fun fields done => Tracked id fields (writes ++ opWrites "$unset" done))
        _ body hstart
      intro a done b ha
      rw [opWrites_append, ← List.append_assoc]
      exact ha.unset b
    · apply foldlM_tracks (fun fields done => Tracked id fields (writes ++ opWrites "$inc" done))
        _ body hstart hop
      intro a done b a' ha hb
      rw [opWrites_append, ← List.append_assoc]
      exact ha.inc hb
    · apply foldlM_tracks (fun fields done => Tracked id fields (writes ++ opWrites "$push" done))
        _ body hstart hop
      intro a done b a' ha hb
      exact ha.push hb
    · cases hop
      apply foldl_tracks (fun fields done => Tracked id fields (writes ++ opWrites "$pull" done))
        _ body hstart
      intro a done b ha
      exact ha.pull b
    · cases hop
  | _ => cases hop

/-- An update that succeeds keeps a text `_id` if and only if the last of its operators that names
`_id` sets it to what it was. -/
theorem applyUpdate_id {id : String} {fields fields' : Fields F} {update : Json F}
    (hid : fields.lookup "_id" = some (.string id))
    (happly : applyUpdate (.object fields) update = .ok fields') :
    fields'.lookup "_id" = some (.string id) ↔ KeepsId id update := by
  cases update with
  | object upd =>
    unfold applyUpdate at happly
    unfold KeepsId
    dsimp only at happly ⊢
    split at happly
    · next hops =>
      have htracked := @foldlM_tracks _ _ _ _
        (fun fields done => Tracked id fields (idWrites done)) (fun a done b a' ha hb => by
          have hflat : idWrites (done ++ [b]) = idWrites done ++ idWrites [b] := by
            unfold idWrites
            exact List.flatMap_append
          rw [hflat]
          exact ha.op hb) upd _ [] _ (iff_of_true hid nofun) happly
      exact htracked.trans ⟨fun hends _ => hends, fun hends => hends hops⟩
    · next hops =>
      have hget : (Json.object fields).get "_id" = some (.string id) := hid
      rw [hget] at happly
      cases happly
      apply iff_of_true
      · rw [lookup_setField, if_pos rfl]
      · intro hsome
        exact absurd hsome hops
  | _ => cases happly

end BlueDB.Collections
