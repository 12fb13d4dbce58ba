import Mathlib.Tactic

/-!
# Ordered maps

An ordered map is the list of its entries in ascending order of their keys. A
range read returns the entries between two keys. Writes that are buffered beside
a map, with a tombstone for a deleted key, are read together with it by merging
the two lists.
-/

namespace BlueDB

universe u v w

/-- The entries in ascending order of their keys. -/
structure OrderedMap (κ : Type u) (ν : Type v) [LinearOrder κ] where
  entries : List (κ × ν)
  ascending : entries.Pairwise fun p q => p.1 < q.1

namespace OrderedMap

variable {κ : Type u} {ν : Type v} [LinearOrder κ]

def empty : OrderedMap κ ν := ⟨[], List.Pairwise.nil⟩

def get (m : OrderedMap κ ν) (k : κ) : Option ν :=
  (m.entries.find? fun p => p.1 = k).map Prod.snd

/-- An entry takes the place of the one under its key. -/
def insertEntry (k : κ) (v : ν) : List (κ × ν) → List (κ × ν)
  | [] => [(k, v)]
  | p :: rest =>
    if k < p.1 then (k, v) :: p :: rest
    else if k = p.1 then (k, v) :: rest
    else p :: insertEntry k v rest

theorem entry_eq {l : List (κ × ν)} (h : l.Pairwise fun p q => p.1 < q.1) {p q : κ × ν}
    (hp : p ∈ l) (hq : q ∈ l) (hkey : p.1 = q.1) : p = q := by
  have hinj : (l.map Prod.fst).Nodup := List.pairwise_map.mpr (h.imp fun hlt => hlt.ne)
  exact List.inj_on_of_nodup_map hinj hp hq hkey

theorem mem_entries {m : OrderedMap κ ν} {k : κ} {v : ν} :
    (k, v) ∈ m.entries ↔ m.get k = some v := by
  unfold get
  rw [Option.map_eq_some_iff]
  constructor
  · intro hmem
    cases hfind : m.entries.find? fun p => p.1 = k with
    | none =>
      have hnone := List.find?_eq_none.mp hfind (k, v) hmem
      simp at hnone
    | some p =>
      have hkey : p.1 = k := by simpa using List.find?_some hfind
      have hp := entry_eq m.ascending (List.mem_of_find?_eq_some hfind) hmem hkey
      exact ⟨p, rfl, congrArg Prod.snd hp⟩
  · intro ⟨p, hfind, hv⟩
    have hkey : p.1 = k := by simpa using List.find?_some hfind
    have hp : p = (k, v) := Prod.ext hkey hv
    exact hp ▸ List.mem_of_find?_eq_some hfind

theorem antisymm_entries : Std.Antisymm fun p q : κ × ν => p.1 < q.1 :=
  ⟨fun _ _ h h' => absurd h' (lt_asymm h)⟩

theorem irrefl_entries : Std.Irrefl fun p q : κ × ν => p.1 < q.1 := ⟨fun p => lt_irrefl p.1⟩

theorem eq_of_mem_iff {l l' : List (κ × ν)} (h : l.Pairwise fun p q => p.1 < q.1)
    (h' : l'.Pairwise fun p q => p.1 < q.1) (hmem : ∀ k v, (k, v) ∈ l ↔ (k, v) ∈ l') : l = l' := by
  have := antisymm_entries (κ := κ) (ν := ν)
  have := irrefl_entries (κ := κ) (ν := ν)
  exact h.eq_of_mem_iff h' fun p => hmem p.1 p.2

@[ext] theorem ext {m m' : OrderedMap κ ν} (h : ∀ k, m.get k = m'.get k) : m = m' := by
  obtain ⟨l, hl⟩ := m
  obtain ⟨l', hl'⟩ := m'
  have heq : l = l' := by
    apply eq_of_mem_iff hl hl'
    intro k v
    have hget := h k
    exact (mem_entries (m := ⟨l, hl⟩)).trans (hget ▸ (mem_entries (m := ⟨l', hl'⟩)).symm)
  subst heq
  rfl

theorem mem_insertEntry {k k' : κ} {v v' : ν} {l : List (κ × ν)}
    (h : l.Pairwise fun p q => p.1 < q.1) :
    (k', v') ∈ insertEntry k v l ↔ k' = k ∧ v' = v ∨ k' ≠ k ∧ (k', v') ∈ l := by
  induction l with
  | nil => simp +contextual [insertEntry]
  | cons p rest ih =>
    obtain ⟨hp, hrest⟩ := List.pairwise_cons.mp h
    unfold insertEntry
    split_ifs with hlt heq
    · have hne : ∀ q ∈ p :: rest, q.1 ≠ k := by
        intro q hq
        rcases List.mem_cons.mp hq with rfl | hq
        · exact hlt.ne'
        · exact (hlt.trans (hp q hq)).ne'
      rw [List.mem_cons, Prod.mk.injEq]
      exact or_congr_right ⟨fun hq => ⟨hne _ hq, hq⟩, fun hq => hq.2⟩
    · have hne : ∀ q ∈ rest, q.1 ≠ k := fun q hq => heq ▸ (hp q hq).ne'
      rw [List.mem_cons, Prod.mk.injEq, List.mem_cons]
      apply or_congr_right
      constructor
      · exact fun hq => ⟨hne _ hq, Or.inr hq⟩
      · intro ⟨hk, hq⟩
        refine hq.resolve_left fun hp' => hk ?_
        exact (congrArg Prod.fst hp').trans heq.symm
    · rw [List.mem_cons, ih hrest, List.mem_cons]
      constructor
      · rintro (hq | hq | hq)
        · refine Or.inr ⟨?_, Or.inl hq⟩
          rw [show k' = p.1 from congrArg Prod.fst hq]
          exact Ne.symm heq
        · exact Or.inl hq
        · exact Or.inr ⟨hq.1, Or.inr hq.2⟩
      · rintro (hq | ⟨hk, hq | hq⟩)
        · exact Or.inr (Or.inl hq)
        · exact Or.inl hq
        · exact Or.inr (Or.inr ⟨hk, hq⟩)

theorem insertEntry_ascending {k : κ} {v : ν} {l : List (κ × ν)}
    (h : l.Pairwise fun p q => p.1 < q.1) : (insertEntry k v l).Pairwise fun p q => p.1 < q.1 := by
  induction l with
  | nil => simp [insertEntry]
  | cons p rest ih =>
    obtain ⟨hp, hrest⟩ := List.pairwise_cons.mp h
    unfold insertEntry
    split_ifs with hlt heq
    · apply List.pairwise_cons.mpr
      refine ⟨fun q hq => ?_, h⟩
      rcases List.mem_cons.mp hq with rfl | hq
      · exact hlt
      · exact hlt.trans (hp q hq)
    · apply List.pairwise_cons.mpr
      exact ⟨fun q hq => heq ▸ hp q hq, hrest⟩
    · apply List.pairwise_cons.mpr
      refine ⟨fun q hq => ?_, ih hrest⟩
      rcases (mem_insertEntry hrest).mp hq with ⟨hk, -⟩ | ⟨-, hq⟩
      · rw [hk]
        exact lt_of_le_of_ne (not_lt.mp hlt) (Ne.symm heq)
      · exact hp q hq

def insert (m : OrderedMap κ ν) (k : κ) (v : ν) : OrderedMap κ ν :=
  ⟨insertEntry k v m.entries, insertEntry_ascending m.ascending⟩

def erase (m : OrderedMap κ ν) (k : κ) : OrderedMap κ ν :=
  ⟨m.entries.filter fun p => p.1 ≠ k, m.ascending.filter _⟩

/-- A put, or a delete of the key. -/
def write (m : OrderedMap κ ν) (w : κ × Option ν) : OrderedMap κ ν :=
  match w.2 with
  | some v => m.insert w.1 v
  | none => m.erase w.1

@[simp] theorem get_empty (k : κ) : (empty : OrderedMap κ ν).get k = none := rfl

theorem get_insert (m : OrderedMap κ ν) (k : κ) (v : ν) (k' : κ) :
    (m.insert k v).get k' = if k' = k then some v else m.get k' := by
  rw [Option.ext_iff]
  intro v'
  rw [← mem_entries, insert, mem_insertEntry m.ascending]
  split_ifs with hk
  · simp [hk, eq_comm]
  · simp [hk, mem_entries]

theorem get_erase (m : OrderedMap κ ν) (k k' : κ) :
    (m.erase k).get k' = if k' = k then none else m.get k' := by
  rw [Option.ext_iff]
  intro v'
  rw [← mem_entries, erase, List.mem_filter, decide_eq_true_iff]
  split_ifs with hk
  · simp [hk]
  · simp [hk, mem_entries]

theorem get_write (m : OrderedMap κ ν) (w : κ × Option ν) (k : κ) :
    (m.write w).get k = if k = w.1 then w.2 else m.get k := by
  obtain ⟨k', v⟩ := w
  cases v with
  | some v => exact get_insert ..
  | none => exact get_erase ..

/-- The values changed under their keys. -/
def mapValues {μ : Type w} (f : ν → μ) (m : OrderedMap κ ν) : OrderedMap κ μ :=
  ⟨m.entries.map fun p => (p.1, f p.2), List.pairwise_map.mpr m.ascending⟩

theorem get_mapValues {μ : Type w} (f : ν → μ) (m : OrderedMap κ ν) (k : κ) :
    (m.mapValues f).get k = (m.get k).map f := by
  unfold get mapValues
  rw [List.find?_map, Option.map_map, Option.map_map]
  rfl

/-- A batch of writes, in order. -/
def writeAll (m : OrderedMap κ ν) (ws : List (κ × Option ν)) : OrderedMap κ ν := ws.foldl write m

@[simp] theorem writeAll_nil (m : OrderedMap κ ν) : m.writeAll [] = m := rfl

@[simp] theorem writeAll_cons (m : OrderedMap κ ν) (w : κ × Option ν) (ws : List (κ × Option ν)) :
    m.writeAll (w :: ws) = (m.write w).writeAll ws := rfl

theorem writeAll_append (m : OrderedMap κ ν) (ws ws' : List (κ × Option ν)) :
    m.writeAll (ws ++ ws') = (m.writeAll ws).writeAll ws' := List.foldl_append ..

theorem get_writeAll_of_forall_ne {ws : List (κ × Option ν)} {m : OrderedMap κ ν} {k : κ}
    (h : ∀ w ∈ ws, w.1 ≠ k) : (m.writeAll ws).get k = m.get k := by
  induction ws generalizing m with
  | nil => rfl
  | cons w ws ih =>
    rw [writeAll_cons, ih fun w' hw' => h w' (by simp [hw']), get_write,
      if_neg (h w (by simp)).symm]

theorem get_writeAll_deletes (m : OrderedMap κ ν) (ks : List κ) (k : κ) :
    (m.writeAll (ks.map (·, none))).get k = if k ∈ ks then none else m.get k := by
  induction ks generalizing m with
  | nil => rfl
  | cons k' ks ih =>
    rw [List.map_cons, writeAll_cons, ih, get_write]
    by_cases hk : k = k'
    · simp [hk]
    · simp [hk]

theorem get_writeAll_of_mem {ws : List (κ × Option ν)} {m : OrderedMap κ ν} {k : κ} {o : Option ν}
    (hw : (k, o) ∈ ws) (huniq : ∀ w ∈ ws, w.1 = k → w.2 = o) : (m.writeAll ws).get k = o := by
  induction ws generalizing m with
  | nil => exact absurd hw List.not_mem_nil
  | cons w ws ih =>
    rw [writeAll_cons]
    have hrest : ∀ w' ∈ ws, w'.1 = k → w'.2 = o :=
      fun w' hw' => huniq w' (List.mem_cons_of_mem _ hw')
    by_cases hmem : (k, o) ∈ ws
    · exact ih hmem hrest
    · rw [get_writeAll_of_forall_ne, get_write]
      · obtain rfl : (k, o) = w := (List.mem_cons.mp hw).resolve_right hmem
        exact if_pos rfl
      · intro w' hw' hkey
        refine hmem ?_
        rw [← hkey, ← hrest w' hw' hkey]
        exact hw'

/-- Writes of distinct keys take effect in any order: a key of the batch has its value. -/
theorem get_writeAll {ws : List (κ × Option ν)} (h : ws.Pairwise fun p q => p.1 < q.1)
    (m : OrderedMap κ ν) (k : κ) : (m.writeAll ws).get k =
      match ws.find? fun p => p.1 = k with
      | some w => w.2
      | none => m.get k := by
  induction ws generalizing m with
  | nil => rfl
  | cons w ws ih =>
    obtain ⟨hw, hws⟩ := List.pairwise_cons.mp h
    rw [writeAll_cons, ih hws, List.find?_cons, get_write]
    by_cases hk : w.1 = k
    · have hnone : ws.find? (fun p => p.1 = k) = none := by
        rw [List.find?_eq_none]
        intro q hq
        simpa using (hk ▸ hw q hq).ne'
      rw [hnone]
      simp [hk]
    · simp only [hk, decide_false, Ne.symm hk, if_false]

theorem get_writeAll_entries (m : OrderedMap κ ν) (overlay : OrderedMap κ (Option ν)) (k : κ) :
    (m.writeAll overlay.entries).get k = match overlay.get k with
      | some o => o
      | none => m.get k := by
  have hoverlay : overlay.get k = (overlay.entries.find? fun p => p.1 = k).map Prod.snd := rfl
  rw [get_writeAll overlay.ascending, hoverlay]
  cases overlay.entries.find? fun p => p.1 = k <;> rfl

theorem writeAll_insert (m : OrderedMap κ ν) (overlay : OrderedMap κ (Option ν)) (k : κ)
    (o : Option ν) :
    m.writeAll (overlay.insert k o).entries = (m.writeAll overlay.entries).write (k, o) := by
  ext1 k'
  rw [get_write, get_writeAll_entries, get_writeAll_entries, get_insert]
  split_ifs <;> rfl

/-- The entries from `start` on, before `stop` if there is one. -/
def slice (m : OrderedMap κ ν) (start : κ) (stop : Option κ) : List (κ × ν) :=
  m.entries.filter fun p => decide (start ≤ p.1) && stop.all fun e => decide (p.1 < e)

theorem mem_slice {m : OrderedMap κ ν} {start : κ} {stop : Option κ} {k : κ} {v : ν} :
    (k, v) ∈ m.slice start stop ↔ m.get k = some v ∧ start ≤ k ∧ ∀ e ∈ stop, k < e := by
  rw [slice, List.mem_filter, mem_entries, Bool.and_eq_true, decide_eq_true_iff]
  cases stop <;> simp

theorem slice_ascending (m : OrderedMap κ ν) (start : κ) (stop : Option κ) :
    (m.slice start stop).Pairwise fun p q => p.1 < q.1 := m.ascending.filter _

def range (m : OrderedMap κ ν) (start : κ) (stop : Option κ) : Option (List (κ × ν)) :=
  if stop.any fun e => decide (e < start) then none else some (m.slice start stop)

/-- The entry of a write ahead of `rest`; a tombstone has none. -/
def push (w : κ × Option ν) (rest : List (κ × ν)) : List (κ × ν) :=
  match w.2 with
  | some v => (w.1, v) :: rest
  | none => rest

omit [LinearOrder κ] in
theorem mem_push {w : κ × Option ν} {rest : List (κ × ν)} {k : κ} {v : ν} :
    (k, v) ∈ push w rest ↔ (k, some v) = w ∨ (k, v) ∈ rest := by
  obtain ⟨k', o⟩ := w
  cases o with
  | none => simp [push]
  | some v' => simp [push]

theorem push_ascending {w : κ × Option ν} {rest : List (κ × ν)}
    (h : rest.Pairwise fun p q => p.1 < q.1) (hw : ∀ q ∈ rest, w.1 < q.1) :
    (push w rest).Pairwise fun p q => p.1 < q.1 := by
  obtain ⟨k', o⟩ := w
  cases o with
  | none => exact h
  | some v' => exact List.pairwise_cons.mpr ⟨hw, h⟩

/-- Entries in order merged with writes in order: a write takes the place of the
entry under its key, and a tombstone leaves none. -/
def mergeSorted : List (κ × ν) → List (κ × Option ν) → List (κ × ν)
  | [], [] => []
  | p :: base, [] => p :: mergeSorted base []
  | [], w :: overlay => push w (mergeSorted [] overlay)
  | p :: base, w :: overlay =>
    if p.1 < w.1 then p :: mergeSorted base (w :: overlay)
    else if w.1 < p.1 then push w (mergeSorted (p :: base) overlay)
    else push w (mergeSorted base overlay)
termination_by base overlay => base.length + overlay.length

/-- What the merged list holds. -/
def Merged (base : List (κ × ν)) (overlay : List (κ × Option ν)) (k : κ) (v : ν) : Prop :=
  (k, some v) ∈ overlay ∨ (k, v) ∈ base ∧ ∀ o, (k, o) ∉ overlay

theorem not_mem_of_lt {α : Type*} {l : List (κ × α)} {k : κ} (h : ∀ p ∈ l, k < p.1) (a : α) :
    (k, a) ∉ l := fun hmem => lt_irrefl k (h _ hmem)

theorem mem_mergeSorted {base : List (κ × ν)} {overlay : List (κ × Option ν)}
    (hbase : base.Pairwise fun p q => p.1 < q.1) (hoverlay : overlay.Pairwise fun p q => p.1 < q.1)
    {k : κ} {v : ν} : (k, v) ∈ mergeSorted base overlay ↔ Merged base overlay k v := by
  induction base, overlay using mergeSorted.induct with
  | case1 => simp [mergeSorted, Merged]
  | case2 p base ih =>
    rw [mergeSorted, List.mem_cons, ih (List.pairwise_cons.mp hbase).2 hoverlay]
    simp [Merged]
  | case3 w overlay ih =>
    rw [mergeSorted, mem_push, ih hbase (List.pairwise_cons.mp hoverlay).2]
    simp [Merged]
  | case4 p base w overlay hlt ih =>
    -- the entry is below every write that is left
    obtain ⟨hp, hbase'⟩ := List.pairwise_cons.mp hbase
    rw [mergeSorted, if_pos hlt, List.mem_cons, ih hbase' hoverlay]
    have hbelow : ∀ q ∈ w :: overlay, p.1 < q.1 := by
      intro q hq
      rcases List.mem_cons.mp hq with rfl | hq
      · exact hlt
      · exact hlt.trans ((List.pairwise_cons.mp hoverlay).1 q hq)
    have hfree : (k, v) = p → ∀ o, (k, o) ∉ w :: overlay := by
      rintro rfl
      exact not_mem_of_lt hbelow
    unfold Merged
    rw [List.mem_cons (l := base)]
    tauto
  | case5 p base w overlay hnlt hlt ih =>
    obtain ⟨hw, hoverlay'⟩ := List.pairwise_cons.mp hoverlay
    rw [mergeSorted, if_neg hnlt, if_pos hlt, mem_push, ih hbase hoverlay']
    have hbelow : ∀ q ∈ p :: base, w.1 < q.1 := by
      intro q hq
      rcases List.mem_cons.mp hq with rfl | hq
      · exact hlt
      · exact hlt.trans ((List.pairwise_cons.mp hbase).1 q hq)
    have hfree : (k, v) ∈ p :: base → ∀ o, (k, o) ≠ w := by
      rintro hmem o rfl
      exact not_mem_of_lt hbelow v hmem
    unfold Merged
    simp only [List.mem_cons (l := overlay), not_or, forall_and]
    tauto
  | case6 p base w overlay hnlt hnlt' ih =>
    obtain ⟨hp, hbase'⟩ := List.pairwise_cons.mp hbase
    obtain ⟨hw, hoverlay'⟩ := List.pairwise_cons.mp hoverlay
    have hkey : w.1 = p.1 := le_antisymm (not_lt.mp hnlt) (not_lt.mp hnlt')
    rw [mergeSorted, if_neg hnlt, if_neg hnlt', mem_push, ih hbase' hoverlay']
    have hgone : (k, v) = p → ∃ o, (k, o) = w := by
      rintro rfl
      exact ⟨w.2, Prod.ext hkey.symm rfl⟩
    have hfree : (k, v) ∈ base → ∀ o, (k, o) ≠ w := by
      rintro hmem o rfl
      exact not_mem_of_lt (fun q hq => lt_of_eq_of_lt hkey (hp q hq)) v hmem
    unfold Merged
    rw [List.mem_cons (l := base)]
    simp only [List.mem_cons (l := overlay), not_or, forall_and]
    constructor
    · tauto
    · rintro ((hmem | hmem) | ⟨hmem | hmem, hne, hnot⟩)
      · exact Or.inl hmem
      · exact Or.inr (Or.inl hmem)
      · obtain ⟨o, ho⟩ := hgone hmem
        exact absurd ho (hne o)
      · exact Or.inr (Or.inr ⟨hmem, hnot⟩)

theorem mergeSorted_forall {P : κ → Prop} {base : List (κ × ν)} {overlay : List (κ × Option ν)}
    (hbase : base.Pairwise fun p q => p.1 < q.1) (hoverlay : overlay.Pairwise fun p q => p.1 < q.1)
    (hp : ∀ p ∈ base, P p.1) (hw : ∀ w ∈ overlay, P w.1) :
    ∀ q ∈ mergeSorted base overlay, P q.1 := by
  intro q hq
  rcases (mem_mergeSorted hbase hoverlay).mp hq with hmem | ⟨hmem, -⟩
  · exact hw _ hmem
  · exact hp _ hmem

theorem mergeSorted_ascending {base : List (κ × ν)} {overlay : List (κ × Option ν)}
    (hbase : base.Pairwise fun p q => p.1 < q.1)
      (hoverlay : overlay.Pairwise fun p q => p.1 < q.1) :
    (mergeSorted base overlay).Pairwise fun p q => p.1 < q.1 := by
  induction base, overlay using mergeSorted.induct with
  | case1 => simp [mergeSorted]
  | case2 p base ih =>
    obtain ⟨hp, hbase'⟩ := List.pairwise_cons.mp hbase
    rw [mergeSorted, List.pairwise_cons]
    exact ⟨mergeSorted_forall hbase' hoverlay hp (by simp), ih hbase' hoverlay⟩
  | case3 w overlay ih =>
    obtain ⟨hw, hoverlay'⟩ := List.pairwise_cons.mp hoverlay
    rw [mergeSorted]
    exact push_ascending (ih hbase hoverlay') (mergeSorted_forall hbase hoverlay' (by simp) hw)
  | case4 p base w overlay hlt ih =>
    obtain ⟨hp, hbase'⟩ := List.pairwise_cons.mp hbase
    rw [mergeSorted, if_pos hlt, List.pairwise_cons]
    refine ⟨mergeSorted_forall hbase' hoverlay hp ?_, ih hbase' hoverlay⟩
    intro q hq
    rcases List.mem_cons.mp hq with rfl | hq
    · exact hlt
    · exact hlt.trans ((List.pairwise_cons.mp hoverlay).1 q hq)
  | case5 p base w overlay hnlt hlt ih =>
    obtain ⟨hw, hoverlay'⟩ := List.pairwise_cons.mp hoverlay
    rw [mergeSorted, if_neg hnlt, if_pos hlt]
    apply push_ascending (ih hbase hoverlay')
    apply mergeSorted_forall hbase hoverlay' _ hw
    intro q hq
    rcases List.mem_cons.mp hq with rfl | hq
    · exact hlt
    · exact hlt.trans ((List.pairwise_cons.mp hbase).1 q hq)
  | case6 p base w overlay hnlt hnlt' ih =>
    obtain ⟨hp, hbase'⟩ := List.pairwise_cons.mp hbase
    obtain ⟨hw, hoverlay'⟩ := List.pairwise_cons.mp hoverlay
    have hkey : w.1 = p.1 := le_antisymm (not_lt.mp hnlt) (not_lt.mp hnlt')
    rw [mergeSorted, if_neg hnlt, if_neg hnlt']
    apply push_ascending (ih hbase' hoverlay')
    exact mergeSorted_forall hbase' hoverlay' (fun q hq => hkey ▸ hp q hq) hw

/-- A range read behind buffered writes is the merge of the two. -/
theorem slice_writeAll (m : OrderedMap κ ν) (overlay : OrderedMap κ (Option ν)) (start : κ)
    (stop : Option κ) : (m.writeAll overlay.entries).slice start stop =
      mergeSorted (m.slice start stop) (overlay.slice start stop) := by
  apply eq_of_mem_iff (slice_ascending ..)
    (mergeSorted_ascending (slice_ascending ..) (slice_ascending ..))
  intro k v
  rw [mem_mergeSorted (slice_ascending ..) (slice_ascending ..), Merged, mem_slice, mem_slice]
  simp only [mem_slice]
  rw [get_writeAll_entries]
  cases overlay.get k with
  | none => simp
  | some o =>
    simp only [Option.some.injEq]
    constructor
    · intro ⟨ho, hrange⟩
      exact Or.inl ⟨ho, hrange⟩
    · rintro (⟨ho, hrange⟩ | ⟨⟨-, hrange⟩, hnone⟩)
      · exact ⟨ho, hrange⟩
      · exact absurd ⟨rfl, hrange⟩ (hnone o)

end OrderedMap
end BlueDB
