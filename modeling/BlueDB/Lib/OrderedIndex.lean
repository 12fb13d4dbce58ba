import Mathlib.Tactic

/-!
# Ordered key index

The keys of an ordered key-value store whose values carry no information: a
strictly ascending list. A range scan reads them in ascending order, a second
put of a key changes nothing, and a delete of an absent key changes nothing.
Two indexes with the same members are equal.
-/

namespace BlueDB

/-- A strictly ascending list of keys. -/
structure OrderedIndex (κ : Type*) [LinearOrder κ] where
  keys : List κ
  ascending : keys.Pairwise (· < ·)

namespace OrderedIndex

variable {κ : Type*} [LinearOrder κ]

instance : Membership κ (OrderedIndex κ) := ⟨fun index k => k ∈ index.keys⟩

instance (index : OrderedIndex κ) (k : κ) : Decidable (k ∈ index) :=
  inferInstanceAs (Decidable (k ∈ index.keys))

@[simp] theorem mem_keys {index : OrderedIndex κ} {k : κ} : k ∈ index.keys ↔ k ∈ index := Iff.rfl

@[ext] theorem ext {i j : OrderedIndex κ} (h : ∀ k, k ∈ i ↔ k ∈ j) : i = j := by
  obtain ⟨ikeys, hi⟩ := i
  obtain ⟨jkeys, hj⟩ := j
  have : ikeys = jkeys := hi.eq_of_mem_iff hj h
  subst jkeys
  rfl

def empty : OrderedIndex κ := ⟨[], List.Pairwise.nil⟩

@[simp] theorem not_mem_empty (k : κ) : k ∉ (empty : OrderedIndex κ) := List.not_mem_nil

/-- Sorted insertion that keeps one copy of each key. -/
def insertKey (k : κ) : List κ → List κ
  | [] => [k]
  | a :: rest => if k < a then k :: a :: rest else if k =
      a then a :: rest else a :: insertKey k rest

theorem mem_insertKey {k x : κ} : ∀ {l : List κ}, x ∈ insertKey k l ↔ x = k ∨ x ∈ l
  | [] => by simp [insertKey]
  | a :: rest => by
    have ih := mem_insertKey (k := k) (x := x) (l := rest)
    unfold insertKey
    split_ifs with hlt heq
    · simp
    · subst a
      simp
    · simp only [List.mem_cons, ih]
      tauto

theorem insertKey_ascending {k : κ} : ∀ {l : List κ}, l.Pairwise (· < ·) →
    (insertKey k l).Pairwise (· < ·)
  | [], _ => by simp [insertKey]
  | a :: rest, h => by
    obtain ⟨ha, hrest⟩ := List.pairwise_cons.mp h
    unfold insertKey
    split_ifs with hlt heq
    · refine List.pairwise_cons.mpr ⟨?_, h⟩
      intro x hx
      rcases List.mem_cons.mp hx with rfl | hx
      · exact hlt
      · exact hlt.trans (ha x hx)
    · exact h
    · refine List.pairwise_cons.mpr ⟨?_, insertKey_ascending hrest⟩
      intro x hx
      rcases mem_insertKey.mp hx with rfl | hx
      · exact lt_of_le_of_ne (not_lt.mp hlt) (Ne.symm heq)
      · exact ha x hx

def put (index : OrderedIndex κ) (k : κ) : OrderedIndex κ :=
  ⟨insertKey k index.keys, insertKey_ascending index.ascending⟩

def delete (index : OrderedIndex κ) (k : κ) : OrderedIndex κ :=
  ⟨index.keys.filter (· ≠ k), index.ascending.filter _⟩

/-- The keys a range scan returns, in ascending order. -/
def scan (index : OrderedIndex κ) (inRange : κ → Bool) : List κ := index.keys.filter inRange

@[simp] theorem mem_put {index : OrderedIndex κ} {k x : κ} :
    x ∈ index.put k ↔ x = k ∨ x ∈ index := mem_insertKey

@[simp] theorem mem_delete {index : OrderedIndex κ} {k x : κ} :
    x ∈ index.delete k ↔ x ∈ index ∧ x ≠ k := by
  change x ∈ index.keys.filter (· ≠ k) ↔ _
  simp

@[simp] theorem mem_scan {index : OrderedIndex κ} {inRange : κ → Bool} {x : κ} :
    x ∈ index.scan inRange ↔ x ∈ index ∧ inRange x = true := by
  simp [scan]

theorem scan_nodup (index : OrderedIndex κ) (inRange : κ → Bool) : (index.scan inRange).Nodup :=
  (index.ascending.imp fun h => h.ne).filter _

@[simp] theorem mem_foldl_delete {index : OrderedIndex κ} {removals : List κ} {x : κ} :
    x ∈ removals.foldl delete index ↔ x ∈ index ∧ x ∉ removals := by
  induction removals generalizing index with
  | nil => simp
  | cons r rest ih =>
    rw [List.foldl_cons, ih, mem_delete, List.mem_cons, not_or, and_assoc]

theorem foldl_delete_put {index : OrderedIndex κ} {k : κ} {removals : List κ} (hk : k ∉ removals) :
    removals.foldl delete (index.put k) = (removals.foldl delete index).put k := by
  induction removals generalizing index with
  | nil => rfl
  | cons r rest ih =>
    have hne : k ≠ r := fun h => hk (by simp [h])
    have hswap : (index.put k).delete r = (index.delete r).put k := by
      ext x
      simp only [mem_delete, mem_put]
      constructor
      · rintro ⟨rfl | hx, hr⟩
        · exact Or.inl rfl
        · exact Or.inr ⟨hx, hr⟩
      · rintro (rfl | ⟨hx, hr⟩)
        · exact ⟨Or.inl rfl, hne⟩
        · exact ⟨Or.inr hx, hr⟩
    rw [List.foldl_cons, List.foldl_cons, hswap]
    exact ih (fun h => hk (List.mem_cons_of_mem _ h))

end OrderedIndex
end BlueDB
