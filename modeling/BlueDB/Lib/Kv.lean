import Mathlib.Tactic

/-!
# Key-value stores with atomic batches

Every key holds at most one value, of a type that may depend on the key. A
batch is a list of puts and deletes applied as one; of several writes to one key
the last one wins. The store lists the keys that were ever written, which is
what a scan walks.
-/

namespace BlueDB

/-- A store: the value each key holds, and a list that covers the live keys. -/
structure Kv {κ : Type*} (V : κ → Type*) where
  get : ∀ k, Option (V k)
  written : List κ
  covers : ∀ k, (get k).isSome → k ∈ written

/-- One write of a batch; no value means a delete. -/
structure Write {κ : Type*} (V : κ → Type*) where
  key : κ
  value : Option (V key)

section Kv

variable {κ : Type*} {V : κ → Type*}

def Write.put (k : κ) (v : V k) : Write V := ⟨k, some v⟩

def Write.delete (k : κ) : Write V := ⟨k, none⟩

@[simp] theorem Write.put_key (k : κ) (v : V k) : (Write.put k v).key = k := rfl

@[simp] theorem Write.delete_key (k : κ) : (Write.delete k : Write V).key = k := rfl

@[simp] theorem Write.put_value (k : κ) (v : V k) : (Write.put k v).value = some v := rfl

@[simp] theorem Write.delete_value (k : κ) : (Write.delete k : Write V).value = none := rfl

namespace Kv

def empty : Kv V := ⟨fun _ => none, [], by simp⟩

@[simp] theorem get_empty (k : κ) : (empty : Kv V).get k = none := rfl

variable [DecidableEq κ]

def write (s : Kv V) (w : Write V) : Kv V where
  get := Function.update s.get w.key w.value
  written := w.key :: s.written
  covers := by
    intro k hk
    by_cases h : k = w.key
    · simp [h]
    · rw [Function.update_of_ne h] at hk
      exact List.mem_cons_of_mem _ (s.covers k hk)

@[simp] theorem get_write_self (s : Kv V) (w : Write V) : (s.write w).get w.key = w.value :=
  Function.update_self ..

theorem get_write_of_ne {s : Kv V} {w : Write V} {k : κ} (h : k ≠ w.key) :
    (s.write w).get k = s.get k :=
  Function.update_of_ne h ..

@[simp] theorem get_write_put (s : Kv V) (k : κ) (v : V k) :
    (s.write (Write.put k v)).get k = some v := get_write_self s (Write.put k v)

@[simp] theorem get_write_delete (s : Kv V) (k : κ) : (s.write (Write.delete k)).get k = none :=
  get_write_self s (Write.delete k)

/-- The writes of a batch, in order. -/
def commit (s : Kv V) (batch : List (Write V)) : Kv V := batch.foldl write s

@[simp] theorem commit_nil (s : Kv V) : s.commit [] = s := rfl

theorem commit_cons (s : Kv V) (w : Write V) (batch : List (Write V)) :
    s.commit (w :: batch) = (s.write w).commit batch := rfl

theorem commit_append (s : Kv V) (batch more : List (Write V)) :
    s.commit (batch ++ more) = (s.commit batch).commit more :=
  List.foldl_append ..

theorem get_commit_of_forall_ne {s : Kv V} {batch : List (Write V)} {k : κ}
    (h : ∀ w ∈ batch, w.key ≠ k) : (s.commit batch).get k = s.get k := by
  induction batch generalizing s with
  | nil => rfl
  | cons w batch ih =>
    rw [commit_cons, ih fun w' hw' => h w' (by simp [hw']), get_write_of_ne (h w (by simp)).symm]

theorem get_commit_of_mem {s : Kv V} {batch : List (Write V)} {w : Write V} (hw : w ∈ batch)
    (huniq : ∀ w' ∈ batch, w'.key = w.key → w' = w) : (s.commit batch).get w.key = w.value := by
  induction batch generalizing s with
  | nil => simp at hw
  | cons w0 batch ih =>
    rw [commit_cons]
    have hrest : ∀ w' ∈ batch, w'.key = w.key → w' = w :=
      fun w' hw' => huniq w' (List.mem_cons_of_mem _ hw')
    by_cases hmem : w ∈ batch
    · exact ih hmem hrest
    · obtain rfl : w = w0 := (List.mem_cons.mp hw).resolve_right hmem
      rw [get_commit_of_forall_ne, get_write_self]
      intro w' hw' hkey
      exact hmem (hrest w' hw' hkey ▸ hw')

/-- Two stores related at a key stay related behind the same batch. -/
theorem get_commit_rel {s s' : Kv V} {k : κ} {R : Option (V k) → Option (V k) → Prop}
    (hrefl : ∀ v, R v v) (batch : List (Write V)) (h : R (s.get k) (s'.get k)) :
    R ((s.commit batch).get k) ((s'.commit batch).get k) := by
  induction batch generalizing s s' with
  | nil => exact h
  | cons w batch ih =>
    rw [commit_cons, commit_cons]
    apply ih
    by_cases hk : k = w.key
    · subst k
      rw [get_write_self, get_write_self]
      exact hrefl w.value
    · rw [get_write_of_ne hk, get_write_of_ne hk]
      exact h

/-- The live keys that satisfy `p`. -/
def scan (s : Kv V) (p : κ → Bool) : List κ :=
  s.written.dedup.filter fun k => p k && (s.get k).isSome

@[simp] theorem mem_scan {s : Kv V} {p : κ → Bool} {k : κ} :
    k ∈ s.scan p ↔ p k = true ∧ (s.get k).isSome = true := by
  rw [scan, List.mem_filter, List.mem_dedup, Bool.and_eq_true]
  constructor
  · intro h
    exact h.2
  · intro h
    exact ⟨s.covers k h.2, h⟩

theorem get_commit_deletes (s : Kv V) (ks : List κ) (k : κ) :
    (s.commit (ks.map Write.delete)).get k = if k ∈ ks then none else s.get k := by
  induction ks generalizing s with
  | nil => rfl
  | cons k' ks ih =>
    rw [List.map_cons, commit_cons, ih]
    by_cases hk : k = k'
    · subst k
      simp
    · rw [get_write_of_ne (by simpa using hk)]
      simp [hk]

end Kv
end Kv
end BlueDB
