import Mathlib.Tactic

/-!
# Read-through caches

A cache keeps what a source has answered to a request and answers the next request
with it. Requests that fail are not kept. The source changes beneath the cache, which
does not hear of it: the cache stays coherent exactly when no kept answer changes.
-/

namespace BlueDB

structure ReadCache (σ κ ν : Type*) where
  source : σ
  kept : κ → Option ν

namespace ReadCache

variable {σ ρ κ ν ε : Type*} [DecidableEq κ] (fetch : σ → ρ → Except ε ν) (key : ρ → κ)

/-- A kept answer is given again; another answer is asked of the source, and kept. -/
def read (c : ReadCache σ κ ν) (r : ρ) : Except ε ν × ReadCache σ κ ν :=
  match c.kept (key r) with
  | some v => (.ok v, c)
  | none =>
    match fetch c.source r with
    | .ok v => (.ok v, { c with kept := Function.update c.kept (key r) (some v) })
    | .error e => (.error e, c)

/-- An answer is dropped. -/
def evict (c : ReadCache σ κ ν) (k : κ) : ReadCache σ κ ν :=
  { c with kept := Function.update c.kept k none }

/-- The source is another one. -/
def change (c : ReadCache σ κ ν) (s : σ) : ReadCache σ κ ν := { c with source := s }

@[simp] theorem source_read (c : ReadCache σ κ ν) (r : ρ) :
    (c.read fetch key r).2.source = c.source := by
  unfold read
  split
  · rfl
  · split <;> rfl

def Coherent (c : ReadCache σ κ ν) : Prop :=
  ∀ r v, c.kept (key r) = some v → fetch c.source r = .ok v

variable {fetch key} {c : ReadCache σ κ ν}

theorem coherent_iff : c.Coherent fetch key ↔ ∀ r, (c.read fetch key r).1 = fetch c.source r := by
  constructor
  · intro h r
    unfold read
    cases hkept : c.kept (key r) with
    | some v => exact (h r v hkept).symm
    | none => cases hfetch : fetch c.source r <;> rfl
  · intro h r v hkept
    have hread := h r
    unfold read at hread
    rw [hkept] at hread
    exact hread.symm

theorem Coherent.read_eq (h : c.Coherent fetch key) (r : ρ) :
    (c.read fetch key r).1 = fetch c.source r := coherent_iff.mp h r

theorem Coherent.read (h : c.Coherent fetch key) (hkey : Function.Injective key) (r : ρ) :
    (c.read fetch key r).2.Coherent fetch key := by
  unfold ReadCache.read
  cases hkept : c.kept (key r) with
  | some v => exact h
  | none =>
    cases hfetch : fetch c.source r with
    | error e => exact h
    | ok v =>
      intro r' v' hkept'
      dsimp only at hkept' ⊢
      by_cases hr : r' = r
      · subst r'
        rw [Function.update_self, Option.some.injEq] at hkept'
        exact hkept' ▸ hfetch
      · rw [Function.update_of_ne (fun heq => hr (hkey heq))] at hkept'
        exact h r' v' hkept'

theorem Coherent.evict (h : c.Coherent fetch key) (k : κ) : (c.evict k).Coherent fetch key := by
  intro r v hkept
  unfold ReadCache.evict at hkept
  dsimp only at hkept
  by_cases hk : key r = k
  · subst k
    exact absurd hkept (by simp)
  · rw [Function.update_of_ne hk] at hkept
    exact h r v hkept

omit [DecidableEq κ] in
theorem coherent_empty (s : σ) : (⟨s, fun _ => none⟩ : ReadCache σ κ ν).Coherent fetch key :=
  fun _ _ h => absurd h nofun

end ReadCache

end BlueDB
