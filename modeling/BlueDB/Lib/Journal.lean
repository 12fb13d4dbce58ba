import Mathlib.Tactic

/-!
# Double-entry journals

A journal files two-sided postings under entry names. The turnover of an account
on one side is the sum of the amounts filed against it. Filing and striking a
posting move exactly its own two accounts, and the turnovers of the two sides
have the same total.
-/

namespace BlueDB

open Finset

/-- One posting: `amount` moves out of `debit` and into `credit`. -/
@[ext] structure Posting (κ : Type*) where
  debit : κ
  credit : κ
  amount : ℕ

/-- Postings filed under entry names; `none` marks a name without a posting. -/
abbrev Journal (ι κ : Type*) := ι → Option (Posting κ)

namespace Journal

variable {ι κ : Type*} [Fintype ι] [DecidableEq κ]

/-- The share of an optional posting in the turnover of account `k`. -/
def share (side : Posting κ → κ) (k : κ) : Option (Posting κ) → ℕ
  | none => 0
  | some p => if side p = k then p.amount else 0

/-- The turnover of account `k` on one side of the journal. It is irreducible: the
entry names may be far too many to enumerate. -/
@[irreducible] def turnover (side : Posting κ → κ) (j : Journal ι κ) (k : κ) : ℕ :=
    ∑ i, share side k (j i)

def debits (j : Journal ι κ) (k : κ) : ℕ := turnover Posting.debit j k

def credits (j : Journal ι κ) (k : κ) : ℕ := turnover Posting.credit j k

variable (side : Posting κ → κ) (j : Journal ι κ)

/-- Over any set of accounts that covers the journal, a side's turnover sums to
the total of all filed amounts. -/
theorem sum_turnover {s : Finset κ} (hs : ∀ i p, j i = some p → side p ∈ s) :
    ∑ k ∈ s, turnover side j k = ∑ i, (j i).elim 0 Posting.amount := by
  unfold turnover
  rw [sum_comm]
  apply sum_congr rfl
  intro i _
  cases h : j i with
  | none => simp [share]
  | some p => simp [share, hs i p h]

theorem sum_debits_eq_sum_credits {s : Finset κ}
    (hd : ∀ i p, j i = some p → p.debit ∈ s) (hc : ∀ i p, j i = some p → p.credit ∈ s) :
    ∑ k ∈ s, debits j k = ∑ k ∈ s, credits j k := by
  unfold debits credits
  rw [sum_turnover Posting.debit j hd, sum_turnover Posting.credit j hc]

theorem turnover_of_unused {k : κ} (h : ∀ i p, j i = some p → side p ≠ k) :
    turnover side j k = 0 := by
  unfold turnover
  apply sum_eq_zero
  intro i _
  cases hi : j i with
  | none => rfl
  | some p => simp [share, h i p hi]

variable [DecidableEq ι]

/-- Replacing the posting of one entry exchanges its share of the turnover. -/
theorem turnover_update (i : ι) (p : Option (Posting κ)) (k : κ) :
    turnover side (Function.update j i p) k + share side k (j i) =
      turnover side j k + share side k p := by
  have hrest : ∑ x ∈ univ.erase i, share side k (Function.update j i p x) =
      ∑ x ∈ univ.erase i, share side k (j x) := by
    apply sum_congr rfl
    intro x hx
    rw [Function.update_of_ne (ne_of_mem_erase hx)]
  have hnew := add_sum_erase univ (fun x => share side k (Function.update j i p x)) (mem_univ i)
  have hold := add_sum_erase univ (fun x => share side k (j x)) (mem_univ i)
  simp only [Function.update_self] at hnew
  unfold turnover
  omega

theorem turnover_file {i : ι} (h : j i = none) (p : Posting κ) (k : κ) :
    turnover side (Function.update j i (some p)) k =
      turnover side j k + if side p = k then p.amount else 0 := by
  have hu := turnover_update side j i (some p) k
  simpa [h, share] using hu

theorem turnover_strike {i : ι} {p : Posting κ} (h : j i = some p) (k : κ) :
    turnover side (Function.update j i none) k + (if side p = k then p.amount else 0) =
      turnover side j k := by
  have hu := turnover_update side j i none k
  simpa [h, share] using hu

theorem debits_file {i : ι} (h : j i = none) (p : Posting κ) (k : κ) :
    debits (Function.update j i (some p)) k = debits j k + if p.debit = k then p.amount else 0 :=
  turnover_file Posting.debit j h p k

theorem credits_file {i : ι} (h : j i = none) (p : Posting κ) (k : κ) :
    credits (Function.update j i (some p)) k = credits j k + if p.credit = k then p.amount else 0 :=
  turnover_file Posting.credit j h p k

theorem debits_strike {i : ι} {p : Posting κ} (h : j i = some p) (k : κ) :
    debits (Function.update j i none) k = debits j k - if p.debit = k then p.amount else 0 := by
  have hs := turnover_strike Posting.debit j h k
  unfold debits
  omega

theorem credits_strike {i : ι} {p : Posting κ} (h : j i = some p) (k : κ) :
    credits (Function.update j i none) k = credits j k - if p.credit = k then p.amount else 0 := by
  have hs := turnover_strike Posting.credit j h k
  unfold credits
  omega

theorem amount_le_turnover {i : ι} {p : Posting κ} (h : j i = some p) :
    p.amount ≤ turnover side j (side p) := by
  have hs := turnover_strike side j h (side p)
  rw [if_pos rfl] at hs
  omega

end Journal
end BlueDB
