import Mathlib.Data.Option.Basic
import Mathlib.Logic.Relation

/-!
# Playing events

A machine takes an event to the next state when the event can happen. Playing a list of
allowed events is a run of it.
-/

namespace BlueDB

variable {σ ε : Type*} (step : σ → ε → Option σ) (allowed : σ → ε → Prop)

/-- The state after a list of events, when each of them can happen. -/
def play (s : σ) : List ε → Option σ
  | [] => some s
  | e :: events => (step s e).bind fun s => play s events

/-- Each event is allowed when it happens. -/
def Plays (s : σ) : List ε → Prop
  | [] => True
  | e :: events => allowed s e ∧ ∀ s' ∈ step s e, Plays s' events

instance decidablePlays [∀ s, DecidablePred (allowed s)] (s : σ) :
    ∀ events, Decidable (Plays step allowed s events)
  | [] => isTrue trivial
  | e :: events =>
    have : ∀ s', Decidable (Plays step allowed s' events) := fun s' => decidablePlays s' events
    inferInstanceAs (Decidable (_ ∧ ∀ s' ∈ step s e, Plays step allowed s' events))

variable {step allowed} {s s' : σ} {events : List ε}

theorem plays_of_allowed (h : ∀ s e, allowed s e) : Plays step allowed s events := by
  induction events generalizing s with
  | nil => trivial
  | cons e events ih => exact ⟨h s e, fun _ _ => ih⟩

theorem Plays.run (h : Plays step allowed s events) (hplay : play step s events = some s') :
    Relation.ReflTransGen (fun s s' => ∃ e, allowed s e ∧ step s e = some s') s s' := by
  induction events generalizing s with
  | nil =>
    cases hplay
    exact .refl
  | cons e events ih =>
    obtain ⟨s₁, hstep, hplay⟩ := Option.bind_eq_some_iff.mp hplay
    exact .head ⟨e, h.1, hstep⟩ (ih (h.2 s₁ hstep) hplay)

/-- What is kept by the events that happen may be used to allow them. -/
theorem Plays.imp {I : σ → Prop} {allowed' : σ → ε → Prop}
    (hstep : ∀ {s e s'}, I s → allowed s e → step s e = some s' → I s')
    (himp : ∀ {s e}, I s → allowed s e → allowed' s e) (hI : I s)
    (h : Plays step allowed s events) : Plays step allowed' s events := by
  induction events generalizing s with
  | nil => trivial
  | cons e events ih =>
    exact ⟨himp hI h.1, fun s' hs' => ih (hstep hI h.1 hs') (h.2 s' hs')⟩

end BlueDB
