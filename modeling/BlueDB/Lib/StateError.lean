import Mathlib.Tactic

/-!
# Programs with a state and errors

A program of `EStateM` that fails keeps the state it had reached, as a method
that returns early with its earlier writes done. A triple states what holds of
the result and the state when the program returns, and what holds of the state
it leaves behind when it fails.
-/

namespace BlueDB

universe u

variable {ε σ α β : Type u}

/-- Started in `s`, the program ends in `post` or fails in `fail`. -/
def Holds (x : EStateM ε σ α) (s : σ) (post : α → σ → Prop) (fail : ε → σ → Prop) : Prop :=
  match x s with
  | .ok a s' => post a s'
  | .error e s' => fail e s'

/-- A computation without state, run as a program. -/
def ofExcept : Except ε α → EStateM ε σ α
  | .ok a => pure a
  | .error e => throw e

namespace Holds

variable {s : σ} {post : α → σ → Prop} {fail : ε → σ → Prop}

@[simp] theorem pure_iff {a : α} : Holds (pure a) s post fail ↔ post a s := Iff.rfl

@[simp] theorem get_iff {post : σ → σ → Prop} :
    Holds (get : EStateM ε σ σ) s post fail ↔ post s s := Iff.rfl

@[simp] theorem modify_iff {f : σ → σ} {post : PUnit → σ → Prop} :
    Holds (modify f : EStateM ε σ PUnit) s post fail ↔ post ⟨⟩ (f s) := Iff.rfl

@[simp] theorem bind_iff {x : EStateM ε σ α} {f : α → EStateM ε σ β} {post : β → σ → Prop} :
    Holds (x >>= f) s post fail ↔ Holds x s (fun a s' => Holds (f a) s' post fail) fail := by
  change (match EStateM.bind x f s with
    | .ok a s' => post a s'
    | .error e s' => fail e s') ↔ _
  unfold EStateM.bind Holds
  cases x s with
  | ok a s' => rfl
  | error e s' => rfl

theorem tryCatch_iff {x : EStateM ε σ α} {handler : ε → EStateM ε σ α} :
    Holds (tryCatch x handler) s post fail ↔
      Holds x s post fun e s' => Holds (handler e) s' post fail := by
  change (match EStateM.tryCatch x handler s with
    | .ok a s' => post a s'
    | .error e s' => fail e s') ↔ _
  unfold EStateM.tryCatch Holds
  cases x s with
  | ok a s' => rfl
  | error e s' => rfl

@[simp] theorem ofExcept_ok {a : α} :
    Holds (ofExcept (.ok a)) s post fail ↔ post a s := Iff.rfl

theorem mono {x : EStateM ε σ α} {post' : α → σ → Prop} {fail' : ε → σ → Prop}
    (h : Holds x s post fail) (hpost : ∀ a s', post a s' → post' a s')
    (hfail : ∀ e s', fail e s' → fail' e s') : Holds x s post' fail' := by
  unfold Holds at h ⊢
  cases hx : x s with
  | ok a s' =>
    rw [hx] at h
    exact hpost a s' h
  | error e s' =>
    rw [hx] at h
    exact hfail e s' h

theorem always {x : EStateM ε σ α} (hpost : ∀ a s', post a s') (hfail : ∀ e s', fail e s') :
    Holds x s post fail := by
  unfold Holds
  cases x s with
  | ok a s' => exact hpost a s'
  | error e s' => exact hfail e s'

/-- A property that every round keeps holds after the loop. -/
theorem forM {f : β → EStateM ε σ PUnit} (inv : σ → Prop) (l : List β) (hs : inv s)
    (hstep : ∀ b ∈ l, ∀ s', inv s' → Holds (f b) s' (fun _ => inv) fail) :
    Holds (l.forM f) s (fun _ => inv) fail := by
  induction l generalizing s with
  | nil => exact hs
  | cons b l ih =>
    change Holds (f b >>= fun _ => l.forM f) s _ _
    rw [bind_iff]
    apply (hstep b (by simp) s hs).mono
    · intro _ s' hs'
      exact ih hs' fun b' hb' => hstep b' (List.mem_cons_of_mem _ hb')
    · intro e s' h
      exact h

theorem forM_log {f : β → EStateM ε σ PUnit} (inv : List β → σ → Prop) (l : List β)
    (hs : inv [] s)
    (hstep : ∀ done b rest, l = done ++ b :: rest → ∀ s', inv done s' →
      Holds (f b) s' (fun _ => inv (done ++ [b])) fail) :
    Holds (l.forM f) s (fun _ => inv l) fail := by
  suffices hrest : ∀ rest done s', l = done ++ rest → inv done s' →
      Holds (rest.forM f) s' (fun _ => inv l) fail by
    exact hrest l [] s rfl hs
  intro rest
  induction rest with
  | nil =>
    intro done s' hl hs'
    rw [List.append_nil] at hl
    exact hl ▸ hs'
  | cons b rest ih =>
    intro done s' hl hs'
    change Holds (f b >>= fun _ => rest.forM f) s' _ _
    rw [bind_iff]
    apply (hstep done b rest hl s' hs').mono
    · intro _ s'' hs''
      exact ih (done ++ [b]) s'' (by rw [hl, List.append_assoc, List.singleton_append]) hs''
    · intro e s'' h
      exact h

theorem and {x : EStateM ε σ α} {post' : α → σ → Prop} {fail' : ε → σ → Prop}
    (h : Holds x s post fail) (h' : Holds x s post' fail') :
    Holds x s (fun a s' => post a s' ∧ post' a s') (fun e s' => fail e s' ∧ fail' e s') := by
  unfold Holds at h h' ⊢
  cases hx : x s with
  | ok a s' =>
    rw [hx] at h h'
    exact ⟨h, h'⟩
  | error e s' =>
    rw [hx] at h h'
    exact ⟨h, h'⟩

end Holds

/-- A relation `R` between states that steps keep, with what `F` says of a failure. -/
structure Tracks (R : σ → σ → Prop) (F : ε → σ → σ → Prop) : Prop where
  refl : ∀ s, R s s
  trans : ∀ {s s' s''}, R s s' → R s' s'' → R s s''
  fail : ∀ {e s s' s''}, R s s' → F e s' s'' → F e s s''

/-- The program takes the state along `R` when it returns and along `F` when it fails. -/
structure Along (R : σ → σ → Prop) (F : ε → σ → σ → Prop) (x : EStateM ε σ α) : Prop where
  holds : ∀ s, Holds x s (fun _ => R s) (fun e => F e s)

namespace Along

variable {R : σ → σ → Prop} {F : ε → σ → σ → Prop}

theorem pure (h : Tracks R F) (a : α) : Along R F (pure a : EStateM ε σ α) :=
  ⟨fun s => h.refl s⟩

theorem throw {e : ε} (he : ∀ s, F e s s) : Along R F (throw e : EStateM ε σ α) :=
  ⟨fun s => he s⟩

theorem get (h : Tracks R F) : Along R F (get : EStateM ε σ σ) := ⟨fun s => h.refl s⟩

theorem modify {f : σ → σ} (hf : ∀ s, R s (f s)) :
    Along R F (modify f : EStateM ε σ PUnit) := ⟨hf⟩

theorem ofExcept (h : Tracks R F) {x : Except ε α} (hx : ∀ e, x = .error e → ∀ s, F e s s) :
    Along R F (ofExcept x) := by
  cases x with
  | ok a => exact pure h a
  | error e => exact throw (hx e rfl)

theorem bind (h : Tracks R F) {x : EStateM ε σ α} {f : α → EStateM ε σ β} (hx : Along R F x)
    (hf : ∀ a, Along R F (f a)) : Along R F (x >>= f) := by
  constructor
  intro s
  rw [Holds.bind_iff]
  apply (hx.holds s).mono
  · intro a s' hs
    apply ((hf a).holds s').mono
    · intro b s'' hs'
      exact h.trans hs hs'
    · intro e s'' hs'
      exact h.fail hs hs'
  · intro e s' hs
    exact hs

theorem forM (h : Tracks R F) {f : β → EStateM ε σ PUnit} (l : List β)
    (hf : ∀ b ∈ l, Along R F (f b)) : Along R F (l.forM f) := by
  induction l with
  | nil => exact pure h _
  | cons b l ih =>
    change Along R F (f b >>= fun _ => l.forM f)
    apply bind h (hf b (by simp))
    intro _
    exact ih fun b' hb' => hf b' (List.mem_cons_of_mem _ hb')

end Along

/-- The state a program ends in, whether it fails or not. -/
def stateAfter : EStateM.Result ε σ α → σ
  | .ok _ s => s
  | .error _ s => s

theorem Along.stateAfter {R : σ → σ → Prop} {x : EStateM ε σ α} (h : Along R (fun _ => R) x)
    (s : σ) : R s (stateAfter (x s)) := by
  have hx := h.holds s
  unfold Holds at hx
  cases hres : x s with
  | ok a s' =>
    rw [hres] at hx
    exact hx
  | error e s' =>
    rw [hres] at hx
    exact hx

/-- The result of a program without the state it ends in. -/
def answer : EStateM.Result ε σ α → Except ε α
  | .ok a _ => .ok a
  | .error e _ => .error e

/-- Started where `I` holds, the program answers what `y` makes of the view of the
state, and keeps both. -/
structure Answers {τ : Type u} (I : σ → Prop) (view : σ → τ) (x : EStateM ε σ α)
    (y : τ → Except ε α) : Prop where
  answer : ∀ s, I s → answer (x s) = y (view s)
  inv : ∀ s, I s → I (stateAfter (x s))
  view : ∀ s, I s → view (stateAfter (x s)) = view s

namespace Answers

variable {τ : Type u} {I : σ → Prop} {view : σ → τ}

theorem ofExcept (a : Except ε α) : Answers I view (ofExcept a) fun _ => a := by
  cases a with
  | ok a | error e => exact ⟨fun _ _ => rfl, fun _ h => h, fun _ _ => rfl⟩

theorem bind {x : EStateM ε σ α} {y : τ → Except ε α} {f : α → EStateM ε σ β}
    {g : α → τ → Except ε β} (h : Answers I view x y) (hf : ∀ a, Answers I view (f a) (g a)) :
    Answers I view (x >>= f) fun t => y t >>= fun a => g a t := by
  have hrun : ∀ s, I s → BlueDB.answer ((x >>= f) s) = (y (view s) >>= fun a => g a (view s)) ∧
      I (stateAfter ((x >>= f) s)) ∧ view (stateAfter ((x >>= f) s)) = view s := by
    intro s hs
    have hanswer := h.answer s hs
    have hinv := h.inv s hs
    have hview := h.view s hs
    change BlueDB.answer (EStateM.bind x f s) = _ ∧ I (stateAfter (EStateM.bind x f s)) ∧
      view (stateAfter (EStateM.bind x f s)) = _
    unfold EStateM.bind
    cases hx : x s with
    | error e s' =>
      rw [hx] at hanswer hinv hview
      rw [← hanswer]
      exact ⟨rfl, hinv, hview⟩
    | ok a s' =>
      rw [hx] at hanswer hinv hview
      change I s' at hinv
      change view s' = view s at hview
      rw [← hanswer]
      refine ⟨?_, (hf a).inv s' hinv, ((hf a).view s' hinv).trans hview⟩
      rw [← hview]
      exact (hf a).answer s' hinv
  exact ⟨fun s hs => (hrun s hs).1, fun s hs => (hrun s hs).2.1, fun s hs => (hrun s hs).2.2⟩

end Answers

theorem bind_returns_iff {x : EStateM ε σ α} {f : α → EStateM ε σ β} {s s'' : σ} {b : β} :
    (x >>= f) s = .ok b s'' ↔ ∃ a s', x s = .ok a s' ∧ f a s' = .ok b s'' := by
  change EStateM.bind x f s = _ ↔ _
  unfold EStateM.bind
  cases x s with
  | ok a s' =>
    constructor
    · intro h
      exact ⟨a, s', rfl, h⟩
    · rintro ⟨_, _, heq, h⟩
      cases heq
      exact h
  | error e s' => simp

theorem ofExcept_returns_iff {x : Except ε α} {s s' : σ} {a : α} :
    (ofExcept x : EStateM ε σ α) s = .ok a s' ↔ x = .ok a ∧ s' = s := by
  cases x with
  | ok a' =>
    change EStateM.Result.ok a' s = _ ↔ _
    simp [eq_comm]
  | error e =>
    change EStateM.Result.error e s = _ ↔ _
    simp

end BlueDB
