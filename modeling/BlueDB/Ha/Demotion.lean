import BlueDB.Ha.SingleWriter

/-!
# A demotion against the renewal loop

A node's renewal can be granted in the store before a demotion releases the lease
and be applied after the demotion has returned. When no demotion passes over such
a renewal, an epoch the renewal loop still carries is the cached one or is gone
from the store for good, and the loop cannot make a demoted node active again.
-/

namespace BlueDB.Ha

open LeaseRegister

variable {σ : Type}

/-- The store has a lease of the node under the epoch. -/
def HasLease (r : LeaseRegister String) (n : String) (e : ℕ) : Prop :=
  ∃ k ∈ r.lease, k.holder = n ∧ k.epoch = e

/-- A call leaves a node no lease under an epoch other than one from before or a new one. -/
theorem Answered.hasLease {r r' : LeaseRegister String} {m n : String} {millis : ℤ} {q : Request}
    {grant : Option Lease} {wrote : Bool} {e : ℕ} (h : Answered r n millis q grant wrote r')
    (hl : HasLease r' m e) : HasLease r m e ∨ m = n ∧ e = r.last + 1 := by
  obtain ⟨l, hl, rfl, rfl⟩ := hl
  cases h with
  | denied => exact .inl ⟨l, hl, rfl, rfl⟩
  | kept hq hk hlive hholder hepoch =>
    cases Option.some.inj (mem_settled.mp hl).1
    exact .inl ⟨_, hk, hholder, rfl⟩
  | handed hfree =>
    cases Option.some.inj (mem_settled.mp hl).1
    exact .inr ⟨rfl, rfl⟩
  | ended hall hlast => cases hl

theorem Answered.released_last {r r' : LeaseRegister String} {n : String} {millis : ℤ}
    {q : Request} {grant : Option Lease} {wrote : Bool} {d : ℕ}
    (h : Answered r n millis q grant wrote r') (hq : q.isRelease = true) (hwrote : wrote = true)
    (hd : q.epoch? = some d) : d = r.last := by
  cases h with
  | denied => cases hwrote
  | kept hnow =>
    cases q with
    | acquire now => cases hq
    | renew e now => cases hq
    | release e => cases hnow
  | handed => cases hq
  | ended hall hlast =>
    cases hd
    exact hlast

namespace Stage

/-- What the promoting and demoting task knows, given the epochs of the node's lease in the
store and the cached epoch. -/
structure Control (L : ℕ → Prop) (c : Option ℕ) (s : Stage σ) : Prop where
  calls : ∀ q, s.Asks q → (∃ now, q = .acquire now) ∨ ∃ d, q = .release d
  ne_lost : s ≠ .lost
  granted : ∀ g, s = .granted g → ∀ e, L e → e = g.epoch
  releasing : ∀ d, s.Asks (.release d) → ∀ e, c = some e → L e → e = d
  leaving : s = .leaving → ∀ e, c = some e → ¬ L e

/-- What the renewing task knows. -/
structure Renewal (L : ℕ → Prop) (c : Option ℕ) (s : Stage σ) : Prop where
  calls : ∀ q, s.Asks q → ∃ d now, q = .renew d now
  ne_leaving : s ≠ .leaving
  held : ∀ e, s.Holds e → L e → c = some e
  granted : c = none → ∀ g, s ≠ .granted g

variable {L L' : ℕ → Prop} {c c' : Option ℕ} {s : Stage σ}

theorem Control.idle : (Stage.idle : Stage σ).Control L c :=
  ⟨by simp, by simp, by simp, by simp, by simp⟩

theorem Renewal.idle : (Stage.idle : Stage σ).Renewal L c :=
  ⟨by simp, by simp, by simp, by simp⟩

theorem Control.mono (h : s.Control L c) (hL : ∀ e, L' e → L e) : s.Control L' c where
  __ := h
  granted := fun g hg e he => h.granted g hg e (hL e he)
  releasing := fun d hd e hc he => h.releasing d hd e hc (hL e he)
  leaving := fun hs e hc he => h.leaving hs e hc (hL e he)

theorem Renewal.mono (h : s.Renewal L c) (hL : ∀ e, s.Holds e → L' e → L e) : s.Renewal L' c where
  __ := h
  held := fun e hs he => h.held e hs (hL e hs he)

/-- A grant the renewing task is about to apply changes the cached epoch only to one that is
gone from the store, or not at all. -/
theorem Control.recached {g : Lease} {r : Stage σ} (h : s.Control L c) (hr : r.Renewal L c)
    (hg : r = .granted g) : s.Control L (some g.epoch) where
  __ := h
  releasing := by
    rintro d hd e ⟨⟩ he
    exact h.releasing d hd _ (hr.held _ (by rw [hg, holds_granted]) he) he
  leaving := by
    rintro hs e ⟨⟩ he
    exact h.leaving hs _ (hr.held _ (by rw [hg, holds_granted]) he) he

end Stage

namespace Node

variable {x y : Node σ} {n : String} {t : Task} {s : Stage σ} {L L' : ℕ → Prop}

/-- The two tasks of a node, its demotion and its release. -/
structure Tracked (L : ℕ → Prop) (x : Node σ) : Prop where
  control : (x.stage .control).Control L x.state.storedActiveEpoch
  renewal : (x.stage .renewal).Renewal L x.state.storedActiveEpoch
  demoted : x.demoted = true → x.state.storedActiveEpoch = none
  released : x.released ≠ none → (∀ g, x.stage .renewal ≠ .granted g) ∧
    ∀ e, x.state.storedActiveEpoch = some e → ¬ L e

theorem tracked_start (clock : ℕ) : (start clock : Node σ).Tracked L :=
  ⟨.idle, .idle, (fun h => by cases h), fun h => absurd rfl h⟩

namespace Tracked

theorem mono (h : x.Tracked L) (hL : ∀ e, L' e → L e) : x.Tracked L' where
  control := h.control.mono hL
  renewal := h.renewal.mono fun e _ => hL e
  demoted := h.demoted
  released := fun hr => ⟨(h.released hr).1, fun e hc he => (h.released hr).2 e hc (hL e he)⟩

theorem setControl (h : x.Tracked L) (hs : s.Control L x.state.storedActiveEpoch) :
    (x.setStage .control s).Tracked L := by
  have hr : (x.setStage .control s).stage .renewal = x.stage .renewal :=
    setStage_of_ne (by decide)
  refine ⟨?_, ?_, h.demoted, ?_⟩
  · rw [setStage_self]
    exact hs
  · rw [hr]
    exact h.renewal
  · rw [hr]
    exact h.released

theorem setRenewal (h : x.Tracked L) (hs : s.Renewal L x.state.storedActiveEpoch)
    (hgranted : ∀ g, s ≠ .granted g) : (x.setStage .renewal s).Tracked L := by
  have hc : (x.setStage .renewal s).stage .control = x.stage .control :=
    setStage_of_ne (by decide)
  refine ⟨?_, ?_, h.demoted, ?_⟩
  · rw [hc]
    exact h.control
  · rw [setStage_self]
    exact hs
  · rw [setStage_self]
    exact fun hr => ⟨hgranted, (h.released hr).2⟩

theorem begins (h : x.Tracked L) {e : Event} (hb : Begins n x e t s) :
    (x.setStage t s).Tracked L := by
  cases hb with
  | promote hidle =>
    exact h.setControl ⟨by simp, by simp, by simp, by simp, by simp⟩
  | demote hidle hd =>
    apply h.setControl
    refine ⟨by simp, by simp, by simp, ?_, by simp⟩
    intro d' hd' e he _
    cases (Stage.asks_asking _ _).mp hd'
    exact Option.some.inj (he.symm.trans hd)
  | leave hidle hd =>
    apply h.setControl
    refine ⟨by simp, by simp, by simp, by simp, ?_⟩
    intro _ e he
    rw [hd] at he
    cases he
  | renewal hidle hd =>
    apply h.setRenewal ⟨by simp, by simp, ?_, by simp⟩ (by simp)
    intro e he _
    rw [← (Stage.holds_renewing _ _).mp he]
    exact hd
  | readClock hstage =>
    apply h.setRenewal ⟨by simp, by simp, ?_, by simp⟩ (by simp)
    intro e he hL
    rw [Stage.holds_asking] at he
    apply h.renewal.held e ?_ hL
    rw [hstage, Stage.holds_renewing]
    exact Option.some.inj he
  | fetch v o hstage =>
    cases t with
    | control =>
      apply h.setControl
      refine ⟨?_, by simp, by simp, ?_, by simp⟩
      · intro q hq
        cases (Stage.asks_fetched _ _ _ _).mp hq
        exact h.control.calls _ (by rw [hstage, Stage.asks_asking])
      · intro d hd
        cases (Stage.asks_fetched _ _ _ _).mp hd
        exact h.control.releasing d (by rw [hstage, Stage.asks_asking])
    | renewal =>
      apply h.setRenewal ⟨?_, by simp, ?_, by simp⟩ (by simp)
      · intro q hq
        cases (Stage.asks_fetched _ _ _ _).mp hq
        exact h.renewal.calls _ (by rw [hstage, Stage.asks_asking])
      · intro e he
        rw [Stage.holds_fetched] at he
        exact h.renewal.held e (by rw [hstage, Stage.holds_asking, he])
  | conflict hasks =>
    cases t with
    | control =>
      apply h.setControl
      refine ⟨?_, by simp, by simp, ?_, by simp⟩
      · intro q hq
        cases (Stage.asks_asking _ _).mp hq
        exact h.control.calls _ hasks
      · intro d hd
        cases (Stage.asks_asking _ _).mp hd
        exact h.control.releasing d hasks
    | renewal =>
      apply h.setRenewal ⟨?_, by simp, ?_, by simp⟩ (by simp)
      · intro q hq
        cases (Stage.asks_asking _ _).mp hq
        exact h.renewal.calls _ hasks
      · intro e he
        rw [Stage.holds_asking] at he
        exact h.renewal.held e (.inr (.inl ⟨_, hasks, he⟩))
  | drop t =>
    cases t with
    | control => exact h.setControl .idle
    | renewal => exact h.setRenewal .idle (by simp)

/-- The answer to the node's own call; a release must not pass over a granted renewal. -/
theorem answered {r r' : LeaseRegister String} {millis : ℤ} {q : Request} {grant : Option Lease}
    {wrote : Bool} (h : x.Tracked (HasLease r n)) (hs : x.Sound r.last n)
    (hasks : (x.stage t).Asks q) (ha : Answered r n millis q grant wrote r')
    (hrace : t = .control → q.isRelease = true → wrote = true →
      ∀ g, x.stage .renewal ≠ .granted g) :
    ({ x.setStage t (q.next grant) with
        released := if q.isRelease && wrote then q.epoch? else x.released }
      : Node σ).Tracked (HasLease r' n) := by
  have hsame : ∀ e, e ≤ r.last → HasLease r' n e → HasLease r n e := by
    intro e hle he
    rcases ha.hasLease he with hold | ⟨_, rfl⟩
    · exact hold
    · omega
  have hcached : ∀ e, x.state.storedActiveEpoch = some e → HasLease r' n e → HasLease r n e :=
    fun e he => hsame e (hs.cached_le e he)
  have hnot : Task.renewal ≠ Task.control := by decide
  cases t with
  | renewal =>
    obtain ⟨d, now, rfl⟩ := h.renewal.calls q hasks
    have hc : (x.setStage .renewal (Request.next (.renew d now) grant)).stage .control =
        x.stage .control := setStage_of_ne hnot.symm
    have hgrant : ∀ g, grant = some g → x.state.storedActiveEpoch = some g.epoch ∧
        HasLease r n g.epoch := by
      rintro g rfl
      cases ha with
      | kept hq hk hlive hholder hepoch =>
        cases hepoch d rfl
        have hold : HasLease r n _ := ⟨_, hk, hholder, rfl⟩
        exact ⟨h.renewal.held _ (.inr (.inl ⟨_, hasks, rfl⟩)) hold, hold⟩
    have hall : ∀ e, HasLease r' n e → HasLease r n e := by
      intro e he
      cases ha with
      | denied => exact he
      | kept hq hk hlive hholder hepoch =>
        obtain ⟨l, hl, _, rfl⟩ := he
        cases Option.some.inj (mem_settled.mp hl).1
        exact ⟨_, hk, hholder, rfl⟩
    refine ⟨?_, ?_, h.demoted, ?_⟩
    · change (Stage.Control _ _
        ((x.setStage .renewal (Request.next (.renew d now) grant)).stage .control))
      rw [hc]
      exact h.control.mono hall
    · change (Stage.Renewal _ _
        ((x.setStage .renewal (Request.next (.renew d now) grant)).stage .renewal))
      rw [setStage_self]
      refine ⟨fun p hp => absurd hp Request.next_asks, ?_, ?_, ?_⟩
      · cases grant <;> simp [Request.next]
      · intro e he _
        obtain ⟨g, hg, rfl⟩ := Request.next_holds he
        exact (hgrant g hg).1
      · intro hnone g hg
        have hsome := (hgrant g (Request.next_granted hg).1).1
        have hnone' : x.state.storedActiveEpoch = none := hnone
        rw [hnone'] at hsome
        cases hsome
    · intro hr
      change _ ∧ ∀ e, x.state.storedActiveEpoch = some e → _
      obtain ⟨_, hgone⟩ := h.released hr
      constructor
      · intro g hg
        change (x.setStage .renewal (Request.next (.renew d now) grant)).stage .renewal = _ at hg
        have hg' : (Request.next (.renew d now) grant : Stage σ) = .granted g :=
          setStage_self.symm.trans hg
        obtain ⟨hsome, hold⟩ := hgrant g (Request.next_granted hg').1
        exact hgone _ hsome hold
      · exact fun e he hl => hgone e he (hall e hl)
  | control =>
    have hr : (x.setStage .control (q.next grant)).stage .renewal = x.stage .renewal :=
      setStage_of_ne hnot
    have hrenewal : (x.stage .renewal).Renewal (HasLease r' n) x.state.storedActiveEpoch :=
      h.renewal.mono fun e he => hsame e (hs.held_le .renewal e he)
    have hcontrol : (q.next grant : Stage σ).Control (HasLease r' n) x.state.storedActiveEpoch := by
      refine ⟨fun p hp => absurd hp Request.next_asks, ?_, ?_, ?_, ?_⟩
      · rcases h.control.calls q hasks with ⟨now, rfl⟩ | ⟨d, rfl⟩ <;> cases grant <;>
          simp [Request.next]
      · intro g hg e he
        obtain ⟨rfl, _⟩ := Request.next_granted hg
        obtain ⟨l, hl, _, rfl⟩ := he
        cases ha with
        | kept => rw [Option.some.inj (mem_settled.mp hl).1]
        | handed => rw [Option.some.inj (mem_settled.mp hl).1]
      · exact fun d hd => absurd hd Request.next_asks
      · intro hleaving e hc he
        rcases h.control.calls q hasks with ⟨now, rfl⟩ | ⟨d, rfl⟩
        · cases grant <;> cases hleaving
        · cases ha with
          | kept hq => cases hq
          | denied hother =>
            have hd := h.control.releasing d hasks e hc he
            obtain ⟨k, hk, hholder, rfl⟩ := he
            exact hother d rfl k hk ⟨hholder, hd⟩
          | ended hall hlast =>
            obtain ⟨k, hk, _⟩ := he
            cases hk
    refine ⟨?_, ?_, h.demoted, ?_⟩
    · change (Stage.Control _ _ ((x.setStage .control (q.next grant)).stage .control))
      rw [setStage_self]
      exact hcontrol
    · change (Stage.Renewal _ _ ((x.setStage .control (q.next grant)).stage .renewal))
      rw [hr]
      exact hrenewal
    · intro hrel
      change (∀ g, (x.setStage .control (q.next grant)).stage .renewal ≠ _) ∧
        ∀ e, x.state.storedActiveEpoch = some e → _
      rw [hr]
      by_cases hended : (q.isRelease && wrote) = true
      · rw [Bool.and_eq_true] at hended
        refine ⟨hrace rfl hended.1 hended.2, ?_⟩
        intro e _ he
        cases ha with
        | denied => cases hended.2
        | kept hq =>
          cases q with
          | acquire now => cases hended.1
          | renew d now => cases hended.1
          | release d => cases hq
        | handed => cases hended.1
        | ended hall hlast =>
          obtain ⟨k, hk, _⟩ := he
          cases hk
      · simp only [hended] at hrel
        obtain ⟨hfree, hgone⟩ := h.released hrel
        exact ⟨hfree, fun e he hl => hgone e he (hcached e he hl)⟩

theorem finish_released (h : x.Tracked L) (hy : x.finish t = some y) {g : Lease}
    (hg : x.stage t = .granted g) : y.released = none := by
  unfold Node.finish at hy
  rw [hg] at hy
  cases t with
  | control =>
    cases hy
    rfl
  | renewal =>
    cases hy
    by_contra hrel
    exact (h.released hrel).1 g hg

/-- The local update; the one that ends a demotion must not pass over a granted renewal. -/
theorem finish (h : x.Tracked L) (hy : x.finish t = some y)
    (hrace : t = .control → x.stage t = .leaving → ∀ g, x.stage .renewal ≠ .granted g) :
    y.Tracked L := by
  have hnot : Task.renewal ≠ Task.control := by decide
  unfold Node.finish at hy
  split at hy
  · rename_i g hg
    cases t with
    | control =>
      cases hy
      have hr : (x.setStage .control .idle).stage .renewal = x.stage .renewal :=
        setStage_of_ne hnot
      refine ⟨?_, ?_, (fun hd => by cases hd), fun hrel => absurd rfl hrel⟩
      · change (Stage.Control _ _ ((x.setStage .control .idle).stage .control))
        rw [setStage_self]
        exact .idle
      · change (Stage.Renewal _ _ ((x.setStage .control .idle).stage .renewal))
        rw [hr]
        refine ⟨h.renewal.calls, h.renewal.ne_leaving, ?_, fun hnone => by cases hnone⟩
        intro e _ he
        exact congrArg some (h.control.granted g hg e he).symm
    | renewal =>
      cases hy
      have hc : (x.setStage .renewal .idle).stage .control = x.stage .control :=
        setStage_of_ne hnot.symm
      refine ⟨?_, ?_, ?_, ?_⟩
      · change (Stage.Control _ _ ((x.setStage .renewal .idle).stage .control))
        rw [hc]
        exact h.control.recached h.renewal hg
      · change (Stage.Renewal _ _ ((x.setStage .renewal .idle).stage .renewal))
        rw [setStage_self]
        exact .idle
      · intro hd
        exact absurd hg (h.renewal.granted (h.demoted hd) g)
      · intro hrel
        exact absurd hg ((h.released hrel).1 g)
  · rename_i hlost
    cases t with
    | control => exact absurd hlost h.control.ne_lost
    | renewal =>
      cases hy
      have hc : (x.setStage .renewal .idle).stage .control = x.stage .control :=
        setStage_of_ne hnot.symm
      refine ⟨?_, ?_, fun _ => rfl, fun hrel => absurd rfl hrel⟩
      · change (Stage.Control _ _ ((x.setStage .renewal .idle).stage .control))
        rw [hc]
        exact ⟨h.control.calls, h.control.ne_lost, h.control.granted,
          (fun _ _ _ hnone => by cases hnone), (fun _ _ hnone => by cases hnone)⟩
      · change (Stage.Renewal _ _ ((x.setStage .renewal .idle).stage .renewal))
        rw [setStage_self]
        exact .idle
  · rename_i hleaving
    cases t with
    | renewal => exact absurd hleaving h.renewal.ne_leaving
    | control =>
      cases hy
      have hr : (x.setStage .control .idle).stage .renewal = x.stage .renewal :=
        setStage_of_ne hnot
      refine ⟨?_, ?_, fun _ => rfl, fun hrel => absurd rfl hrel⟩
      · change (Stage.Control _ _ ((x.setStage .control .idle).stage .control))
        rw [setStage_self]
        exact .idle
      · change (Stage.Renewal _ _ ((x.setStage .control .idle).stage .renewal))
        rw [hr]
        refine ⟨h.renewal.calls, h.renewal.ne_leaving, ?_, fun _ => hrace rfl hleaving⟩
        intro e hh he
        exact absurd he (h.control.leaving hleaving e (h.renewal.held e hh he))
  · cases hy

end Tracked

end Node

variable (B : Backend σ) (c : Config)

namespace World

/-- A demotion neither releases the lease nor returns while a renewal of the node has been
granted in the store but not applied. -/
def Unraced (w : World σ) : Event → Prop
  | .store n .control | .replace n .control | .finish n .control =>
    (∃ d, ((w.nodes n).stage .control).Asks (.release d)) ∨
      (w.nodes n).stage .control = .leaving →
    ∀ g, (w.nodes n).stage .renewal ≠ .granted g
  | _ => True

/-- Beside a node that is active though its lease was released, no node is active under an
epoch after the released one. -/
def Succeeded (w : World σ) : Prop :=
  ∀ n d, (w.nodes n).released = some d → (w.nodes n).isActive c n →
    ∀ m ≠ n, (w.nodes m).isActive c m → ∀ e, (w.nodes m).state.storedActiveEpoch = some e → e ≤ d

variable {B c} {w w' : World σ} {e : Event}

theorem tracked_stepped (h : ∀ n, (w.nodes n).Tracked (HasLease (B.shown w.store) n))
    (hs : w.Sound B c) (hn : B.Holder e.node) (hrace : w.Unraced e)
    (hstep : w.Stepped B.toLeaseProvider c e w') :
    ∀ n, (w'.nodes n).Tracked (HasLease (B.shown w'.store) n) := by
  cases hstep with
  | tick n hle =>
    apply forall_setNode (Q := fun m x => x.Tracked (HasLease (B.shown w.store) m)) h
    exact ⟨(h n).control, (h n).renewal, (h n).demoted, (h n).released⟩
  | begins n hb hfetched =>
    exact forall_setNode (Q := fun m x => x.Tracked (HasLease (B.shown w.store) m)) h
      ((h n).begins hb)
  | answered n hnode hwrote hasks hask =>
    subst hnode
    rename_i t q o
    obtain ⟨_, hans⟩ := hs.ask_answered hn hasks hask
    intro m
    by_cases hm : m = e.node
    · subst hm
      rw [nodes_answered]
      apply (h e.node).answered (hs.node e.node) hasks hans
      rintro rfl hrel hw
      have hrelease : ∃ d, ((w.nodes e.node).stage .control).Asks (.release d) := by
        cases q with
        | acquire now => cases hrel
        | renew d now => cases hrel
        | release d => exact ⟨d, hasks⟩
      rcases hwrote hw with he | he
      · rw [he] at hrace hrelease ⊢
        exact hrace (.inl hrelease)
      · rw [he] at hrace hrelease ⊢
        exact hrace (.inl hrelease)
    · rw [nodes_answered_of_ne hm]
      apply (h m).mono
      intro d hd
      rcases hans.hasLease hd with hold | ⟨hmn, _⟩
      · exact hold
      · exact absurd hmn hm
  | finish n hx =>
    apply forall_setNode (Q := fun m x => x.Tracked (HasLease (B.shown w.store) m)) h
    apply (h n).finish hx
    rintro rfl hleaving
    exact hrace (.inr hleaving)

/-- A released epoch is the last one, so it is above every epoch a node then has. -/
theorem Succeeded.stepped (hc : w.Succeeded c) (hs : w.Sound B c) (hn : B.Holder e.node)
    (ht : ∀ n, (w.nodes n).Tracked (HasLease (B.shown w.store) n)) (halone : w.Alone c e)
    (hstep : w.Stepped B.toLeaseProvider c e w') : w'.Succeeded c := by
  have hset : ∀ n x, (x.isActive c n → (w.nodes n).isActive c n ∧ x.state = (w.nodes n).state ∧
      x.released = (w.nodes n).released) → (w.setNode n x).Succeeded c := by
    intro n x hx k d hrel hact m hm hactm a ha
    have hback : ∀ m, ((w.setNode n x).nodes m).isActive c m → (w.nodes m).isActive c m ∧
        ((w.setNode n x).nodes m).state = (w.nodes m).state ∧
        ((w.setNode n x).nodes m).released = (w.nodes m).released := by
      intro m hm
      by_cases hmn : m = n
      · subst hmn
        rw [nodes_setNode] at hm ⊢
        exact hx hm
      · rw [nodes_setNode_of_ne hmn] at hm ⊢
        exact ⟨hm, rfl, rfl⟩
    obtain ⟨hk, _, hkrel⟩ := hback k hact
    obtain ⟨hm', hstate, _⟩ := hback m hactm
    exact hc k d (hkrel ▸ hrel) hk m hm hm' a (hstate ▸ ha)
  cases hstep with
  | tick n hle =>
    apply hset
    rintro ⟨hrole, htime⟩
    refine ⟨⟨hrole, ?_⟩, rfl, rfl⟩
    simp only at htime
    omega
  | begins n hb hfetched => exact hset n _ fun hact => ⟨hact, rfl, rfl⟩
  | answered n hnode hwrote hasks hask =>
    subst hnode
    rename_i t q o
    obtain ⟨_, hans⟩ := hs.ask_answered hn hasks hask
    have hold : ∀ m, ((w.answered B.toLeaseProvider e.node t q o).nodes m).isActive c m →
        (w.nodes m).isActive c m := by
      intro m hm
      by_cases hmn : m = e.node
      · subst hmn
        rw [nodes_answered] at hm
        exact hm
      · rwa [nodes_answered_of_ne hmn] at hm
    have hstate : ∀ m, ((w.answered B.toLeaseProvider e.node t q o).nodes m).state =
        (w.nodes m).state := by
      intro m
      by_cases hmn : m = e.node
      · subst hmn
        rw [nodes_answered]
        rfl
      · rw [nodes_answered_of_ne hmn]
    intro k d hrel hact m hm hactm a ha
    rw [hstate m] at ha
    by_cases hk : k = e.node
    · subst hk
      rw [nodes_answered] at hrel
      by_cases hended : (q.isRelease && o.wrote) = true
      · have hle := (hs.node m).cached_le a ha
        rw [Bool.and_eq_true] at hended
        have hd : q.epoch? = some d := by
          simpa only [hended.1, hended.2, Bool.and_self, if_true] using hrel
        rw [← hans.released_last hended.1 hended.2 hd] at hle
        exact hle
      · have hrel' : (w.nodes e.node).released = some d := (if_neg hended).symm.trans hrel
        exact hc e.node d hrel' (hold _ hact) m hm (hold m hactm) a ha
    · rw [nodes_answered_of_ne hk] at hrel
      exact hc k d hrel (hold k hact) m hm (hold m hactm) a ha
  | finish n hx =>
    rename_i t x
    rcases Node.finish_cases hx with ⟨g, hg, _, hclock, hstate⟩ | ⟨_, _, hstate⟩
    · have htime : x.isActive c n → ((w.nodes n).clock : ℤ) < g.expires - c.margin n := by
        rintro ⟨_, ht⟩
        rw [hclock, hstate] at ht
        exact ht
      intro k d hrel hact m hm hactm a ha
      by_cases hk : k = n
      · subst hk
        rw [nodes_setNode] at hrel
        have hnone := (ht k).finish_released hx hg
        rw [hnone] at hrel
        cases hrel
      · rw [nodes_setNode_of_ne hk] at hrel hact
        by_cases hmn : m = n
        · subst hmn
          rw [nodes_setNode] at hactm
          have hlinger : w.Lingers c k := ⟨by rw [hrel]; exact Option.some_ne_none d, hact⟩
          exact absurd hlinger (halone g hg (htime hactm) k hk)
        · rw [nodes_setNode_of_ne hmn] at hactm ha
          exact hc k d hrel hact m hm hactm a ha
    · apply hset
      rintro ⟨hrole, _⟩
      rw [hstate] at hrole
      cases hrole

theorem reached_tracked {allowed : World σ → Event → Prop}
    (hallowed : ∀ w e, allowed w e → B.Holder e.node ∧ w.Unraced e)
    (h : w.Reached B.toLeaseProvider c allowed) :
    w.Sound B c ∧ ∀ n, (w.nodes n).Tracked (HasLease (B.shown w.store) n) := by
  obtain ⟨clocks, hrun⟩ := h
  induction hrun with
  | refl => exact ⟨sound_start clocks, fun n => Node.tracked_start (clocks n)⟩
  | tail _ hnext ih =>
    obtain ⟨e, hev, hstep⟩ := hnext
    obtain ⟨hn, hrace⟩ := hallowed _ e hev
    have hstepped := stepped ih.1.fresh hstep
    exact ⟨ih.1.stepped hn hstepped, tracked_stepped ih.2 ih.1 hn hrace hstepped⟩

theorem reached_succeeded
    (h : w.Reached B.toLeaseProvider c fun w e => (B.Holder e.node ∧ w.Unraced e) ∧ w.Alone c e) :
    w.Succeeded c := by
  obtain ⟨clocks, hrun⟩ := h
  induction hrun with
  | refl =>
    intro n d hrel
    cases hrel
  | tail hprev hnext ih =>
    obtain ⟨e, ⟨⟨hn, hrace⟩, halone⟩, hstep⟩ := hnext
    obtain ⟨hs, ht⟩ := reached_tracked (fun _ _ h => h.1) ⟨clocks, hprev⟩
    exact ih.stepped hs hn ht halone (stepped hs.fresh hstep)

/-- When no demotion passes over a granted renewal of its node, a node whose demotion has
returned is not active until a promotion of it succeeds; and when moreover no node becomes active
while another lingers, a node that has released its lease is never active together with one that
was granted the lease later. -/
theorem demotion_final (B : Backend σ) (c : Config) :
    (∀ w : World σ,
      w.Reached B.toLeaseProvider c (fun w e => B.Holder e.node ∧ w.Unraced e) →
      ∀ n, (w.nodes n).demoted = true → ¬ (w.nodes n).isActive c n) ∧
    ∀ w : World σ,
      w.Reached B.toLeaseProvider c (fun w e => (B.Holder e.node ∧ w.Unraced e) ∧ w.Alone c e) →
      ∀ n d, (w.nodes n).released = some d → (w.nodes n).isActive c n →
        ∀ m ≠ n, (w.nodes m).isActive c m →
          ∀ e, (w.nodes m).state.storedActiveEpoch = some e → e ≤ d := by
  constructor
  · intro w h n hdemoted hact
    obtain ⟨hs, ht⟩ := reached_tracked (fun _ _ h => h) h
    obtain ⟨g, hg, _⟩ := Node.cached_of_isActive (hs.node n) hact
    have hsome := (Node.mem_cached.mp hg).1
    rw [(ht n).demoted hdemoted] at hsome
    cases hsome
  · intro w h
    exact reached_succeeded h

/-- No renewal is under way at a step of the control task. -/
def Calm (w : World σ) (e : Event) : Prop :=
  e ∈ [.store e.node .control, .replace e.node .control, .finish e.node .control] →
    (w.nodes e.node).stage .renewal = .idle

instance (w : World σ) (e : Event) : Decidable (w.Calm e) := inferInstanceAs (Decidable (_ → _))

theorem Calm.unraced (h : w.Calm e) : w.Unraced e := by
  unfold Unraced
  split
  all_goals first
    | trivial
    | (intro _ g hg
       have hidle := h (by simp [Event.node])
       cases hidle.symm.trans hg)

/-- A node takes the lease over by a clock that is ahead, and its demotion ends it in the
store. -/
def ahead : List Event :=
  [.promote "b", .store "b" .control, .finish "b" .control, .tick "a" 20000, .promote "a",
    .store "a" .control, .finish "a" .control, .demote "a", .store "a" .control]

theorem demotion_final_handOff :
    (∃ w, played Postgres.provider handOff = some w ∧ (w.nodes "a").demoted = true ∧
      ¬ (w.nodes "a").isActive tenSeconds "a") ∧
    ∃ w, played Postgres.provider ahead = some w ∧ (w.nodes "a").isActive tenSeconds "a" ∧
      (w.nodes "b").isActive tenSeconds "b" ∧
      ∀ e, (w.nodes "b").state.storedActiveEpoch = some e → e ≤ 2 := by
  constructor
  · obtain ⟨w, hplay, hdemoted⟩ : ∃ w, played Postgres.provider handOff = some w ∧
        (w.nodes "a").demoted = true := by
      exact ⟨_, rfl, rfl⟩
    have hcalm : Allows Postgres.provider Calm handOff := by decide +kernel
    have hplays : Allows Postgres.provider
        (fun w e => Postgres.backend.Holder e.node ∧ w.Unraced e) handOff :=
      hcalm.imp (I := fun _ => True) (fun _ _ _ => trivial)
        (fun _ he => ⟨trivial, he.unraced⟩) trivial
    exact ⟨w, hplay, hdemoted, (demotion_final Postgres.backend tenSeconds).1 w
      ⟨_, hplays.run hplay⟩ "a" hdemoted⟩
  · obtain ⟨w, hplay, hreleased, ha, hb⟩ : ∃ w, played Postgres.provider ahead = some w ∧
        (w.nodes "a").released = some 2 ∧
        (w.nodes "a").isActive tenSeconds "a" ∧ (w.nodes "b").isActive tenSeconds "b" := by
      exact ⟨_, rfl, by decide +kernel⟩
    have hpair : Allows Postgres.provider
        (fun w e => (e.node ∈ pair ∧ w.Calm e) ∧ w.PairAlone tenSeconds e) ahead := by
      decide +kernel
    have hplays : Allows Postgres.provider
        (fun w e => (Postgres.backend.Holder e.node ∧ w.Unraced e) ∧ w.Alone tenSeconds e) ahead :=
      hpair.imp (fun hI he hstep => hI.step he.1.1 hstep)
        (fun hI he => ⟨⟨trivial, he.1.2.unraced⟩, hI.alone he.2⟩)
        (othersIdle_start Postgres.provider)
    exact ⟨w, hplay, ha, hb, (demotion_final Postgres.backend tenSeconds).2 w
      ⟨_, hplays.run hplay⟩ "a" 2 hreleased ha "b" (by decide) hb⟩

/-- A renewal is granted, the node is demoted and another promoted, and then the renewal is
applied. -/
def resurrection : List Event :=
  [.promote "a", .store "a" .control, .finish "a" .control, .renewal "a", .readClock "a",
    .store "a" .renewal, .demote "a", .store "a" .control, .finish "a" .control, .promote "b",
    .store "b" .control, .finish "b" .control, .finish "a" .renewal]

theorem demotion_not_final : ∃ w : World Local.Inner,
    w.Reached Local.provider tenSeconds (fun _ e => Local.backend.Holder e.node) ∧
    (w.nodes "a").demoted = true ∧ (w.nodes "a").isActive tenSeconds "a" ∧
    (w.nodes "b").isActive tenSeconds "b" := by
  obtain ⟨w, hplay, hactive⟩ : ∃ w, played Local.provider resurrection = some w ∧
      (w.nodes "a").demoted = true ∧ (w.nodes "a").isActive tenSeconds "a" ∧
      (w.nodes "b").isActive tenSeconds "b" := by
    exact ⟨_, rfl, by decide +kernel⟩
  exact ⟨w, ⟨_, (plays_of_allowed fun _ _ => trivial).run hplay⟩, hactive⟩

end World

end BlueDB.Ha
