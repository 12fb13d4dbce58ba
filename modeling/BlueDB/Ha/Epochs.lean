import BlueDB.Ha.Steps

/-!
# The epochs of a run

No epoch is above the last one the store has handed out. Two grants under one
epoch therefore have one holder, and the grants that changed hands have ascending
epochs, whatever the clocks and the order of the steps.
-/

namespace BlueDB.Ha

open LeaseRegister

variable {σ : Type}

namespace Request

theorem next_granted {q : Request} {grant : Option Lease} {g : Lease}
    (h : (q.next grant : Stage σ) = .granted g) : grant = some g ∧ q.isRelease = false := by
  cases q <;> cases grant <;> cases h <;> exact ⟨rfl, rfl⟩

theorem next_asks {q p : Request} {grant : Option Lease} : ¬ (q.next grant : Stage σ).Asks p := by
  cases q <;> cases grant <;> simp [next]

theorem next_holds {q : Request} {grant : Option Lease} {e : ℕ}
    (h : (q.next grant : Stage σ).Holds e) : ∃ g, grant = some g ∧ g.epoch = e := by
  cases q <;> cases grant <;> simp_all [next]

end Request

theorem Answered.grant_spec {r r' : LeaseRegister String} {n : String} {millis : ℤ} {q : Request}
    {g : Lease} {wrote : Bool} (hr : r.Numbered) (h : Answered r n millis q (some g) wrote r') :
    g.holder = n ∧ g.epoch ≤ r'.last ∧ ∃ now, q.now? = some now ∧ g.expires = now + millis := by
  cases h with
  | kept hq hk hlive hholder hepoch =>
    have hle := (hr _ hk).le
    exact ⟨rfl, hle, _, hq, rfl⟩
  | handed hfree => exact ⟨rfl, le_rfl, _, rfl, rfl⟩

/-- What the grants given so far agree on; the last one comes first. -/
structure Told (r : LeaseRegister String) (grants handOffs : List Lease) : Prop where
  grants_le : ∀ g ∈ grants, g.epoch ≤ r.last
  same_epoch : ∀ g ∈ grants, ∀ h ∈ grants, g.epoch = h.epoch → g.holder = h.holder
  lease_holder : ∀ k ∈ r.lease, ∀ g ∈ grants, g.epoch = k.epoch → g.holder = k.holder
  handOffs_le : ∀ g ∈ handOffs, g.epoch ≤ r.last
  ascending : handOffs.Pairwise fun later earlier => earlier.epoch < later.epoch

namespace Told

variable {r r' : LeaseRegister String} {grants handOffs : List Lease}

theorem nil (r : LeaseRegister String) : Told r [] [] where
  grants_le := fun _ h => by cases h
  same_epoch := fun _ h => by cases h
  lease_holder := fun _ _ _ h => by cases h
  handOffs_le := fun _ h => by cases h
  ascending := .nil

theorem cons (h : Told r grants handOffs) {g : Lease} (hlast : r.last ≤ r'.last)
    (hg : g.epoch ≤ r'.last) (hlease : ∀ k ∈ r'.lease, k = g)
    (hsame : ∀ k ∈ grants, k.epoch = g.epoch → k.holder = g.holder) :
    Told r' (g :: grants) handOffs where
  grants_le := by
    rintro k (_ | ⟨_, hk⟩)
    · exact hg
    · exact (h.grants_le k hk).trans hlast
  same_epoch := by
    rintro k (_ | ⟨_, hk⟩) l (_ | ⟨_, hl⟩) heq
    · rfl
    · exact (hsame l hl heq.symm).symm
    · exact hsame k hk heq
    · exact h.same_epoch k hk l hl heq
  lease_holder := by
    intro k hk l hl heq
    cases hlease k hk
    rcases List.mem_cons.mp hl with rfl | hl
    · rfl
    · exact hsame l hl heq
  handOffs_le := fun k hk => (h.handOffs_le k hk).trans hlast
  ascending := h.ascending

theorem handOff (h : Told r grants handOffs) {g : Lease} (hg : g.epoch ≤ r.last)
    (hnew : ∀ k ∈ handOffs, k.epoch < g.epoch) : Told r grants (g :: handOffs) where
  __ := h
  handOffs_le := by
    rintro k (_ | ⟨_, hk⟩)
    · exact hg
    · exact h.handOffs_le k hk
  ascending := List.pairwise_cons.mpr ⟨hnew, h.ascending⟩

/-- A call adds its grant, and counts it as a hand-over when no lease was live. -/
theorem answered {n : String} {millis : ℤ} {q : Request} {grant : Option Lease} {wrote : Bool}
    (h : Told r grants handOffs) (hr : r.Numbered) (ha : Answered r n millis q grant wrote r')
    {off : Bool} (hoff : off = true → ∀ now ∈ q.now?, r.current now = none) :
    Told r' (grant.toList ++ grants) ((if off then grant.toList else []) ++ handOffs) := by
  cases ha with
  | denied => cases off <;> exact h
  | kept hq hk hlive hholder hepoch =>
    rename_i now k
    cases off with
    | true => exact absurd hlive (current_eq_none.mp (hoff rfl now hq) k hk)
    | false =>
      have hle := (hr k hk).le
      refine h.cons (g := ⟨n, k.epoch, now + millis⟩) le_rfl hle ?_ ?_
      · exact fun l hl => Option.some.inj (mem_settled.mp hl).1.symm
      · intro l hl heq
        exact (h.lease_holder k hk l hl heq).trans hholder
  | handed hfree =>
    rename_i now
    have hcons : Told (settled ⟨some ⟨n, r.last + 1, now + millis⟩, r.last + 1⟩)
        (⟨n, r.last + 1, now + millis⟩ :: grants) handOffs := by
      apply h.cons (Nat.le_succ _) le_rfl
      · exact fun l hl => Option.some.inj (mem_settled.mp hl).1.symm
      · intro l hl heq
        have hle := h.grants_le l hl
        simp only at heq
        omega
    cases off with
    | true => exact hcons.handOff le_rfl fun k hk => Nat.lt_succ_of_le (h.handOffs_le k hk)
    | false => exact hcons
  | ended hall hlast =>
    cases off <;>
      exact ⟨h.grants_le, h.same_epoch, fun k hk => (by cases hk), h.handOffs_le, h.ascending⟩

end Told

namespace Node

variable {x : Node σ} {t u : Task} {s : Stage σ}

@[simp] theorem setStage_self : (x.setStage t s).stage t = s := Function.update_self ..

theorem setStage_of_ne (h : u ≠ t) : (x.setStage t s).stage u = x.stage u :=
  Function.update_of_ne h ..

structure Sound (last : ℕ) (n : String) (x : Node σ) : Prop where
  filled : x.state.role = .active → ∃ e, x.state.epoch = some e
  cached_le : ∀ e, x.state.storedActiveEpoch = some e → e ≤ last
  held_le : ∀ t e, (x.stage t).Holds e → e ≤ last
  holder : ∀ t g, x.stage t = .granted g → g.holder = n
  times : ∀ t q, (x.stage t).Asks q → ∀ now ∈ q.now?, ∃ m : ℕ, now = m ∧ m ≤ x.clock

theorem sound_start (last : ℕ) (n : String) (clock : ℕ) : (start clock : Node σ).Sound last n where
  filled := fun h => by cases h
  cached_le := fun _ h => by cases h
  held_le := fun _ _ h => absurd h (Stage.holds_idle _)
  holder := fun _ _ h => by cases h
  times := fun _ _ h => absurd h (Stage.asks_idle _)

namespace Sound

variable {last last' : ℕ} {n : String}

theorem mono (h : x.Sound last n) (hle : last ≤ last') : x.Sound last' n where
  __ := h
  cached_le := fun e he => (h.cached_le e he).trans hle
  held_le := fun t e he => (h.held_le t e he).trans hle

theorem tick (h : x.Sound last n) {now : ℕ} (hle : x.clock ≤ now) :
    ({ x with clock := now } : Node σ).Sound last n where
  __ := h
  times := by
    intro t q hq now' hnow'
    obtain ⟨m, hm, hm'⟩ := h.times t q hq now' hnow'
    exact ⟨m, hm, hm'.trans hle⟩

theorem setStage (h : x.Sound last n) (hheld : ∀ e, s.Holds e → e ≤ last)
    (hholder : ∀ g, s = .granted g → g.holder = n)
    (htimes : ∀ q, s.Asks q → ∀ now ∈ q.now?, ∃ m : ℕ, now = m ∧ m ≤ x.clock) :
    (x.setStage t s).Sound last n where
  __ := h
  held_le := by
    intro u e he
    by_cases hut : u = t
    · subst hut
      rw [setStage_self] at he
      exact hheld e he
    · rw [setStage_of_ne hut] at he
      exact h.held_le u e he
  holder := by
    intro u g hg
    by_cases hut : u = t
    · subst hut
      rw [setStage_self] at hg
      exact hholder g hg
    · rw [setStage_of_ne hut] at hg
      exact h.holder u g hg
  times := by
    intro u q hq
    by_cases hut : u = t
    · subst hut
      rw [setStage_self] at hq
      exact htimes q hq
    · rw [setStage_of_ne hut] at hq
      exact h.times u q hq

theorem idle (h : x.Sound last n) (t : Task) : (x.setStage t .idle).Sound last n :=
  h.setStage (fun _ he => absurd he (Stage.holds_idle _)) (fun _ hg => by cases hg)
    (fun _ hq => absurd hq (Stage.asks_idle _))

theorem begins (h : x.Sound last n) {e : Event} (hb : Begins n x e t s) :
    (x.setStage t s).Sound last n := by
  cases hb with
  | promote hidle =>
    apply h.setStage
    · simp [Request.epoch?]
    · simp
    · simp [Request.now?]
  | demote hidle hd =>
    apply h.setStage
    · simp only [Stage.holds_asking, Request.epoch?, Option.some.injEq, forall_eq']
      exact h.cached_le _ hd
    · simp
    · simp [Request.now?]
  | leave hidle hd => exact h.setStage (by simp) (by simp) (by simp)
  | renewal hidle hd =>
    apply h.setStage
    · simp only [Stage.holds_renewing, forall_eq']
      exact h.cached_le _ hd
    · simp
    · simp
  | readClock hstage =>
    apply h.setStage
    · simp only [Stage.holds_asking, Request.epoch?, Option.some.injEq, forall_eq']
      exact h.held_le .renewal _ (by rw [hstage, Stage.holds_renewing])
    · simp
    · simp [Request.now?]
  | fetch v o hstage =>
    apply h.setStage
    · intro d hd
      exact h.held_le t d (by rw [hstage, Stage.holds_asking]; exact (Stage.holds_fetched ..).mp hd)
    · simp
    · intro p hp
      rw [Stage.asks_fetched] at hp
      subst hp
      exact h.times t _ (by rw [hstage, Stage.asks_asking])
  | conflict hasks =>
    apply h.setStage
    · intro d hd
      rw [Stage.holds_asking] at hd
      exact h.held_le t d (.inr (.inl ⟨_, hasks, hd⟩))
    · simp
    · intro p hp
      rw [Stage.asks_asking] at hp
      subst hp
      exact h.times t _ hasks
  | drop t => exact h.idle t

theorem answered {r r' : LeaseRegister String} {millis : ℤ} {q : Request} {grant : Option Lease}
    {wrote : Bool} (h : x.Sound r.last n) (hr : r.Numbered)
    (ha : Answered r n millis q grant wrote r') (b : Option ℕ) :
    ({ x.setStage t (q.next grant) with released := b } : Node σ).Sound r'.last n := by
  have hset : (x.setStage t (q.next grant)).Sound r'.last n := by
    apply (h.mono ha.last_le).setStage
    · intro e he
      obtain ⟨g, rfl, rfl⟩ := Request.next_holds he
      exact (ha.grant_spec hr).2.1
    · intro g hg
      obtain ⟨rfl, _⟩ := Request.next_granted hg
      exact (ha.grant_spec hr).1
    · intro p hp
      exact absurd hp Request.next_asks
  exact { hset with }

/-- A local update keeps the clock and leaves its task idle. -/
theorem finish (h : x.Sound last n) {y : Node σ} (hy : x.finish t = some y) : y.Sound last n := by
  have hidle := h.idle t
  unfold Node.finish at hy
  split at hy
  · rename_i g hg
    have hle := h.held_le t g.epoch (by rw [hg, Stage.holds_granted])
    split at hy <;>
    · cases hy
      refine ⟨fun _ => ⟨g.epoch, rfl⟩, ?_, hidle.held_le, hidle.holder, hidle.times⟩
      rintro e ⟨⟩
      exact hle
  · cases hy
    exact ⟨(fun hr => by cases hr), (fun _ he => by cases he), hidle.held_le, hidle.holder,
      hidle.times⟩
  · cases hy
    exact ⟨(fun hr => by cases hr), (fun _ he => by cases he), hidle.held_le, hidle.holder,
      hidle.times⟩
  · cases hy

end Sound

end Node

variable (B : Backend σ) (c : Config)

namespace World

/-- The store is well formed, and no node is ahead of it. -/
structure Sound (w : World σ) : Prop where
  ok : B.Ok w.store
  fresh : w.Fresh B.toLeaseProvider c
  node : ∀ n, (w.nodes n).Sound (B.shown w.store).last n

variable {B c} {w w' : World σ} {e : Event}

theorem sound_start (clocks : String → ℕ) : (start B.toLeaseProvider clocks).Sound B c where
  ok := B.ok_fresh
  fresh := fun _ _ _ _ _ h => by cases h
  node := fun n => Node.sound_start _ n (clocks n)

@[simp] theorem nodes_setNode (n : String) (x : Node σ) : (w.setNode n x).nodes n = x :=
  Function.update_self ..

theorem nodes_setNode_of_ne {m n : String} (h : m ≠ n) (x : Node σ) :
    (w.setNode n x).nodes m = w.nodes m := Function.update_of_ne h ..

@[simp] theorem nodes_answered (P : LeaseProvider σ) (n : String) (t : Task) (q : Request)
    (o : Outcome σ) : (w.answered P n t q o).nodes n =
      { (w.nodes n).setStage t (q.next o.grant) with
        released := if q.isRelease && o.wrote then q.epoch? else (w.nodes n).released } :=
          Function.update_self ..

theorem nodes_answered_of_ne {P : LeaseProvider σ} {m n : String} (h : m ≠ n) (t : Task)
    (q : Request) (o : Outcome σ) : (w.answered P n t q o).nodes m = w.nodes m :=
  Function.update_of_ne h ..

/-- A property of every node is kept by a change to one that has it. -/
theorem forall_setNode {Q : String → Node σ → Prop} {n : String} {x : Node σ}
    (h : ∀ m, Q m (w.nodes m)) (hx : Q n x) : ∀ m, Q m ((w.setNode n x).nodes m) := by
  intro m
  by_cases hm : m = n
  · subst hm
    rw [nodes_setNode]
    exact hx
  · rw [nodes_setNode_of_ne hm]
    exact h m

theorem Fresh.setNode {P : LeaseProvider σ} (h : w.Fresh P c) {n : String} {x : Node σ}
    (hx : ∀ t q v o, x.stage t = .fetched q v o → (w.nodes n).stage t = .fetched q v o ∨
      v = w.version ∧ P.ask w.store n (c.ttl n) q = some o) : (w.setNode n x).Fresh P c := by
  intro m t q v o hstage
  by_cases hm : m = n
  · subst hm
    rw [nodes_setNode] at hstage
    rcases hx t q v o hstage with hold | ⟨rfl, hask⟩
    · exact h m t q v o hold
    · exact ⟨le_rfl, fun _ => hask⟩
  · rw [nodes_setNode_of_ne hm] at hstage
    exact h m t q v o hstage

theorem Fresh.answered {P : LeaseProvider σ} (h : w.Fresh P c) (n : String) (t : Task)
    (q : Request) (o : Outcome σ) : (w.answered P n t q o).Fresh P c := by
  have hold : ∀ m u p v o', ((w.answered P n t q o).nodes m).stage u = .fetched p v o' →
      (w.nodes m).stage u = .fetched p v o' := by
    intro m u p v o' hstage
    by_cases hm : m = n
    · subst hm
      rw [nodes_answered] at hstage
      change ((w.nodes m).setStage t _).stage u = _ at hstage
      by_cases hu : u = t
      · subst hu
        rw [Node.setStage_self] at hstage
        have hasks : (q.next o.grant : Stage σ).Asks p := by
          rw [hstage, Stage.asks_fetched]
        exact absurd hasks Request.next_asks
      · rw [Node.setStage_of_ne hu] at hstage
        exact hstage
    · rwa [nodes_answered_of_ne hm] at hstage
  intro m u p v o' hstage
  obtain ⟨hle, hask⟩ := h m u p v o' (hold m u p v o' hstage)
  unfold World.answered
  simp only
  cases o.wrote with
  | true => exact ⟨Nat.le_succ_of_le hle, fun hv =>
      absurd hle (by simp only [if_true] at hv; omega)⟩
  | false => exact ⟨hle, hask⟩

theorem finish_fetched {x y : Node σ} {t u : Task} {q : Request} {v : ℕ} {o : Outcome σ}
    (hy : x.finish t = some y) (h : y.stage u = .fetched q v o) : x.stage u = .fetched q v o := by
  have hstage : y.stage = (x.setStage t .idle).stage := by
    unfold Node.finish at hy
    split at hy
    · split at hy <;>
      · cases hy
        rfl
    · cases hy
      rfl
    · cases hy
      rfl
    · cases hy
  rw [hstage] at h
  by_cases hu : u = t
  · subst hu
    rw [Node.setStage_self] at h
    cases h
  · rwa [Node.setStage_of_ne hu] at h

/-- The calls of a sound world meet what the backend is made for. -/
theorem Sound.ask_answered (hs : w.Sound B c) {n : String} {t : Task} {q : Request}
    {o : Outcome σ} (hn : B.Holder n) (hasks : ((w.nodes n).stage t).Asks q)
    (hask : B.ask w.store n (c.ttl n) q = some o) :
    B.Ok o.store ∧ Answered (B.shown w.store) n (B.millis (c.ttl n)) q o.grant o.wrote
      (B.shown (w.answered B.toLeaseProvider n t q o).store) := by
  apply Backend.ask_answered hs.ok hn ?_ ?_ hask
  · intro e he
    have hle := (hs.node n).held_le t e (.inr (.inl ⟨q, hasks, he⟩))
    exact hle.trans (B.ok_last hs.ok).2
  · intro now hnow
    obtain ⟨m, rfl, _⟩ := (hs.node n).times t q hasks now hnow
    exact Int.natCast_nonneg m

theorem Sound.stepped (hs : w.Sound B c) (hn : B.Holder e.node)
    (h : w.Stepped B.toLeaseProvider c e w') : w'.Sound B c := by
  cases h with
  | tick n hle =>
    refine ⟨hs.ok, hs.fresh.setNode fun _ _ _ _ hold => .inl hold, ?_⟩
    exact forall_setNode (Q := fun m x => x.Sound _ m) hs.node ((hs.node n).tick hle)
  | begins n hb hfetched =>
    refine ⟨hs.ok, hs.fresh.setNode ?_, ?_⟩
    · intro u q v o hstage
      rename_i t s
      by_cases hu : u = t
      · subst hu
        rw [Node.setStage_self] at hstage
        exact .inr (hfetched q v o hstage)
      · rw [Node.setStage_of_ne hu] at hstage
        exact .inl hstage
    · exact forall_setNode (Q := fun m x => x.Sound _ m) hs.node ((hs.node n).begins hb)
  | answered n hnode hwrote hasks hask =>
    subst hnode
    obtain ⟨hok, hans⟩ := hs.ask_answered hn hasks hask
    refine ⟨?_, hs.fresh.answered _ _ _ _, ?_⟩
    · unfold World.answered
      simp only
      split_ifs
      · exact hok
      · exact hs.ok
    · intro m
      by_cases hm : m = e.node
      · subst hm
        rw [nodes_answered]
        exact (hs.node _).answered (Backend.shown_numbered hs.ok) hans _
      · rw [nodes_answered_of_ne hm]
        exact (hs.node m).mono hans.last_le
  | finish n hx =>
    refine ⟨hs.ok, hs.fresh.setNode fun u q v o hstage => .inl (finish_fetched hx hstage), ?_⟩
    exact forall_setNode (Q := fun m x => x.Sound _ m) hs.node ((hs.node n).finish hx)

theorem told_stepped (ht : Told (B.shown w.store) w.grants w.handOffs) (hs : w.Sound B c)
    (hn : B.Holder e.node) (h : w.Stepped B.toLeaseProvider c e w') :
    Told (B.shown w'.store) w'.grants w'.handOffs := by
  cases h with
  | tick n hle => exact ht
  | begins n hb hfetched => exact ht
  | finish n hx => exact ht
  | answered n hnode hwrote hasks hask =>
    subst hnode
    rename_i t q o
    obtain ⟨hok, hans⟩ := hs.ask_answered hn hasks hask
    apply ht.answered (Backend.shown_numbered hs.ok) hans
    intro hoff now hnow
    obtain ⟨m, rfl, _⟩ := (hs.node _).times t q hasks now hnow
    cases q with
    | acquire now' =>
      cases hnow
      have hcur : B.current w.store m = none := Option.isNone_iff_eq_none.mp hoff
      rw [B.current_eq, ← settled_current (Int.natCast_nonneg m)] at hcur
      exact hcur
    | renew epoch now' => cases hoff
    | release epoch => cases hoff

/-- Soundness and the agreement of the grants hold in every run of nodes the backend is made for. -/
theorem reached_sound {allowed : World σ → Event → Prop}
    (hallowed : ∀ w e, allowed w e → B.Holder e.node)
    (h : w.Reached B.toLeaseProvider c allowed) :
    w.Sound B c ∧ Told (B.shown w.store) w.grants w.handOffs := by
  obtain ⟨clocks, hrun⟩ := h
  induction hrun with
  | refl =>
    constructor
    · exact sound_start clocks
    · change Told (B.shown B.fresh) [] []
      exact Told.nil _
  | tail _ hnext ih =>
    obtain ⟨e, hev, hstep⟩ := hnext
    have hn := hallowed _ e hev
    have hstepped := stepped ih.1.fresh hstep
    exact ⟨ih.1.stepped hn hstepped, told_stepped ih.2 ih.1 hn hstepped⟩

end World

end BlueDB.Ha
