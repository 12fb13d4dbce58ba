import BlueDB.Ha.Backends

/-!
# Sequences of lease calls

The three backends serve the same sequence of calls from a fresh store. Each call
is answered as the register they show answers it, so their replies are the same.
-/

namespace BlueDB.Ha

open LeaseRegister

inductive Call
  | tryAcquire (holder : String) (ttl : Duration) (now : ℤ)
  | renew (holder : String) (epoch : ℕ) (ttl : Duration) (now : ℤ)
  | release (holder : String) (epoch : ℕ)
  | current (now : ℤ)

inductive Reply
  | lease (lease : Option Lease)
  | done
deriving DecidableEq, Repr

section Serve

variable {σ : Type}

def LeaseProvider.serve (P : LeaseProvider σ) (s : σ) : Call → Option (Reply × σ)
  | .tryAcquire holder ttl now => (P.tryAcquire s holder ttl now).map fun x => (.lease x.1, x.2)
  | .renew holder epoch ttl now => (P.renew s holder epoch ttl now).map fun x => (.lease x.1, x.2)
  | .release holder epoch => (P.release s holder epoch).map fun x => (.done, x.2)
  | .current now => some (.lease (P.current s now), s)

def LeaseProvider.run (P : LeaseProvider σ) (s : σ) : List Call → Option (List Reply × σ)
  | [] => some ([], s)
  | c :: calls => do
    let (reply, s) ← P.serve s c
    let (replies, s) ← P.run s calls
    some (reply :: replies, s)

end Serve

/-- A positive number of seconds that an `i32` holds. -/
def Duration.WholeSeconds (ttl : Duration) : Prop :=
  ttl.nanos = 0 ∧ 1 ≤ ttl.secs ∧ (ttl.secs : ℤ) ≤ i32Max

namespace Call

/-- Holders are named, times are not negative, time to live is whole seconds. -/
def Admitted : Call → Prop
  | .tryAcquire holder ttl now => holder ≠ "" ∧ ttl.WholeSeconds ∧ 0 ≤ now ∧ now ≤ i64Max
  | .renew holder epoch ttl now =>
    holder ≠ "" ∧ epoch ≤ u64Max ∧ ttl.WholeSeconds ∧ 0 ≤ now ∧ now ≤ i64Max
  | .release holder epoch => holder ≠ "" ∧ epoch ≤ u64Max
  | .current now => 0 ≤ now ∧ now ≤ i64Max

/-- A time written into the store is a date. -/
def Dated : Call → Prop
  | .tryAcquire _ _ now => now ≤ K8s.maxTimestamp
  | .renew _ _ _ now => now ≤ K8s.maxTimestamp
  | .release _ _ => True
  | .current _ => True

end Call

def answer (r : LeaseRegister String) : Call → Reply × LeaseRegister String
  | .tryAcquire holder ttl now =>
    let x := r.acquire holder (now + ttl.secs * 1000) now
    (.lease x.1, x.2.settled)
  | .renew holder epoch ttl now =>
    let x := r.renew holder epoch (now + ttl.secs * 1000) now
    (.lease x.1, x.2.settled)
  | .release holder epoch => (.done, (r.release holder epoch).settled)
  | .current now => (.lease (r.current now), r)

def answers (r : LeaseRegister String) : List Call → List Reply × LeaseRegister String
  | [] => ([], r)
  | c :: calls =>
    let x := answer r c
    let y := answers x.2 calls
    (x.1 :: y.1, y.2)

theorem answer_last (r : LeaseRegister String) (c : Call) :
    (answer r c).2.last ≤ r.last + 1 ∨ ∃ g ∈ r.lease, r.last < g.epoch := by
  cases c with
  | tryAcquire holder ttl now =>
    simp only [answer, settled_last]
    rcases acquire_cases r holder (now + ttl.secs * 1000) now with
      ⟨_, _, _, _, heq⟩ | ⟨g, hg, _, _, heq⟩ | ⟨_, heq⟩
    · rw [heq]
      exact .inl (Nat.le_succ _)
    · rw [heq]
      by_cases h : r.last < g.epoch
      · exact .inr ⟨g, hg, h⟩
      · apply Or.inl
        simp only
        omega
    · rw [heq]
      exact .inl le_rfl
  | renew holder epoch ttl now =>
    simp only [answer, settled_last]
    rcases renew_cases r holder epoch (now + ttl.secs * 1000) now with ⟨_, heq⟩ | ⟨_, heq⟩ <;>
    · rw [heq]
      exact .inl (Nat.le_succ _)
  | release holder epoch => exact .inl (by simp [answer])
  | current now => exact .inl (Nat.le_succ _)

theorem settled_numbered {r : LeaseRegister String} (h : r.Numbered) : r.settled.Numbered := by
  intro g hg
  exact h g (mem_settled.mp hg).1

theorem answer_numbered {r : LeaseRegister String} (h : r.Numbered) (c : Call) :
    (answer r c).2.Numbered := by
  cases c with
  | tryAcquire holder ttl now => exact settled_numbered h.acquire
  | renew holder epoch ttl now => exact settled_numbered h.renew
  | release holder epoch => exact settled_numbered h.release
  | current now => exact h

/-- A lease that was just answered is what the register shows until it ends. -/
theorem answer_current {r : LeaseRegister String} {c : Call} {lease : Lease}
    (h : (answer r c).1 = .lease (some lease)) (hc : c.Admitted) (now : ℤ) (hnow : 0 ≤ now) :
    (answer r c).2.current now = if now < lease.expires then some lease else none := by
  cases c with
  | tryAcquire holder ttl at_ =>
    simp only [answer, Reply.lease.injEq] at h ⊢
    rw [settled_current hnow, current_acquire h]
  | renew holder epoch ttl at_ =>
    simp only [answer, Reply.lease.injEq] at h ⊢
    rw [settled_current hnow, current_renew h]
  | release holder epoch => cases h
  | current at_ =>
    simp only [answer, Reply.lease.injEq] at h ⊢
    obtain ⟨hlease, _⟩ := mem_current.mp (Option.mem_def.mpr h)
    have hr : r = ⟨some lease, r.last⟩ := by
      cases r
      cases hlease
      rfl
    rw [hr]
    exact current_mk lease _ now

/-- Until the epochs run out, a backend fails on no call with a time that is a date. -/
structure Backend.Total {σ : Type} (B : Backend σ) : Prop where
  millis : ∀ {ttl : Duration}, ttl.WholeSeconds → B.millis ttl = ttl.secs * 1000
  holder : ∀ {who : String}, who ≠ "" → B.Holder who
  acquire : ∀ {s who ttl now}, B.Ok s → ((B.raw s).last : ℤ) < i64Max →
    0 ≤ now → now ≤ K8s.maxTimestamp → ttl.WholeSeconds → (B.tryAcquire s who ttl now).isSome
  renew : ∀ {s who epoch ttl now}, 0 ≤ now → now ≤ K8s.maxTimestamp → ttl.WholeSeconds →
    (B.renew s who epoch ttl now).isSome
  release : ∀ {s who epoch}, (B.release s who epoch).isSome

namespace Backend.Total

variable {σ : Type} {B : Backend σ} (hB : B.Total)

include hB

theorem serve {s : σ} {r : LeaseRegister String} (hok : B.Ok s) (hr : (B.raw s).settled = r)
    (hlast : (r.last : ℤ) < i64Max) {c : Call} (hadm : c.Admitted) (hdated : c.Dated) :
    ∃ s', B.serve s c = some ((answer r c).1, s') ∧ B.Ok s' ∧
      (B.raw s').settled = (answer r c).2 := by
  subst hr
  cases c with
  | tryAcquire holder ttl now =>
    obtain ⟨hholder, httl, hnow, _⟩ := hadm
    obtain ⟨x, hx⟩ := Option.isSome_iff_exists.mp
      (@Backend.Total.acquire _ _ hB _ holder _ _ hok hlast hnow hdated httl)
    obtain ⟨hok', ⟨hreply, hraw⟩ | ⟨_, hout⟩⟩ := B.acquire_law hok (hB.holder hholder) hx
    · rw [hB.millis httl] at hreply hraw
      obtain ⟨hsame, hsettled⟩ := @LeaseRegister.settled_acquire _ _ (B.raw s) holder
        (now + ttl.secs * 1000) _ hnow
      refine ⟨x.2, ?_, hok', ?_⟩
      · simp [LeaseProvider.serve, hx, answer, hsame, hreply]
      · simp only [answer]
        rw [hsettled, hraw]
    · simp only [settled_last, i64Max, u64Max] at hlast hout
      omega
  | renew holder epoch ttl now =>
    obtain ⟨hholder, hepoch, httl, hnow, _⟩ := hadm
    obtain ⟨x, hx⟩ := Option.isSome_iff_exists.mp
      (@Backend.Total.renew _ _ hB s holder epoch _ _ hnow hdated httl)
    obtain ⟨hok', hreply, hraw⟩ := B.renew_law hok (hB.holder hholder) hepoch hx
    rw [hB.millis httl] at hreply hraw
    obtain ⟨hsame, hsettled⟩ := @LeaseRegister.settled_renew _ _ (B.raw s) holder epoch
      (now + ttl.secs * 1000) _ hnow
    refine ⟨x.2, ?_, hok', ?_⟩
    · simp [LeaseProvider.serve, hx, answer, hsame, hreply]
    · simp only [answer]
      rw [hsettled, hraw]
  | release holder epoch =>
    obtain ⟨x, hx⟩ := Option.isSome_iff_exists.mp
      (@Backend.Total.release _ _ hB s holder epoch)
    obtain ⟨hok', hraw, _⟩ := B.release_law hok hadm.2 hx
    refine ⟨x.2, ?_, hok', ?_⟩
    · simp [LeaseProvider.serve, hx, answer]
    · simp only [answer]
      rw [hraw, settled_release]
  | current now =>
    refine ⟨s, ?_, hok, rfl⟩
    simp only [LeaseProvider.serve, answer]
    rw [B.current_eq, settled_current hadm.1]

theorem run {calls : List Call} : ∀ {s : σ} {r : LeaseRegister String}, B.Ok s →
    (B.raw s).settled = r → r.Numbered → (r.last : ℤ) + calls.length ≤ i64Max →
    (∀ c ∈ calls, c.Admitted) → (∀ c ∈ calls, c.Dated) →
    ∃ s', B.run s calls = some ((answers r calls).1, s') ∧ B.Ok s' ∧
      (B.raw s').settled = (answers r calls).2 := by
  induction calls with
  | nil =>
    intro s r hok hr _ _ _ _
    exact ⟨s, rfl, hok, hr⟩
  | cons c calls ih =>
    intro s r hok hr hnum hlast hadm hdated
    rw [List.length_cons] at hlast
    push_cast at hlast
    obtain ⟨s₁, hserve, hok₁, hr₁⟩ := hB.serve hok hr (by omega)
      (hadm c List.mem_cons_self) (hdated c List.mem_cons_self)
    have hlast₁ : (answer r c).2.last ≤ r.last + 1 := by
      rcases answer_last r c with h | ⟨g, hg, h⟩
      · exact h
      · exact absurd (hnum g hg).le (not_le.mpr h)
    obtain ⟨s₂, hrun, hok₂, hr₂⟩ := ih hok₁ hr₁ (answer_numbered hnum c) (by omega)
      (fun d hd => hadm d (List.mem_cons_of_mem _ hd))
      (fun d hd => hdated d (List.mem_cons_of_mem _ hd))
    refine ⟨s₂, ?_, hok₂, hr₂⟩
    simp [LeaseProvider.run, answers, hserve, hrun]

end Backend.Total

theorem asMillis_of_wholeSeconds {ttl : Duration} (h : ttl.WholeSeconds) :
    ttl.asMillis = ttl.secs * 1000 := by
  unfold Duration.asMillis
  rw [h.1, Nat.zero_div, add_zero]

theorem asI64_of_wholeSeconds {ttl : Duration} (h : ttl.WholeSeconds) :
    asI64 ttl.asMillis = ttl.secs * 1000 := by
  rw [asMillis_of_wholeSeconds h]
  have hsecs := h.2.2
  unfold i32Max at hsecs
  unfold asI64
  rw [Nat.mod_eq_of_lt (by omega), if_pos (by omega)]
  push_cast
  rfl

theorem addI64_of_dated {now : ℤ} {ttl : Duration} (hnow : 0 ≤ now)
    (hdated : now ≤ K8s.maxTimestamp)
    (h : ttl.WholeSeconds) : addI64 now (ttl.secs * 1000) = some (now + ttl.secs * 1000) := by
  have hsecs := h.2.2
  unfold i32Max at hsecs
  unfold K8s.maxTimestamp at hdated
  apply addI64_eq_some.mpr
  unfold i64Min i64Max
  omega

namespace Local

theorem nextEpoch_isSome {inner : Inner} {who : String} {now : ℤ}
    (h : (inner.lastEpoch : ℤ) < i64Max) : ∃ epoch, nextEpoch inner who now = some epoch := by
  have hadd : checkedAdd u64Max inner.lastEpoch 1 = some (inner.lastEpoch + 1) := by
    apply checkedAdd_eq_some.mpr
    unfold i64Max at h
    unfold u64Max
    omega
  unfold nextEpoch
  rw [hadd]
  cases inner.lease with
  | none => exact ⟨_, rfl⟩
  | some g => exact ⟨_, (apply_ite some _ _ _).symm⟩

theorem total : backend.Total where
  millis := asI64_of_wholeSeconds
  holder := fun _ => trivial
  acquire := by
    intro s who ttl now _ hlast hnow hdated httl
    change (tryAcquire s who ttl now).isSome = true
    obtain ⟨epoch, hepoch⟩ := @Local.nextEpoch_isSome _ who now hlast
    unfold tryAcquire ttlMillis
    rw [asI64_of_wholeSeconds httl, addI64_of_dated hnow hdated httl, hepoch]
    split_ifs <;> rfl
  renew := by
    intro s who epoch ttl now hnow hdated httl
    change (renew s who epoch ttl now).isSome = true
    unfold renew ttlMillis
    rw [asI64_of_wholeSeconds httl, addI64_of_dated hnow hdated httl]
    cases s.lease with
    | none => rfl
    | some g =>
      simp only
      split_ifs <;> rfl
  release := by
    intro s who epoch
    change (release s who epoch).isSome = true
    unfold release
    cases s.lease with
    | none => rfl
    | some g =>
      simp only
      split_ifs <;> rfl

end Local

namespace Postgres

theorem nextEpoch_isSome {row : LeaseRow} {who : String} {now : ℤ}
    (hrange : 1 ≤ row.epoch ∧ row.epoch ≤ i64Max) (h : (asU64 row.epoch : ℤ) < i64Max) :
    ∃ epoch, nextEpoch row who now = some epoch := by
  rw [asU64_of_range hrange] at h
  have hadd : addI64 row.epoch 1 = some (row.epoch + 1) := by
    apply addI64_eq_some.mpr
    unfold i64Min
    omega
  unfold nextEpoch
  rw [hadd]
  exact ⟨_, (apply_ite some _ _ _).symm⟩

theorem total : backend.Total where
  millis := asI64_of_wholeSeconds
  holder := fun _ => trivial
  acquire := by
    intro s who ttl now hok hlast hnow hdated httl
    change (tryAcquire s who ttl now).isSome = true
    unfold tryAcquire ttlMillis
    rw [asI64_of_wholeSeconds httl, addI64_of_dated hnow hdated httl]
    cases s with
    | none => rfl
    | some row =>
      obtain ⟨epoch, hepoch⟩ := @Postgres.nextEpoch_isSome _ who now (hok row rfl) hlast
      simp only [Option.bind_eq_bind, Option.bind_some, hepoch]
      split_ifs <;> rfl
  renew := by
    intro s who epoch ttl now hnow hdated httl
    change (renew s who epoch ttl now).isSome = true
    unfold renew ttlMillis
    rw [asI64_of_wholeSeconds httl, addI64_of_dated hnow hdated httl]
    cases s with
    | none => rfl
    | some row =>
      simp only [Option.bind_eq_bind, Option.bind_some]
      split_ifs <;> rfl
  release := by
    intro s who epoch
    change (release s who epoch).isSome = true
    unfold release
    cases s with
    | none => rfl
    | some row =>
      simp only
      split_ifs <;> rfl

end Postgres

namespace K8s

theorem microTime_of_dated {now : ℤ} (hnow : 0 ≤ now) (hdated : now ≤ maxTimestamp) :
    microTime now = some now := by
  apply microTime_eq_some.mpr
  unfold minTimestamp
  omega

theorem ttlMillis_of_wholeSeconds {ttl : Duration} (h : ttl.WholeSeconds) :
    ttlMillis ttl = ttl.secs * 1000 := by
  obtain ⟨hnanos, hone, hsecs⟩ := h
  unfold ttlMillis ttlSeconds Duration.asMillis
  unfold i32Max at *
  rw [hnanos]
  omega

theorem granted_isSome {lease : K8sLease} {acquired : Option ℤ} {who : String} {epoch : ℕ}
    {ttl : Duration} {now : ℤ} (hnow : 0 ≤ now) (hdated : now ≤ maxTimestamp)
    (httl : ttl.WholeSeconds) : (granted lease acquired who epoch ttl now).isSome := by
  unfold granted
  rw [microTime_of_dated hnow hdated, ttlMillis_of_wholeSeconds httl,
    addI64_of_dated hnow hdated httl]
  rfl

theorem total : backend.Total where
  millis := ttlMillis_of_wholeSeconds
  holder := fun h => h
  acquire := by
    intro s who ttl now _ _ hnow hdated httl
    change (tryAcquire s who ttl now).isSome = true
    unfold tryAcquire
    cases s with
    | none =>
      unfold newLeaseObject
      rw [microTime_of_dated hnow hdated]
      rfl
    | some lease =>
      have hgranted := fun acquired epoch =>
        @K8s.granted_isSome lease acquired who epoch _ _ hnow hdated httl
      simp only [Option.isSome_map]
      unfold applyAcquire
      simp only
      split_ifs
      · rfl
      · exact hgranted _ _
      · exact hgranted _ _
      · cases checkedAdd u64Max (objectEpoch lease) 1 with
        | none => rfl
        | some epoch => exact hgranted _ _
  renew := by
    intro s who epoch ttl now hnow hdated httl
    change (renew s who epoch ttl now).isSome = true
    unfold renew
    cases s with
    | none => rfl
    | some lease =>
      simp only [Option.isSome_map]
      unfold applyRenew
      cases lease.spec with
      | none => rfl
      | some spec =>
        simp only
        cases spec.holderIdentity with
        | none => rfl
        | some holder =>
          simp only
          split_ifs
          · rfl
          · exact granted_isSome hnow hdated httl
  release := by
    intro s who epoch
    change (release s who epoch).isSome = true
    unfold release
    cases s with
    | none => rfl
    | some lease =>
      simp only [Option.isSome_map]
      unfold applyRelease
      cases lease.spec with
      | none => rfl
      | some spec =>
        simp only
        split_ifs <;> rfl

end K8s

/-- The last reply, when it is a lease, is what the register shows until the lease ends. -/
theorem answers_current {now : ℤ} (hnow : 0 ≤ now) {calls : List Call} {lease : Lease} :
    ∀ {r : LeaseRegister String}, (∀ c ∈ calls, c.Admitted) →
    (answers r calls).1.getLast? = some (.lease (some lease)) →
    (answers r calls).2.current now = if now < lease.expires then some lease else none := by
  induction calls with
  | nil =>
    intro r _ h
    cases h
  | cons c calls ih =>
    intro r hadm h
    cases calls with
    | nil =>
      have hlast : (answer r c).1 = .lease (some lease) := Option.some.inj h
      exact answer_current hlast (hadm c List.mem_cons_self) now hnow
    | cons d calls =>
      apply ih fun e he => hadm e (List.mem_cons_of_mem _ he)
      simpa only [answers, List.getLast?_cons_cons] using h

/-- From fresh stores, the backends reply alike to all calls whose times are dates, until the
epochs run out of a signed number, and a lease that was replied is the one read back. -/
theorem backends_interchangeable (calls : List Call) (hadm : ∀ c ∈ calls, c.Admitted)
    (hdated : ∀ c ∈ calls, c.Dated) (hlen : (calls.length : ℤ) ≤ i64Max) :
    ∃ replies inner table object,
      Local.provider.run Local.provider.fresh calls = some (replies, inner) ∧
      Postgres.provider.run Postgres.provider.fresh calls = some (replies, table) ∧
      K8s.provider.run K8s.provider.fresh calls = some (replies, object) ∧
      ∀ lease, replies.getLast? = some (.lease (some lease)) → ∀ now, 0 ≤ now →
        Local.provider.current inner now = (if now < lease.expires then some lease else none) ∧
        Postgres.provider.current table now = (if now < lease.expires then some lease else none) ∧
        K8s.provider.current object now = (if now < lease.expires then some lease else none) := by
  have hlast : ((LeaseRegister.fresh : LeaseRegister String).last : ℤ) + calls.length ≤ i64Max := by
    change (0 : ℤ) + calls.length ≤ i64Max
    omega
  obtain ⟨inner, hinner, _, hinner'⟩ :=
    Local.total.run Local.backend.ok_fresh rfl numbered_fresh hlast hadm hdated
  obtain ⟨table, htable, _, htable'⟩ :=
    Postgres.total.run Postgres.backend.ok_fresh rfl numbered_fresh hlast hadm hdated
  obtain ⟨object, hobject, _, hobject'⟩ :=
    K8s.total.run K8s.backend.ok_fresh rfl numbered_fresh hlast hadm hdated
  refine ⟨_, inner, table, object, hinner, htable, hobject, ?_⟩
  intro lease hreply now hnow
  have hread := answers_current hnow hadm hreply
  refine ⟨?_, ?_, ?_⟩
  · exact Local.backend.current_eq.trans ((settled_current hnow).symm.trans (hinner' ▸ hread))
  · exact Postgres.backend.current_eq.trans ((settled_current hnow).symm.trans (htable' ▸ hread))
  · exact K8s.backend.current_eq.trans ((settled_current hnow).symm.trans (hobject' ▸ hread))

def handOver : List Call :=
  [.tryAcquire "a" (.ofSecs 10) 0, .tryAcquire "b" (.ofSecs 10) 5000, .release "a" 1,
    .renew "a" 1 (.ofSecs 10) 6000, .tryAcquire "b" (.ofSecs 10) 6000]

theorem backends_interchangeable_handOver :
    ∃ replies inner table object,
      Local.provider.run Local.provider.fresh handOver = some (replies, inner) ∧
      Postgres.provider.run Postgres.provider.fresh handOver = some (replies, table) ∧
      K8s.provider.run K8s.provider.fresh handOver = some (replies, object) ∧
      ∀ lease, replies.getLast? = some (.lease (some lease)) → ∀ now, 0 ≤ now →
        Local.provider.current inner now = (if now < lease.expires then some lease else none) ∧
        Postgres.provider.current table now = (if now < lease.expires then some lease else none) ∧
        K8s.provider.current object now = (if now < lease.expires then some lease else none) := by
  apply backends_interchangeable
  · simp [handOver, Call.Admitted, Duration.WholeSeconds, Duration.ofSecs, i32Max, i64Max, u64Max]
  · simp [handOver, Call.Dated, K8s.maxTimestamp]
  · simp [handOver, i64Max]

section Exhaustion

variable {σ : Type}

theorem LeaseProvider.run_append (P : LeaseProvider σ) {xs ys : List Call} {s s' : σ}
    {replies : List Reply} (h : P.run s xs = some (replies, s')) :
    P.run s (xs ++ ys) = (P.run s' ys).map fun r => (replies ++ r.1, r.2) := by
  induction xs generalizing s replies with
  | nil =>
    cases h
    simp
  | cons c xs ih =>
    obtain ⟨⟨reply, s₁⟩, hserve, h⟩ := Option.bind_eq_some_iff.mp h
    obtain ⟨⟨replies, s₂⟩, hrun, h⟩ := Option.bind_eq_some_iff.mp h
    cases h
    cases hys : P.run s' ys <;> simp [LeaseProvider.run, hserve, ih hrun, hys]

/-- One holder acquires and releases over and over. -/
def handOffs : ℕ → List Call
  | 0 => []
  | n + 1 => handOffs n ++ [.tryAcquire "a" (.ofSecs 1) 0, .release "a" (n + 1)]

theorem handOffs_admitted {n : ℕ} (hn : n ≤ u64Max) : ∀ c ∈ handOffs n, c.Admitted := by
  induction n with
  | zero =>
    intro c hc
    cases hc
  | succ n ih =>
    intro c hc
    rcases List.mem_append.mp hc with hc | hc
    · exact ih (by omega) c hc
    · have hsecs : (Duration.ofSecs 1).WholeSeconds := ⟨rfl, le_rfl, by decide⟩
      rcases List.mem_pair.mp hc with rfl | rfl
      · exact ⟨by decide, hsecs, le_rfl, by decide⟩
      · exact ⟨by decide, hn⟩

theorem asMillis_ofSecs_one : asI64 (Duration.ofSecs 1).asMillis = 1000 := by decide

theorem Local.run_handOffs {n : ℕ} (hn : (n : ℤ) ≤ i64Max) :
    ∃ replies, Local.provider.run Local.provider.fresh (handOffs n) =
      some (replies, ⟨none, n⟩) := by
  induction n with
  | zero => exact ⟨[], rfl⟩
  | succ n ih =>
    push_cast at hn
    obtain ⟨replies, hrun⟩ := ih (by omega)
    have hadd : checkedAdd u64Max n 1 = some (n + 1) := by
      apply checkedAdd_eq_some.mpr
      unfold i64Max at hn
      unfold u64Max
      omega
    have hexp : addI64 0 1000 = some 1000 := by decide
    have hstep : Local.provider.run ⟨none, n⟩
        [.tryAcquire "a" (.ofSecs 1) 0, .release "a" (n + 1)] =
        some ([.lease (some ⟨"a", n + 1, 1000⟩), .done], ⟨none, n + 1⟩) := by
      simp [LeaseProvider.run, LeaseProvider.serve, Local.provider, Local.tryAcquire,
        Local.heldByAnother, Local.nextEpoch, Local.ttlMillis, Local.release, hadd, hexp,
        asMillis_ofSecs_one]
    exact ⟨_, (LeaseProvider.run_append _ hrun).trans (congrArg _ hstep)⟩

theorem Postgres.run_handOffs {n : ℕ} (hn : (n : ℤ) + 1 ≤ i64Max) :
    ∃ replies, Postgres.provider.run Postgres.provider.fresh (handOffs (n + 1)) =
      some (replies, some ⟨"a", n + 1, 0⟩) := by
  induction n with
  | zero => exact ⟨[.lease (some ⟨"a", 1, 1000⟩), .done], by decide +kernel⟩
  | succ n ih =>
    push_cast at hn
    obtain ⟨replies, hrun⟩ := ih (by omega)
    have hadd : addI64 ((n : ℤ) + 1) 1 = some ((n : ℤ) + 1 + 1) := by
      apply addI64_eq_some.mpr
      unfold i64Min
      omega
    have hexp : addI64 0 1000 = some 1000 := by decide
    have hcast : asI64 (n + 1 + 1) = (n : ℤ) + 1 + 1 := by
      unfold i64Max at hn
      unfold asI64
      rw [Nat.mod_eq_of_lt (by omega), if_pos (by omega)]
      push_cast
      rfl
    have hstep : ∃ reply, Postgres.provider.run (some ⟨"a", n + 1, 0⟩)
        [.tryAcquire "a" (.ofSecs 1) 0, .release "a" (n + 1 + 1)] =
        some ([reply, .done], some ⟨"a", n + 1 + 1, 0⟩) := by
      simp [LeaseProvider.run, LeaseProvider.serve, Postgres.provider, Postgres.tryAcquire,
        Postgres.nextEpoch, Postgres.ttlMillis, Postgres.release, hadd, hexp, hcast,
        asMillis_ofSecs_one]
    obtain ⟨reply, hstep⟩ := hstep
    rw [Nat.cast_succ]
    exact ⟨_, (LeaseProvider.run_append _ hrun).trans (congrArg _ hstep)⟩

end Exhaustion

/-- A time past the last date is granted in memory and has no Kubernetes object; and when the
epochs have reached the largest `BIGINT`, memory grants one more where the table cannot. -/
theorem backends_not_interchangeable :
    ((Call.tryAcquire "a" (.ofSecs 1) (K8s.maxTimestamp + 1)).Admitted ∧
      (Local.provider.run Local.provider.fresh
        [.tryAcquire "a" (.ofSecs 1) (K8s.maxTimestamp + 1)]).isSome ∧
      K8s.provider.run K8s.provider.fresh
        [.tryAcquire "a" (.ofSecs 1) (K8s.maxTimestamp + 1)] = none) ∧
    ((∀ c ∈ handOffs (2 ^ 63 - 1) ++ [.tryAcquire "a" (.ofSecs 1) 0], c.Admitted) ∧
      (Local.provider.run Local.provider.fresh
        (handOffs (2 ^ 63 - 1) ++ [.tryAcquire "a" (.ofSecs 1) 0])).isSome ∧
      Postgres.provider.run Postgres.provider.fresh
        (handOffs (2 ^ 63 - 1) ++ [.tryAcquire "a" (.ofSecs 1) 0]) = none) := by
  have hsecs : (Duration.ofSecs 1).WholeSeconds := ⟨rfl, le_rfl, by decide⟩
  refine ⟨⟨⟨by decide, hsecs, by decide, by decide⟩, by decide +kernel, by decide +kernel⟩, ?_, ?_,
      ?_⟩
  · intro c hc
    rcases List.mem_append.mp hc with hc | hc
    · exact handOffs_admitted (by decide) c hc
    · cases List.mem_singleton.mp hc
      exact ⟨by decide, hsecs, le_rfl, by decide⟩
  · obtain ⟨replies, hrun⟩ := Local.run_handOffs (n := 2 ^ 63 - 1) (by decide)
    have hmore : Local.provider.run ⟨none, 2 ^ 63 - 1⟩ [.tryAcquire "a" (.ofSecs 1) 0] =
        some ([.lease (some ⟨"a", 2 ^ 63, 1000⟩)], ⟨some ⟨"a", 2 ^ 63, 1000⟩, 2 ^ 63⟩) := by
      decide +kernel
    rw [LeaseProvider.run_append _ hrun, hmore]
    rfl
  · obtain ⟨replies, hrun⟩ := Postgres.run_handOffs (n := 2 ^ 63 - 2) (by decide)
    refine (LeaseProvider.run_append _ hrun).trans (Option.map_eq_none_iff.mpr ?_)
    decide +kernel

end BlueDB.Ha
