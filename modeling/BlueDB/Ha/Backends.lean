import Mathlib
import BlueDB.Ha.Lease

/-!
# The backends as one register

Each backend shows a register of one lease. On the holders and the times it is
made for, an operation of the backend answers what the register answers and leaves
the register's outcome behind, up to a grant that ended before time began.
-/

namespace BlueDB.Ha

open LeaseRegister

/-- A backend with the register it shows. -/
structure Backend (σ : Type) extends LeaseProvider σ where
  /-- The holder ids the backend tells apart from no holder. -/
  Holder : String → Prop
  Ok : σ → Prop
  raw : σ → LeaseRegister String
  /-- The length of a grant. -/
  millis : Duration → ℤ
  ok_fresh : Ok fresh
  ok_last : ∀ {s}, Ok s → (raw s).Numbered ∧ (raw s).last ≤ u64Max
  raw_fresh : raw fresh = LeaseRegister.fresh
  current_eq : ∀ {s now}, current s now = (raw s).current now
  acquire_law : ∀ {s who ttl now x}, Ok s → Holder who → tryAcquire s who ttl now = some x →
    Ok x.2 ∧ (x.1 = ((raw s).acquire who (now + millis ttl) now).1 ∧
        raw x.2 = ((raw s).acquire who (now + millis ttl) now).2 ∨
      x = (none, s) ∧ u64Max ≤ (raw s).last)
  renew_law : ∀ {s who epoch ttl now x}, Ok s → Holder who → epoch ≤ u64Max →
    renew s who epoch ttl now = some x →
    Ok x.2 ∧ x.1 = ((raw s).renew who epoch (now + millis ttl) now).1 ∧
      raw x.2 = ((raw s).renew who epoch (now + millis ttl) now).2
  release_law : ∀ {s who epoch x}, Ok s → epoch ≤ u64Max → release s who epoch = some x →
    Ok x.2 ∧ (raw x.2).settled = ((raw s).release who epoch).settled ∧
      (x.1 = true ↔ ∃ g ∈ (raw s).lease, g.holder = who ∧ g.epoch = epoch)

theorem addI64_eq_some {a b c : ℤ} :
    addI64 a b = some c ↔ (i64Min ≤ a + b ∧ a + b ≤ i64Max) ∧ c = a + b := by
  unfold addI64
  split_ifs with h
  · rw [and_iff_right h, Option.some.injEq, eq_comm]
  · simp only [false_iff]
    exact fun hc => h hc.1

namespace Local

def raw (inner : Inner) : LeaseRegister String := ⟨inner.lease, inner.lastEpoch⟩

/-- The counter fits its type and has reached the epoch of the lease. -/
def Ok (inner : Inner) : Prop := (raw inner).Numbered ∧ inner.lastEpoch ≤ u64Max

theorem nextEpoch_free {inner : Inner} {who : String} {now : ℤ}
    (h : ∀ g ∈ inner.lease, ¬ now < g.expires) :
    nextEpoch inner who now = checkedAdd u64Max inner.lastEpoch 1 := by
  unfold nextEpoch
  cases hl : inner.lease with
  | none => rfl
  | some g => exact if_neg fun hg => h g hl hg.2

theorem tryAcquire_law {inner : Inner} {who : String} {ttl : Duration} {now : ℤ}
    {x : Option Lease × Inner} (h : tryAcquire inner who ttl now = some x) :
    x.1 = ((raw inner).acquire who (now + ttlMillis ttl) now).1 ∧
      raw x.2 = ((raw inner).acquire who (now + ttlMillis ttl) now).2 := by
  unfold tryAcquire at h
  rcases acquire_cases (raw inner) who (now + ttlMillis ttl) now with
    ⟨g, hg, hlive, hwho, heq⟩ | ⟨g, hg, hlive, hwho, heq⟩ | ⟨hfree, heq⟩
  · have hheld : heldByAnother inner who now := ⟨g, hg, hwho, hlive⟩
    rw [if_pos hheld] at h
    cases h
    rw [heq]
    exact ⟨rfl, rfl⟩
  · have hheld : ¬ heldByAnother inner who now := by
      rintro ⟨k, hk, hne, _⟩
      cases Option.mem_unique hg hk
      exact hne hwho
    have hnext : nextEpoch inner who now = some g.epoch := by
      unfold nextEpoch
      rw [show inner.lease = some g from hg]
      exact if_pos ⟨hwho, hlive⟩
    rw [if_neg hheld, hnext] at h
    obtain ⟨_, ⟨⟩, h⟩ := Option.bind_eq_some_iff.mp h
    obtain ⟨expires, hadd, h⟩ := Option.bind_eq_some_iff.mp h
    cases (addI64_eq_some.mp hadd).2
    cases h
    rw [heq]
    exact ⟨rfl, rfl⟩
  · have hheld : ¬ heldByAnother inner who now := by
      rintro ⟨k, hk, _, hlive⟩
      exact hfree k hk hlive
    rw [if_neg hheld, nextEpoch_free hfree] at h
    obtain ⟨epoch, hepoch, h⟩ := Option.bind_eq_some_iff.mp h
    obtain ⟨expires, hadd, h⟩ := Option.bind_eq_some_iff.mp h
    cases (checkedAdd_eq_some.mp hepoch).2
    cases (addI64_eq_some.mp hadd).2
    cases h
    rw [heq]
    exact ⟨rfl, by simp [raw]⟩

theorem renew_law {inner : Inner} {who : String} {epoch : ℕ} {ttl : Duration} {now : ℤ}
    {x : Option Lease × Inner} (h : renew inner who epoch ttl now = some x) :
    x.1 = ((raw inner).renew who epoch (now + ttlMillis ttl) now).1 ∧
      raw x.2 = ((raw inner).renew who epoch (now + ttlMillis ttl) now).2 := by
  unfold renew at h
  cases hl : inner.lease with
  | none =>
    rw [hl] at h
    cases h
    have hnot : ¬ (raw inner).holds who epoch now := by
      rintro ⟨g, hg, _⟩
      exact Option.not_mem_none g (hl ▸ hg)
    unfold LeaseRegister.renew
    rw [if_neg hnot]
    exact ⟨rfl, rfl⟩
  | some g =>
    simp only [hl] at h
    have hiff : (raw inner).holds who epoch now ↔
        g.holder = who ∧ g.epoch = epoch ∧ now < g.expires := by
      constructor
      · rintro ⟨k, hk, hmatch⟩
        cases Option.mem_unique hl hk
        exact hmatch
      · exact fun hmatch => ⟨g, hl, hmatch⟩
    unfold LeaseRegister.renew
    split_ifs at h with hmatch
    · obtain ⟨expires, hadd, h⟩ := Option.bind_eq_some_iff.mp h
      cases (addI64_eq_some.mp hadd).2
      cases h
      rw [if_pos (hiff.mpr hmatch)]
      exact ⟨rfl, rfl⟩
    · cases h
      rw [if_neg fun hh => hmatch (hiff.mp hh)]
      exact ⟨rfl, rfl⟩

theorem release_law {inner : Inner} {who : String} {epoch : ℕ} {x : Bool × Inner}
    (h : release inner who epoch = some x) :
    raw x.2 = (raw inner).release who epoch ∧
      (x.1 = true ↔ ∃ g ∈ (raw inner).lease, g.holder = who ∧ g.epoch = epoch) := by
  unfold release at h
  unfold LeaseRegister.release
  cases hl : inner.lease with
  | none =>
    rw [hl] at h
    cases h
    have hnot : ¬ ∃ g ∈ (raw inner).lease, g.holder = who ∧ g.epoch = epoch := by
      rintro ⟨g, hg, _⟩
      exact Option.not_mem_none g (hl ▸ hg)
    rw [if_neg hnot]
    exact ⟨rfl, iff_of_false Bool.false_ne_true hnot⟩
  | some g =>
    simp only [hl] at h
    split_ifs at h with hmatch
    · cases h
      constructor
      · rw [if_pos ⟨g, hl, hmatch⟩]
        rfl
      · exact iff_of_true rfl ⟨g, hl, hmatch⟩
    · cases h
      have hnot : ¬ ∃ g ∈ (raw inner).lease, g.holder = who ∧ g.epoch = epoch := by
        rintro ⟨k, hk, hk'⟩
        cases Option.mem_unique hl hk
        exact hmatch hk'
      rw [if_neg hnot]
      exact ⟨rfl, iff_of_false Bool.false_ne_true hnot⟩

theorem tryAcquire_ok {inner : Inner} {who : String} {ttl : Duration} {now : ℤ}
    {x : Option Lease × Inner} (hok : Ok inner) (h : tryAcquire inner who ttl now = some x) :
    Ok x.2 := by
  obtain ⟨-, hraw⟩ := tryAcquire_law h
  have hnum : (raw x.2).Numbered := by
    rw [hraw]
    exact hok.1.acquire
  refine ⟨hnum, ?_⟩
  unfold tryAcquire at h
  split_ifs at h with hheld
  · cases h
    exact hok.2
  · obtain ⟨epoch, hepoch, h⟩ := Option.bind_eq_some_iff.mp h
    obtain ⟨expires, hadd, h⟩ := Option.bind_eq_some_iff.mp h
    cases h
    apply max_le hok.2
    unfold nextEpoch at hepoch
    cases hl : inner.lease with
    | none =>
      rw [hl] at hepoch
      obtain ⟨hle, rfl⟩ := checkedAdd_eq_some.mp hepoch
      exact hle
    | some g =>
      simp only [hl] at hepoch
      split_ifs at hepoch with hlive
      · cases hepoch
        exact (hok.1 g hl).le.trans hok.2
      · obtain ⟨hle, rfl⟩ := checkedAdd_eq_some.mp hepoch
        exact hle

theorem renew_ok {inner : Inner} {who : String} {epoch : ℕ} {ttl : Duration} {now : ℤ}
    {x : Option Lease × Inner} (hok : Ok inner) (h : renew inner who epoch ttl now = some x) :
    Ok x.2 := by
  obtain ⟨-, hraw⟩ := renew_law h
  have hnum : (raw x.2).Numbered := by
    rw [hraw]
    exact hok.1.renew
  have hlast : (raw x.2).last = (raw inner).last := by
    rw [hraw]
    rcases renew_cases (raw inner) who epoch (now + ttlMillis ttl) now with ⟨_, heq⟩ | ⟨_, heq⟩ <;>
      rw [heq]
  exact ⟨hnum, hlast.le.trans hok.2⟩

theorem release_ok {inner : Inner} {who : String} {epoch : ℕ} {x : Bool × Inner}
    (hok : Ok inner) (h : release inner who epoch = some x) : Ok x.2 := by
  obtain ⟨hraw, -⟩ := release_law h
  have hnum : (raw x.2).Numbered := by
    rw [hraw]
    exact hok.1.release
  have hlast : (raw x.2).last = (raw inner).last := by
    rw [hraw, release_last]
  exact ⟨hnum, hlast.le.trans hok.2⟩

def backend : Backend Inner where
  toLeaseProvider := provider
  Holder := fun _ => True
  Ok := Ok
  raw := raw
  millis := ttlMillis
  ok_fresh := ⟨numbered_fresh, Nat.zero_le _⟩
  ok_last := fun h => h
  raw_fresh := rfl
  current_eq := rfl
  acquire_law := fun hok _ h => ⟨tryAcquire_ok hok h, .inl (tryAcquire_law h)⟩
  renew_law := fun hok _ _ h => ⟨renew_ok hok h, renew_law h⟩
  release_law := fun hok _ h =>
    ⟨release_ok hok h, by rw [(release_law h).1], (release_law h).2⟩

end Local

theorem asU64_of_range {n : ℤ} (h : 1 ≤ n ∧ n ≤ i64Max) : (asU64 n : ℤ) = n := by
  unfold i64Max at h
  unfold asU64
  rw [Int.emod_eq_of_lt (by omega) (by omega)]
  omega

/-- An epoch of a row is the cast of an unsigned number just when it is that number. -/
theorem eq_asI64_iff {n : ℤ} (h : 1 ≤ n ∧ n ≤ i64Max) {epoch : ℕ} (hepoch : epoch ≤ u64Max) :
    n = asI64 epoch ↔ asU64 n = epoch := by
  have hcast := asU64_of_range h
  unfold i64Max at h
  unfold u64Max at hepoch
  unfold asI64
  rw [Nat.mod_eq_of_lt (by omega)]
  split_ifs <;> omega

namespace Postgres

def Ok (table : Option LeaseRow) : Prop := ∀ row ∈ table, 1 ≤ row.epoch ∧ row.epoch ≤ i64Max

def raw (table : Option LeaseRow) : LeaseRegister String :=
  ⟨table.map rowToLease, (table.map fun row => asU64 row.epoch).getD 0⟩

theorem current_law (table : Option LeaseRow) (now : ℤ) :
    current table now = (raw table).current now := by
  cases table with
  | none => rfl
  | some row =>
    change _ = (⟨some (rowToLease row), asU64 row.epoch⟩ : LeaseRegister String).current now
    rw [current_mk]
    by_cases h : now < row.expires <;> simp [current, Option.filter, rowToLease, h]

theorem tryAcquire_law {table : Option LeaseRow} {who : String} {ttl : Duration} {now : ℤ}
    {x : Option Lease × Option LeaseRow} (hok : Ok table)
    (h : tryAcquire table who ttl now = some x) :
    Ok x.2 ∧ x.1 = ((raw table).acquire who (now + ttlMillis ttl) now).1 ∧
      raw x.2 = ((raw table).acquire who (now + ttlMillis ttl) now).2 := by
  obtain ⟨expires, hadd, h⟩ := Option.bind_eq_some_iff.mp h
  cases (addI64_eq_some.mp hadd).2
  cases table with
  | none =>
    cases h
    refine ⟨?_, rfl, rfl⟩
    rintro row ⟨⟩
    exact ⟨le_rfl, (by decide : (1 : ℤ) ≤ i64Max)⟩
  | some row =>
    have hrange := hok row rfl
    have hepoch := asU64_of_range hrange
    simp only at h
    by_cases hlive : now < row.expires
    · by_cases hwho : row.holder = who
      · have hnext : nextEpoch row who now = some row.epoch := if_pos ⟨hwho, hlive⟩
        rw [if_pos (.inl hwho), hnext] at h
        cases h
        refine ⟨?_, ?_⟩
        · rintro k ⟨⟩
          exact hrange
        · simp [LeaseRegister.acquire, offer, LeaseRegister.current, raw, rowToLease, Option.filter,
            Grant.Live, hlive, hwho]
      · rw [if_neg (by rintro (h' | h') <;> [exact hwho h'; omega])] at h
        cases h
        refine ⟨hok, ?_⟩
        simp [LeaseRegister.acquire, offer, LeaseRegister.current, raw, rowToLease, Option.filter,
          Grant.Live, hlive, hwho]
    · rw [if_pos (.inr (by omega))] at h
      obtain ⟨epoch, hnext, h⟩ := Option.bind_eq_some_iff.mp h
      unfold nextEpoch at hnext
      rw [if_neg fun hc => hlive hc.2] at hnext
      obtain ⟨hbound, heq⟩ := addI64_eq_some.mp hnext
      have hsucc : asU64 epoch = asU64 row.epoch + 1 := by
        have := asU64_of_range (n := epoch) ⟨by omega, by omega⟩
        omega
      cases h
      refine ⟨?_, ?_⟩
      · rintro k ⟨⟩
        exact ⟨by simp only; omega, by simp only; omega⟩
      · simp [LeaseRegister.acquire, offer, LeaseRegister.current, raw, rowToLease, Option.filter,
          Grant.Live, hlive, hsucc]

theorem raw_holds {row : LeaseRow} {who : String} {epoch : ℕ} {now : ℤ}
    (hrange : 1 ≤ row.epoch ∧ row.epoch ≤ i64Max) (hepoch : epoch ≤ u64Max) :
    (raw (some row)).holds who epoch now ↔
      row.holder = who ∧ row.epoch = asI64 epoch ∧ now < row.expires := by
  rw [eq_asI64_iff hrange hepoch]
  constructor
  · rintro ⟨g, ⟨⟩, hmatch⟩
    exact hmatch
  · exact fun hmatch => ⟨rowToLease row, rfl, hmatch⟩

theorem renew_law {table : Option LeaseRow} {who : String} {epoch : ℕ} {ttl : Duration} {now : ℤ}
    {x : Option Lease × Option LeaseRow} (hok : Ok table) (hepoch : epoch ≤ u64Max)
    (h : renew table who epoch ttl now = some x) :
    Ok x.2 ∧ x.1 = ((raw table).renew who epoch (now + ttlMillis ttl) now).1 ∧
      raw x.2 = ((raw table).renew who epoch (now + ttlMillis ttl) now).2 := by
  obtain ⟨expires, hadd, h⟩ := Option.bind_eq_some_iff.mp h
  cases (addI64_eq_some.mp hadd).2
  unfold LeaseRegister.renew
  cases table with
  | none =>
    cases h
    rw [if_neg]
    · exact ⟨hok, rfl, rfl⟩
    · rintro ⟨g, ⟨⟩, _⟩
  | some row =>
    have hrange := hok row rfl
    have hiff := @Postgres.raw_holds _ who _ now hrange hepoch
    simp only at h
    split_ifs at h with hmatch
    · cases h
      rw [if_pos (hiff.mpr hmatch)]
      have heq := (eq_asI64_iff hrange hepoch).mp hmatch.2.1
      refine ⟨?_, ?_, ?_⟩
      · rintro k ⟨⟩
        exact hrange
      · simp [rowToLease, hmatch.1, heq]
      · simp [raw, rowToLease, hmatch.1, heq]
    · cases h
      rw [if_neg fun hh => hmatch (hiff.mp hh)]
      exact ⟨hok, rfl, rfl⟩

theorem release_law {table : Option LeaseRow} {who : String} {epoch : ℕ}
    {x : Bool × Option LeaseRow} (hok : Ok table) (hepoch : epoch ≤ u64Max)
    (h : release table who epoch = some x) :
    Ok x.2 ∧ (raw x.2).settled = ((raw table).release who epoch).settled ∧
      (x.1 = true ↔ ∃ g ∈ (raw table).lease, g.holder = who ∧ g.epoch = epoch) := by
  unfold release at h
  unfold LeaseRegister.release
  cases table with
  | none =>
    cases h
    have hnot : ¬ ∃ g ∈ (raw none).lease, g.holder = who ∧ g.epoch = epoch := by
      rintro ⟨g, ⟨⟩, _⟩
    rw [if_neg hnot]
    exact ⟨hok, rfl, iff_of_false Bool.false_ne_true hnot⟩
  | some row =>
    have hrange := hok row rfl
    simp only at h
    split_ifs at h with hmatch
    · cases h
      have heq := (eq_asI64_iff hrange hepoch).mp hmatch.2
      rw [if_pos ⟨rowToLease row, rfl, hmatch.1, heq⟩]
      refine ⟨?_, ?_, ?_⟩
      · rintro k ⟨⟩
        exact hrange
      · rfl
      · exact iff_of_true rfl ⟨rowToLease row, rfl, hmatch.1, heq⟩
    · cases h
      have hnot : ¬ ∃ g ∈ (raw (some row)).lease, g.holder = who ∧ g.epoch = epoch := by
        rintro ⟨g, ⟨⟩, hmatch'⟩
        exact hmatch ⟨hmatch'.1, (eq_asI64_iff hrange hepoch).mpr hmatch'.2⟩
      rw [if_neg hnot]
      exact ⟨hok, rfl, iff_of_false Bool.false_ne_true hnot⟩

theorem raw_last {table : Option LeaseRow} (hok : Ok table) :
    (raw table).Numbered ∧ (raw table).last ≤ u64Max := by
  cases table with
  | none => exact ⟨numbered_fresh, Nat.zero_le _⟩
  | some row =>
    constructor
    · rintro g ⟨⟩
      rfl
    · change asU64 row.epoch ≤ u64Max
      have hrange := hok row rfl
      have := asU64_of_range hrange
      unfold i64Max at hrange
      unfold u64Max
      omega

def backend : Backend (Option LeaseRow) where
  toLeaseProvider := provider
  Holder := fun _ => True
  Ok := Ok
  raw := raw
  millis := ttlMillis
  ok_fresh := by rintro row ⟨⟩
  ok_last := raw_last
  raw_fresh := rfl
  current_eq := current_law _ _
  acquire_law := fun hok _ h => ⟨(tryAcquire_law hok h).1, .inl (tryAcquire_law hok h).2⟩
  renew_law := fun hok _ hepoch h => renew_law hok hepoch h
  release_law := fun hok hepoch h => release_law hok hepoch h

end Postgres

namespace K8s

/-- A holder of the object has a name and an epoch above zero. -/
def Ok (object : Option K8sLease) : Prop :=
  ∀ lease ∈ object, objectEpoch lease ≤ u64Max ∧
    ∀ g ∈ leaseToGrant lease, g.holder ≠ "" ∧ 1 ≤ g.epoch

def rawObject (lease : K8sLease) : LeaseRegister String := ⟨leaseToGrant lease, objectEpoch lease⟩

def raw (object : Option K8sLease) : LeaseRegister String :=
  (object.map rawObject).getD LeaseRegister.fresh

theorem current_law (object : Option K8sLease) (now : ℤ) :
    current object now = (raw object).current now := by
  cases object <;> rfl

theorem objectEpoch_setEpoch {lease : K8sLease} {epoch : ℕ} (h : epoch ≤ u64Max) :
    objectEpoch (setEpoch lease epoch) = epoch := by
  have hparse : parseU64 (Nat.repr epoch) = some epoch := by
    unfold parseU64
    rw [Nat.toNat?_repr]
    exact Option.filter_eq_some_iff.mpr ⟨rfl, decide_eq_true h⟩
  simp [objectEpoch, setEpoch, hparse]

theorem ttlSeconds_nonneg (ttl : Duration) : 0 ≤ ttlSeconds ttl := by
  unfold ttlSeconds i32Max
  omega

theorem microTime_eq_some {millis time : ℤ} :
    microTime millis = some time ↔
      (minTimestamp ≤ millis ∧ millis ≤ maxTimestamp) ∧ time = millis := by
  unfold microTime
  split_ifs with h
  · rw [and_iff_right h, Option.some.injEq, eq_comm]
  · simp only [false_iff]
    exact fun hc => h hc.1

theorem granted_spec {lease : K8sLease} {acquired : Option ℤ} {who : String} {epoch : ℕ}
    {ttl : Duration} {now : ℤ} {x : Option Lease × K8sLease} (hepoch : epoch ≤ u64Max)
    (h : granted lease acquired who epoch ttl now = some x) :
    x.1 = some ⟨who, epoch, now + ttlMillis ttl⟩ ∧
      leaseToGrant x.2 = some ⟨who, epoch, now + ttlMillis ttl⟩ ∧ objectEpoch x.2 = epoch := by
  obtain ⟨time, htime, h⟩ := Option.bind_eq_some_iff.mp h
  obtain ⟨expires, hadd, h⟩ := Option.bind_eq_some_iff.mp h
  cases (microTime_eq_some.mp htime).2
  cases (addI64_eq_some.mp hadd).2
  cases h
  refine ⟨rfl, ?_, objectEpoch_setEpoch hepoch⟩
  unfold leaseToGrant
  rw [objectEpoch_setEpoch hepoch]
  simp [setEpoch, expiresAtSpecMillis, ttlMillis, max_eq_left (ttlSeconds_nonneg ttl)]

theorem granted_ok {lease : K8sLease} {acquired : Option ℤ} {who : String} {epoch : ℕ}
    {ttl : Duration} {now : ℤ} {x : Option Lease × K8sLease} (hwho : who ≠ "")
    (hepoch : 1 ≤ epoch ∧ epoch ≤ u64Max) (h : granted lease acquired who epoch ttl now = some x) :
    Ok (some x.2) := by
  obtain ⟨-, hgrant, hobject⟩ := granted_spec hepoch.2 h
  rintro l ⟨⟩
  constructor
  · rw [hobject]
    exact hepoch.2
  · intro g hg
    cases Option.mem_unique hgrant hg
    exact ⟨hwho, hepoch.1⟩

theorem leaseToGrant_holder {lease : K8sLease} {g : Lease} (hg : g ∈ leaseToGrant lease)
    (hwho : g.holder ≠ "") :
    existingHolder lease = some g.holder ∧ expiresAtMillis lease = g.expires ∧
      objectEpoch lease = g.epoch := by
  obtain ⟨spec, hspec, hg⟩ := Option.bind_eq_some_iff.mp hg
  obtain ⟨holder, hholder, hg⟩ := Option.bind_eq_some_iff.mp hg
  cases hg
  refine ⟨?_, ?_, rfl⟩
  · simp [existingHolder, hspec, hholder, hwho, Option.filter]
  · simp [expiresAtMillis, hspec]

theorem existingHolder_grant {lease : K8sLease} {who : String}
    (h : existingHolder lease = some who) :
    ∃ g ∈ leaseToGrant lease, g.holder = who ∧ g.expires = expiresAtMillis lease := by
  unfold existingHolder at h
  obtain ⟨hbind, -⟩ := Option.filter_eq_some_iff.mp h
  obtain ⟨spec, hspec, hholder⟩ := Option.bind_eq_some_iff.mp hbind
  refine ⟨⟨who, objectEpoch lease, expiresAtSpecMillis spec⟩, ?_, rfl, ?_⟩
  · simp [leaseToGrant, hspec, hholder]
  · simp [expiresAtMillis, hspec]

/-- An object with no live grant hands the lease over, unless the epochs have run out. -/
theorem applyAcquire_free {lease : K8sLease} {who : String} {ttl : Duration} {now : ℤ}
    {x : Option Lease × K8sLease} (hfree : ∀ g ∈ leaseToGrant lease, ¬ g.Live now)
    (h : applyAcquire lease who ttl now = some x) :
    x = (none, lease) ∧ u64Max ≤ objectEpoch lease ∨
      objectEpoch lease + 1 ≤ u64Max ∧
        granted lease (some now) who (objectEpoch lease + 1) ttl now = some x := by
  have hdead : ∀ w, ¬ (existingHolder lease = some w ∧ now < expiresAtMillis lease) := by
    rintro w ⟨hw, hlive⟩
    obtain ⟨g, hg, _, hexp⟩ := existingHolder_grant hw
    exact hfree g hg (lt_of_lt_of_eq hlive hexp.symm)
  unfold applyAcquire at h
  simp only at h
  rw [if_neg (by rintro ⟨⟨w, hw, _⟩, hlive⟩; exact hdead w ⟨hw, hlive⟩),
    if_neg (hdead who)] at h
  by_cases hzero : objectEpoch lease = 0
  · rw [if_pos hzero] at h
    apply Or.inr
    rw [hzero]
    exact ⟨by decide, h⟩
  · rw [if_neg hzero] at h
    cases hadd : checkedAdd u64Max (objectEpoch lease) 1 with
    | none =>
      rw [hadd] at h
      cases h
      refine .inl ⟨rfl, ?_⟩
      unfold checkedAdd at hadd
      split_ifs at hadd
      omega
    | some epoch =>
      rw [hadd] at h
      obtain ⟨hle, rfl⟩ := checkedAdd_eq_some.mp hadd
      exact .inr ⟨hle, h⟩

theorem applyAcquire_law {lease : K8sLease} {who : String} {ttl : Duration} {now : ℤ}
    {x : Option Lease × K8sLease} (hok : Ok (some lease)) (hwho : who ≠ "")
    (h : applyAcquire lease who ttl now = some x) :
    Ok (some x.2) ∧ (x.1 = ((rawObject lease).acquire who (now + ttlMillis ttl) now).1 ∧
        rawObject x.2 = ((rawObject lease).acquire who (now + ttlMillis ttl) now).2 ∨
      x = (none, lease) ∧ u64Max ≤ objectEpoch lease) := by
  obtain ⟨hbound, hnamed⟩ := hok lease rfl
  rcases acquire_cases (rawObject lease) who (now + ttlMillis ttl) now with
    ⟨g, hg, hlive, hne, heq⟩ | ⟨g, hg, hlive, heqw, heq⟩ | ⟨hfree, heq⟩
  · obtain ⟨hholder, hexp, -⟩ := leaseToGrant_holder hg (hnamed g hg).1
    unfold applyAcquire at h
    simp only at h
    rw [if_pos ⟨⟨g.holder, hholder, hne⟩, hexp ▸ hlive⟩] at h
    cases h
    rw [heq]
    exact ⟨hok, .inl ⟨rfl, rfl⟩⟩
  · obtain ⟨hholder, hexp, hepoch⟩ := leaseToGrant_holder hg (hnamed g hg).1
    unfold applyAcquire at h
    simp only at h
    rw [if_neg, if_pos ⟨heqw ▸ hholder, hexp ▸ hlive⟩] at h
    · have hmax : max (objectEpoch lease) 1 = g.epoch := by
        have := (hnamed g hg).2
        omega
      rw [hmax] at h
      have hrange : 1 ≤ g.epoch ∧ g.epoch ≤ u64Max := ⟨(hnamed g hg).2, hepoch ▸ hbound⟩
      obtain ⟨hgrant, hobject, hafter⟩ := granted_spec hrange.2 h
      refine ⟨granted_ok hwho hrange h, .inl ?_⟩
      rw [heq]
      refine ⟨hgrant, ?_⟩
      simp [rawObject, hobject, hafter, hepoch]
    · rintro ⟨⟨w, hw, hne⟩, _⟩
      cases Option.mem_unique hholder hw
      exact hne heqw
  · rcases applyAcquire_free hfree h with ⟨rfl, hlast⟩ | ⟨hle, hgrants⟩
    · exact ⟨hok, .inr ⟨rfl, hlast⟩⟩
    · obtain ⟨hgrant, hobject, hafter⟩ := granted_spec hle hgrants
      refine ⟨granted_ok hwho ⟨by omega, hle⟩ hgrants, .inl ?_⟩
      rw [heq]
      refine ⟨hgrant, ?_⟩
      simp [rawObject, hobject, hafter]

theorem newLeaseObject_law {who : String} {ttl : Duration} {now : ℤ} {lease : K8sLease}
    (hwho : who ≠ "") (h : newLeaseObject who ttl now = some lease) :
    Ok (some lease) ∧ leaseToGrant lease = some ⟨who, 1, now + ttlMillis ttl⟩ ∧
      objectEpoch lease = 1 := by
  obtain ⟨time, htime, h⟩ := Option.bind_eq_some_iff.mp h
  cases (microTime_eq_some.mp htime).2
  cases h
  have hepoch := @K8s.objectEpoch_setEpoch ⟨none, some ⟨some now, some who,
    some (ttlSeconds ttl), some 1, some now⟩⟩ 1 (by decide)
  have hgrant : leaseToGrant (setEpoch ⟨none, some ⟨some now, some who, some (ttlSeconds ttl),
      some 1, some now⟩⟩ 1) = some ⟨who, 1, now + ttlMillis ttl⟩ := by
    unfold leaseToGrant
    rw [hepoch]
    simp [setEpoch, expiresAtSpecMillis, ttlMillis, max_eq_left (ttlSeconds_nonneg ttl)]
  refine ⟨?_, hgrant, hepoch⟩
  rintro l ⟨⟩
  constructor
  · rw [hepoch]
    decide
  · intro g hg
    cases Option.mem_unique hgrant hg
    exact ⟨hwho, le_rfl⟩

theorem tryAcquire_law {object : Option K8sLease} {who : String} {ttl : Duration} {now : ℤ}
    {x : Option Lease × Option K8sLease} (hok : Ok object) (hwho : who ≠ "")
    (h : tryAcquire object who ttl now = some x) :
    Ok x.2 ∧ (x.1 = ((raw object).acquire who (now + ttlMillis ttl) now).1 ∧
        raw x.2 = ((raw object).acquire who (now + ttlMillis ttl) now).2 ∨
      x = (none, object) ∧ u64Max ≤ (raw object).last) := by
  cases object with
  | none =>
    obtain ⟨lease, hnew, h⟩ := Option.bind_eq_some_iff.mp h
    obtain ⟨hafter, hgrant, hepoch⟩ := newLeaseObject_law hwho hnew
    obtain ⟨grant, hread, h⟩ := Option.bind_eq_some_iff.mp h
    cases h
    cases Option.mem_unique hgrant hread
    refine ⟨hafter, .inl ⟨rfl, ?_⟩⟩
    simp [raw, rawObject, hgrant, hepoch, LeaseRegister.acquire, offer, LeaseRegister.current,
      fresh, Option.filter]
  | some lease =>
    obtain ⟨y, hy, rfl⟩ := Option.map_eq_some_iff.mp h
    obtain ⟨hafter, ⟨hreply, hregister⟩ | ⟨rfl, hlast⟩⟩ := applyAcquire_law hok hwho hy
    · exact ⟨hafter, .inl ⟨hreply, hregister⟩⟩
    · exact ⟨hok, .inr ⟨rfl, hlast⟩⟩

theorem applyRenew_law {lease : K8sLease} {who : String} {epoch : ℕ} {ttl : Duration} {now : ℤ}
    {x : Option Lease × K8sLease} (hok : Ok (some lease)) (hepoch : epoch ≤ u64Max)
    (hwho : who ≠ "") (h : applyRenew lease who epoch ttl now = some x) :
    Ok (some x.2) ∧ x.1 = ((rawObject lease).renew who epoch (now + ttlMillis ttl) now).1 ∧
      rawObject x.2 = ((rawObject lease).renew who epoch (now + ttlMillis ttl) now).2 := by
  have hdenied : ¬ (rawObject lease).holds who epoch now → x = (none, lease) →
      Ok (some x.2) ∧ x.1 = ((rawObject lease).renew who epoch (now + ttlMillis ttl) now).1 ∧
        rawObject x.2 = ((rawObject lease).renew who epoch (now + ttlMillis ttl) now).2 := by
    rintro hnot rfl
    unfold LeaseRegister.renew
    rw [if_neg hnot]
    exact ⟨hok, rfl, rfl⟩
  unfold applyRenew at h
  cases hspec : lease.spec with
  | none =>
    simp only [hspec] at h
    cases h
    apply hdenied ?_ rfl
    rintro ⟨g, hg, _⟩
    simp [rawObject, leaseToGrant, hspec] at hg
  | some spec =>
    simp only [hspec] at h
    cases hholder : spec.holderIdentity with
    | none =>
      simp only [hholder] at h
      cases h
      apply hdenied ?_ rfl
      rintro ⟨g, hg, _⟩
      simp [rawObject, leaseToGrant, hspec, hholder] at hg
    | some holder =>
      simp only [hholder] at h
      have hread : leaseToGrant lease =
          some ⟨holder, objectEpoch lease, expiresAtSpecMillis spec⟩ := by
        simp [leaseToGrant, hspec, hholder]
      split_ifs at h with hlost
      · cases h
        apply hdenied ?_ rfl
        rintro ⟨g, hg, hwho', hepoch', hlive⟩
        cases Option.mem_unique hread hg
        rcases hlost with hne | hne | hdead
        · exact hne hwho'
        · exact hne hepoch'
        · exact absurd hlive (not_lt.mpr hdead)
      · push Not at hlost
        obtain ⟨rfl, rfl, hlive⟩ := hlost
        have hholds : (rawObject lease).holds holder (objectEpoch lease) now :=
          ⟨_, hread, rfl, rfl, hlive⟩
        obtain ⟨hgrant, hobject, hafter⟩ := granted_spec hepoch h
        have hone := ((hok lease rfl).2 _ hread).2
        refine ⟨granted_ok hwho ⟨hone, hepoch⟩ h, ?_⟩
        unfold LeaseRegister.renew
        rw [if_pos hholds]
        refine ⟨hgrant, ?_⟩
        simp [rawObject, hobject, hafter]

theorem fresh_renew (who : String) (epoch : ℕ) (expires now : ℤ) :
    (fresh : LeaseRegister String).renew who epoch expires now = (none, fresh) := by
  unfold LeaseRegister.renew
  rw [if_neg]
  rintro ⟨g, ⟨⟩, _⟩

theorem renew_law {object : Option K8sLease} {who : String} {epoch : ℕ} {ttl : Duration} {now : ℤ}
    {x : Option Lease × Option K8sLease} (hok : Ok object) (hepoch : epoch ≤ u64Max)
    (hwho : who ≠ "") (h : renew object who epoch ttl now = some x) :
    Ok x.2 ∧ x.1 = ((raw object).renew who epoch (now + ttlMillis ttl) now).1 ∧
      raw x.2 = ((raw object).renew who epoch (now + ttlMillis ttl) now).2 := by
  cases object with
  | none =>
    cases h
    change _ ∧ _ = (LeaseRegister.renew fresh _ _ _ _).1 ∧
      _ = (LeaseRegister.renew fresh _ _ _ _).2
    rw [fresh_renew]
    exact ⟨hok, rfl, rfl⟩
  | some lease =>
    obtain ⟨y, hy, rfl⟩ := Option.map_eq_some_iff.mp h
    exact applyRenew_law hok hepoch hwho hy

theorem applyRelease_law {lease : K8sLease} {who : String} {epoch : ℕ} {x : Bool × K8sLease}
    (hok : Ok (some lease)) (hepoch : epoch ≤ u64Max) (h : applyRelease lease who epoch = some x) :
    Ok (some x.2) ∧ (rawObject x.2).settled = ((rawObject lease).release who epoch).settled ∧
      (x.1 = true ↔ ∃ g ∈ (rawObject lease).lease, g.holder = who ∧ g.epoch = epoch) := by
  have hkept : (¬ ∃ g ∈ leaseToGrant lease, g.holder = who ∧ g.epoch = epoch) →
      x = (false, lease) → Ok (some x.2) ∧
        (rawObject x.2).settled = ((rawObject lease).release who epoch).settled ∧
        (x.1 = true ↔ ∃ g ∈ (rawObject lease).lease, g.holder = who ∧ g.epoch = epoch) := by
    rintro hnot rfl
    unfold LeaseRegister.release
    rw [if_neg (by exact hnot)]
    exact ⟨hok, rfl, iff_of_false Bool.false_ne_true hnot⟩
  unfold applyRelease at h
  cases hspec : lease.spec with
  | none =>
    simp only [hspec] at h
    cases h
    apply hkept ?_ rfl
    rintro ⟨g, hg, _⟩
    simp [leaseToGrant, hspec] at hg
  | some spec =>
    simp only [hspec] at h
    split_ifs at h with hother
    · cases h
      apply hkept ?_ rfl
      rintro ⟨g, hg, hwho, hepoch'⟩
      obtain ⟨spec', hspec', hg⟩ := Option.bind_eq_some_iff.mp hg
      obtain ⟨holder, hholder, hg⟩ := Option.bind_eq_some_iff.mp hg
      cases Option.mem_unique hspec hspec'
      cases hg
      cases hwho
      rcases hother with hne | hne
      · exact hne hepoch'
      · exact hne hholder
    · push Not at hother
      obtain ⟨rfl, hholder⟩ := hother
      obtain ⟨time, htime, h⟩ := Option.bind_eq_some_iff.mp h
      cases (microTime_eq_some.mp htime).2
      cases h
      have hread : leaseToGrant lease =
          some ⟨who, objectEpoch lease, expiresAtSpecMillis spec⟩ := by
        simp [leaseToGrant, hspec, hholder]
      have hend : ∀ l : K8sLease, l = setEpoch ⟨lease.epochAnnotation, some { spec with
          leaseDurationSeconds := some 0, renewTime := some 0 }⟩ (objectEpoch lease) →
          leaseToGrant l = some ⟨who, objectEpoch lease, 0⟩ ∧
            objectEpoch l = objectEpoch lease := by
        rintro l rfl
        refine ⟨?_, objectEpoch_setEpoch hepoch⟩
        unfold leaseToGrant
        rw [objectEpoch_setEpoch hepoch]
        simp [setEpoch, expiresAtSpecMillis, hholder]
      obtain ⟨hgrant, hobject⟩ := hend _ rfl
      refine ⟨?_, ?_, iff_of_true rfl ⟨_, hread, rfl, rfl⟩⟩
      · rintro l ⟨⟩
        constructor
        · rw [hobject]
          exact hepoch
        · intro g hg
          cases Option.mem_unique hgrant hg
          have hnamed := (hok lease rfl).2 _ hread
          exact hnamed
      · unfold LeaseRegister.release
        rw [if_pos ⟨_, hread, rfl, rfl⟩]
        unfold rawObject
        rw [hgrant, hobject]
        rfl

theorem release_law {object : Option K8sLease} {who : String} {epoch : ℕ}
    {x : Bool × Option K8sLease} (hok : Ok object) (hepoch : epoch ≤ u64Max)
    (h : release object who epoch = some x) :
    Ok x.2 ∧ (raw x.2).settled = ((raw object).release who epoch).settled ∧
      (x.1 = true ↔ ∃ g ∈ (raw object).lease, g.holder = who ∧ g.epoch = epoch) := by
  cases object with
  | none =>
    cases h
    have hnot : ¬ ∃ g ∈ (raw none).lease, g.holder = who ∧ g.epoch = epoch := by
      rintro ⟨g, ⟨⟩, _⟩
    refine ⟨hok, ?_, iff_of_false Bool.false_ne_true hnot⟩
    unfold LeaseRegister.release
    rw [if_neg hnot]
  | some lease =>
    obtain ⟨y, hy, rfl⟩ := Option.map_eq_some_iff.mp h
    exact applyRelease_law hok hepoch hy

theorem raw_last {object : Option K8sLease} (hok : Ok object) :
    (raw object).Numbered ∧ (raw object).last ≤ u64Max := by
  cases object with
  | none => exact ⟨numbered_fresh, Nat.zero_le _⟩
  | some lease =>
    refine ⟨?_, (hok lease rfl).1⟩
    intro g hg
    obtain ⟨spec, _, hg⟩ := Option.bind_eq_some_iff.mp hg
    obtain ⟨holder, _, hg⟩ := Option.bind_eq_some_iff.mp hg
    cases hg
    rfl

def backend : Backend (Option K8sLease) where
  toLeaseProvider := provider
  Holder := fun who => who ≠ ""
  Ok := Ok
  raw := raw
  millis := ttlMillis
  ok_fresh := by rintro lease ⟨⟩
  ok_last := raw_last
  raw_fresh := rfl
  current_eq := current_law _ _
  acquire_law := fun hok hwho h => tryAcquire_law hok hwho h
  renew_law := fun hok hwho hepoch h => renew_law hok hepoch hwho h
  release_law := fun hok hepoch h => release_law hok hepoch h

end K8s

end BlueDB.Ha
