import BlueDB.Lib.LeaseRegister
import BlueDB.Lib.Machine

/-!
# The lease backends

A lease is granted to a holder under an epoch until an expiry in epoch
milliseconds. Three backends keep it: a value in memory, one row of a Postgres
table and a Kubernetes object. An operation that panics, or that the store refuses
as out of range, has no result.
-/

namespace BlueDB.Ha

def u64Max : ℕ := 2 ^ 64 - 1

def i64Min : ℤ := -2 ^ 63

def i64Max : ℤ := 2 ^ 63 - 1

def i32Max : ℤ := 2 ^ 31 - 1

/-- The cast of an unsigned number to `i64`. -/
def asI64 (n : ℕ) : ℤ :=
  if n % 2 ^ 64 < 2 ^ 63 then (n % 2 ^ 64 : ℕ) else (n % 2 ^ 64 : ℕ) - 2 ^ 64

/-- The cast of an `i64` to `u64`. -/
def asU64 (n : ℤ) : ℕ := (n % 2 ^ 64).toNat

def addI64 (a b : ℤ) : Option ℤ :=
  if i64Min ≤ a + b ∧ a + b ≤ i64Max then some (a + b) else none

structure Duration where
  secs : ℕ
  nanos : ℕ
deriving DecidableEq, Repr

namespace Duration

def ofSecs (secs : ℕ) : Duration := ⟨secs, 0⟩

def asMillis (d : Duration) : ℕ := d.secs * 1000 + d.nanos / 1000000

end Duration

/-- The holder, the fencing-token epoch and the expiry. -/
abbrev Lease := Grant String

/-- The operations of a lease store on its contents. A release tells whether it wrote. -/
structure LeaseProvider (σ : Type) where
  fresh : σ
  current : σ → ℤ → Option Lease
  tryAcquire : σ → String → Duration → ℤ → Option (Option Lease × σ)
  renew : σ → String → ℕ → Duration → ℤ → Option (Option Lease × σ)
  release : σ → String → ℕ → Option (Bool × σ)

namespace Local

structure Inner where
  lease : Option Lease
  lastEpoch : ℕ
deriving DecidableEq, Repr

def ttlMillis (ttl : Duration) : ℤ := asI64 ttl.asMillis

def current (inner : Inner) (now : ℤ) : Option Lease :=
  inner.lease.filter fun lease => now < lease.expires

def heldByAnother (inner : Inner) (holder : String) (now : ℤ) : Prop :=
  ∃ current ∈ inner.lease, current.holder ≠ holder ∧ now < current.expires

instance (inner : Inner) (holder : String) (now : ℤ) :
    Decidable (heldByAnother inner holder now) :=
  inferInstanceAs (Decidable (∃ current ∈ inner.lease, _))

/-- The epoch is kept on a re-acquisition of one's own live lease and advances otherwise. -/
def nextEpoch (inner : Inner) (holder : String) (now : ℤ) : Option ℕ :=
  match inner.lease with
  | some current =>
    if current.holder = holder ∧ now < current.expires then some current.epoch
    else checkedAdd u64Max inner.lastEpoch 1
  | none => checkedAdd u64Max inner.lastEpoch 1

def tryAcquire (inner : Inner) (holder : String) (ttl : Duration) (now : ℤ) :
    Option (Option Lease × Inner) :=
  if heldByAnother inner holder now then some (none, inner)
  else do
    let epoch ← nextEpoch inner holder now
    let expires ← addI64 now (ttlMillis ttl)
    let lease : Lease := ⟨holder, epoch, expires⟩
    some (some lease, ⟨some lease, max inner.lastEpoch epoch⟩)

def renew (inner : Inner) (holder : String) (epoch : ℕ) (ttl : Duration) (now : ℤ) :
    Option (Option Lease × Inner) :=
  match inner.lease with
  | some current =>
    if current.holder = holder ∧ current.epoch = epoch ∧ now < current.expires then do
      let expires ← addI64 now (ttlMillis ttl)
      let lease : Lease := ⟨holder, epoch, expires⟩
      some (some lease, ⟨some lease, inner.lastEpoch⟩)
    else some (none, inner)
  | none => some (none, inner)

def release (inner : Inner) (holder : String) (epoch : ℕ) : Option (Bool × Inner) :=
  match inner.lease with
  | some current =>
    if current.holder = holder ∧ current.epoch = epoch then some (true, ⟨none, inner.lastEpoch⟩)
    else some (false, inner)
  | none => some (false, inner)

def provider : LeaseProvider Inner := ⟨⟨none, 0⟩, current, tryAcquire, renew, release⟩

end Local

namespace Postgres

/-- The row of the leased resource. -/
structure LeaseRow where
  holder : String
  epoch : ℤ
  expires : ℤ
deriving DecidableEq, Repr

def rowToLease (row : LeaseRow) : Lease := ⟨row.holder, asU64 row.epoch, row.expires⟩

def ttlMillis (ttl : Duration) : ℤ := asI64 ttl.asMillis

def current (table : Option LeaseRow) (now : ℤ) : Option Lease :=
  (table.filter fun row => now < row.expires).map rowToLease

/-- The `CASE` of the upsert; a `BIGINT` out of range fails the statement. -/
def nextEpoch (row : LeaseRow) (holder : String) (now : ℤ) : Option ℤ :=
  if row.holder = holder ∧ now < row.expires then some row.epoch else addI64 row.epoch 1

/-- `INSERT … ON CONFLICT (resource) DO UPDATE … WHERE … RETURNING`. -/
def tryAcquire (table : Option LeaseRow) (holder : String) (ttl : Duration) (now : ℤ) :
    Option (Option Lease × Option LeaseRow) := do
  let expires ← addI64 now (ttlMillis ttl)
  match table with
  | none => some (some (rowToLease ⟨holder, 1, expires⟩), some ⟨holder, 1, expires⟩)
  | some row =>
    if row.holder = holder ∨ row.expires ≤ now then do
      let epoch ← nextEpoch row holder now
      some (some (rowToLease ⟨holder, epoch, expires⟩), some ⟨holder, epoch, expires⟩)
    else some (none, some row)

/-- `UPDATE … WHERE holder = … AND epoch = … AND expires_at_millis > … RETURNING`. -/
def renew (table : Option LeaseRow) (holder : String) (epoch : ℕ) (ttl : Duration) (now : ℤ) :
    Option (Option Lease × Option LeaseRow) := do
  let expires ← addI64 now (ttlMillis ttl)
  match table with
  | none => some (none, none)
  | some row =>
    if row.holder = holder ∧ row.epoch = asI64 epoch ∧ now < row.expires then
      some (some (rowToLease ⟨row.holder, row.epoch, expires⟩),
        some ⟨row.holder, row.epoch, expires⟩)
    else some (none, some row)

/-- The row is expired in place: it keeps the epoch. -/
def release (table : Option LeaseRow) (holder : String) (epoch : ℕ) :
    Option (Bool × Option LeaseRow) :=
  match table with
  | none => some (false, none)
  | some row =>
    if row.holder = holder ∧ row.epoch = asI64 epoch then
      some (true, some ⟨row.holder, row.epoch, 0⟩)
    else some (false, some row)

def provider : LeaseProvider (Option LeaseRow) := ⟨none, current, tryAcquire, renew, release⟩

end Postgres

namespace K8s

structure LeaseSpec where
  acquireTime : Option ℤ
  holderIdentity : Option String
  leaseDurationSeconds : Option ℤ
  leaseTransitions : Option ℤ
  renewTime : Option ℤ
deriving DecidableEq, Repr

def LeaseSpec.empty : LeaseSpec := ⟨none, none, none, none, none⟩

/-- The object, with its annotation `bluedb.io/lease-epoch`. -/
structure K8sLease where
  epochAnnotation : Option String
  spec : Option LeaseSpec
deriving DecidableEq, Repr

def ttlSeconds (ttl : Duration) : ℤ := min (((max ttl.asMillis 1 + 999) / 1000 : ℕ) : ℤ) i32Max

def ttlMillis (ttl : Duration) : ℤ := ttlSeconds ttl * 1000

/-- The first and the last millisecond that a date of the library can stand for. -/
def minTimestamp : ℤ := -8334601228800000

def maxTimestamp : ℤ := 8210266876799999

def microTime (millis : ℤ) : Option ℤ :=
  if minTimestamp ≤ millis ∧ millis ≤ maxTimestamp then some millis else none

def expiresAtSpecMillis (spec : LeaseSpec) : ℤ :=
  match spec.renewTime with
  | none => 0
  | some renew => renew + max (spec.leaseDurationSeconds.getD 0) 0 * 1000

def expiresAtMillis (lease : K8sLease) : ℤ := (lease.spec.map expiresAtSpecMillis).getD 0

def parseU64 (s : String) : Option ℕ := s.toNat?.filter (· ≤ u64Max)

def objectEpoch (lease : K8sLease) : ℕ :=
  ((lease.epochAnnotation.bind parseU64).or
    ((lease.spec.bind LeaseSpec.leaseTransitions).map fun v => (max v 0).toNat)).getD 0

def setEpoch (lease : K8sLease) (epoch : ℕ) : K8sLease where
  epochAnnotation := some (Nat.repr epoch)
  spec := some { lease.spec.getD LeaseSpec.empty with leaseTransitions := some (min epoch i32Max) }

def leaseToGrant (lease : K8sLease) : Option Lease := do
  let spec ← lease.spec
  let holder ← spec.holderIdentity
  some ⟨holder, objectEpoch lease, expiresAtSpecMillis spec⟩

def newLeaseObject (holder : String) (ttl : Duration) (now : ℤ) : Option K8sLease := do
  let time ← microTime now
  some (setEpoch ⟨none, some ⟨some time, some holder, some (ttlSeconds ttl), some 1, some time⟩⟩ 1)

def existingHolder (lease : K8sLease) : Option String :=
  (lease.spec.bind LeaseSpec.holderIdentity).filter (· ≠ "")

def granted (lease : K8sLease) (acquired : Option ℤ) (holder : String) (epoch : ℕ)
    (ttl : Duration) (now : ℤ) : Option (Option Lease × K8sLease) := do
  let time ← microTime now
  let expires ← addI64 now (ttlMillis ttl)
  let spec := lease.spec.getD LeaseSpec.empty
  some (some ⟨holder, epoch, expires⟩,
    setEpoch ⟨lease.epochAnnotation, some { spec with
      acquireTime := acquired
      holderIdentity := some holder
      leaseDurationSeconds := some (ttlSeconds ttl)
      renewTime := some time }⟩ epoch)

def applyAcquire (lease : K8sLease) (holder : String) (ttl : Duration) (now : ℤ) :
    Option (Option Lease × K8sLease) :=
  let currentEpoch := objectEpoch lease
  let live := now < expiresAtMillis lease
  if (∃ h ∈ existingHolder lease, h ≠ holder) ∧ live then some (none, lease)
  else if existingHolder lease = some holder ∧ live then
    let acquired := (lease.spec.bind LeaseSpec.acquireTime).or (some now)
    granted lease acquired holder (max currentEpoch 1) ttl now
  else
    match if currentEpoch = 0 then some 1 else checkedAdd u64Max currentEpoch 1 with
    | none => some (none, lease)
    | some epoch => granted lease (some now) holder epoch ttl now

def applyRenew (lease : K8sLease) (holder : String) (epoch : ℕ) (ttl : Duration) (now : ℤ) :
    Option (Option Lease × K8sLease) :=
  match lease.spec with
  | none => some (none, lease)
  | some spec =>
    match spec.holderIdentity with
    | none => some (none, lease)
    | some currentHolder =>
      if currentHolder ≠ holder ∨ objectEpoch lease ≠ epoch ∨ expiresAtSpecMillis spec ≤ now then
        some (none, lease)
      else granted lease spec.acquireTime holder epoch ttl now

/-- Ends the lease in place, when it is the caller's at that epoch. -/
def applyRelease (lease : K8sLease) (holder : String) (epoch : ℕ) : Option (Bool × K8sLease) :=
  match lease.spec with
  | none => some (false, lease)
  | some spec =>
    if objectEpoch lease ≠ epoch ∨ spec.holderIdentity ≠ some holder then some (false, lease)
    else do
      let time ← microTime 0
      some (true, setEpoch ⟨lease.epochAnnotation,
        some { spec with leaseDurationSeconds := some 0, renewTime := some time }⟩ epoch)

def current (object : Option K8sLease) (now : ℤ) : Option Lease :=
  (object.bind leaseToGrant).filter fun grant => now < grant.expires

def tryAcquire (object : Option K8sLease) (holder : String) (ttl : Duration) (now : ℤ) :
    Option (Option Lease × Option K8sLease) :=
  match object with
  | none => do
    let lease ← newLeaseObject holder ttl now
    let grant ← leaseToGrant lease
    some (some grant, some lease)
  | some lease => (applyAcquire lease holder ttl now).map fun x => (x.1, some x.2)

def renew (object : Option K8sLease) (holder : String) (epoch : ℕ) (ttl : Duration) (now : ℤ) :
    Option (Option Lease × Option K8sLease) :=
  match object with
  | none => some (none, none)
  | some lease => (applyRenew lease holder epoch ttl now).map fun x => (x.1, some x.2)

def release (object : Option K8sLease) (holder : String) (epoch : ℕ) :
    Option (Bool × Option K8sLease) :=
  match object with
  | none => some (false, none)
  | some lease => (applyRelease lease holder epoch).map fun x => (x.1, some x.2)

def provider : LeaseProvider (Option K8sLease) := ⟨none, current, tryAcquire, renew, release⟩

end K8s

end BlueDB.Ha
