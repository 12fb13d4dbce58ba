import BlueDB.Ledger.Model
import BlueDB.Lib.OrderedIndex

/-!
# Committed ledger records

The key-value contents under the ledger's tags: account, transfer and
pending-state records by id, the expiry index, the burned ids and the timestamp
watermark. Keys of different tags never meet, so each tag is a map of its own;
big-endian encoding makes the expiry index ascend by expiry time, then by id.
-/

namespace BlueDB.Ledger

/-- `<expires_at> <pending_id>` in the order of its big-endian bytes. -/
abbrev ExpiryKey := ℕ ×ₗ U128

def expiryKey (expiresAt : ℕ) (pendingId : U128) : ExpiryKey := toLex (expiresAt, pendingId)

def ExpiryKey.expiresAt (key : ExpiryKey) : ℕ := (ofLex key).1

def ExpiryKey.pendingId (key : ExpiryKey) : U128 := (ofLex key).2

/-- A record map with one entry written. -/
def put {β : Type*} (m : U128 → Option β) (id : U128) (v : β) : U128 → Option β :=
  Function.update m id (some v)

@[simp] theorem put_self {β : Type*} (m : U128 → Option β) (id : U128) (v : β) :
    put m id v id = some v := by
  simp [put]

theorem put_of_ne {β : Type*} {m : U128 → Option β} {id k : U128} (h : k ≠ id) (v : β) :
    put m id v k = m k := by
  simp [put, h]

theorem put_apply {β : Type*} (m : U128 → Option β) (id k : U128) (v : β) :
    put m id v k = if k = id then some v else m k := by
  simp [put, Function.update_apply]

theorem put_isSome {β : Type*} {m : U128 → Option β} {k : U128} (h : (m k).isSome = true)
    (id : U128) (v : β) : (put m id v k).isSome = true := by
  rw [put_apply]
  split_ifs
  · rfl
  · exact h

@[ext] structure Store where
  accounts : U128 → Option Account
  transfers : U128 → Option Transfer
  pendingStates : U128 → Option PendingStatus
  expiry : OrderedIndex ExpiryKey
  failed : Finset U128
  watermark : Option ℕ

namespace Store

def empty : Store where
  accounts := fun _ => none
  transfers := fun _ => none
  pendingStates := fun _ => none
  expiry := .empty
  failed := ∅
  watermark := none

/-- The last assigned timestamp, or `0` if none has been written yet. -/
def getWatermark (db : Store) : ℕ := db.watermark.getD 0

/-- Index entries below the exclusive scan bound `now + 1`, in ascending order. -/
def scanExpired (db : Store) (now : ℕ) : List ExpiryKey :=
  db.expiry.scan fun key => decide (ExpiryKey.expiresAt key < saturatingAdd u64Max now 1)

end Store
end BlueDB.Ledger
