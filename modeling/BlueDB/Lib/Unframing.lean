import BlueDB.Lib.Framing

/-!
# Reading framed bytes

The number that big-endian bytes write, and the bytes at a place of a buffer.
-/

namespace BlueDB

/-- The number of big-endian bytes. -/
def beValue (bytes : List UInt8) : ℕ := bytes.foldl (fun n b => 256 * n + b.toNat) 0

theorem foldl_beBytes (width n acc : ℕ) :
    (beBytes width n).foldl (fun n b => 256 * n + b.toNat) acc =
      256 ^ width * acc + n % 256 ^ width := by
  induction width generalizing acc with
  | zero => simp [beBytes, Nat.mod_one]
  | succ width ih =>
    have hdigit : (UInt8.ofNat (n / 256 ^ width)).toNat = n / 256 ^ width % 256 :=
      UInt8.toNat_ofNat'
    rw [beBytes, List.foldl_cons, ih, hdigit, pow_succ, Nat.mod_mul]
    ring

theorem beValue_beBytes {width n : ℕ} (h : n < 256 ^ width) : beValue (beBytes width n) = n := by
  unfold beValue
  rw [foldl_beBytes, Nat.mod_eq_of_lt h, Nat.mul_zero, Nat.zero_add]

/-- The bytes from a place on, if the buffer has as many. -/
def bytesAt (buf : List UInt8) (pos len : ℕ) : Option (List UInt8) :=
  if pos + len ≤ buf.length then some ((buf.drop pos).take len) else none

theorem bytesAt_append (a b c : List UInt8) : bytesAt (a ++ (b ++ c)) a.length b.length =
    some b := by
  unfold bytesAt
  rw [if_pos]
  · rw [List.drop_left, List.take_left]
  · simp only [List.length_append]
    omega

end BlueDB
