import Mathlib.Tactic

/-!
# Ranges and chunks of a list

A list is split into chunks of one size, of which the last may be shorter. What a
range takes of each chunk it overlaps, one after the other, is the range of the
list.
-/

namespace BlueDB

variable {α : Type*}

/-- The elements at positions `lo` up to, but not including, `hi`. -/
def slice (l : List α) (lo hi : ℕ) : List α := (l.take hi).drop lo

@[simp] theorem length_slice {l : List α} {lo hi : ℕ} (h : hi ≤ l.length) :
    (slice l lo hi).length = hi - lo := by
  simp [slice, Nat.min_eq_left h]

@[simp] theorem slice_zero (l : List α) (hi : ℕ) : slice l 0 hi = l.take hi := rfl

theorem slice_append_slice {l : List α} {lo m hi : ℕ} (hlo : lo ≤ m) (hm : m ≤ hi) :
    slice l lo m ++ slice l m hi = slice l lo hi := by
  unfold slice
  rw [List.drop_take, List.drop_take, List.drop_take]
  have hlength : hi - lo = (m - lo) + (hi - m) := by omega
  have hdrop : l.drop m = (l.drop lo).drop (m - lo) := by
    rw [List.drop_drop, Nat.add_sub_cancel' hlo]
  rw [hlength, List.take_add, hdrop]

theorem slice_append_of_le {l : List α} {hi : ℕ} (h : hi ≤ l.length) (lo : ℕ) (l' : List α) :
    slice (l ++ l') lo hi = slice l lo hi := by
  rw [slice, List.take_append_of_le_length h, slice]

theorem slice_succ {l : List α} {i : ℕ} (h : i < l.length) : slice l i (i + 1) = [l[i]] := by
  rw [slice, List.take_succ_eq_append_getElem h,
    List.drop_append_of_le_length (by simp; omega)]
  simp

theorem slice_of_le (l : List α) {lo hi : ℕ} (h : hi ≤ lo) : slice l lo hi = [] := by
  unfold slice
  rw [List.drop_take, Nat.sub_eq_zero_of_le h, List.take_zero]

/-- The chunk at an index. -/
def chunk (size : ℕ) (l : List α) (i : ℕ) : List α := (l.drop (i * size)).take size

def chunks (size : ℕ) (l : List α) : List (List α) :=
  (List.range ((l.length + size - 1) / size)).map (chunk size l)

section Size

variable {size : ℕ} (hsize : 0 < size)

include hsize

theorem lt_chunkCount {length i : ℕ} : i < (length + size - 1) / size ↔ i * size < length := by
  rw [← Nat.succ_le_iff, Nat.le_div_iff_mul_le hsize, Nat.succ_mul]
  omega

theorem getElem?_chunks (l : List α) (i : ℕ) :
    (chunks size l)[i]? = if i * size < l.length then some (chunk size l i) else none := by
  unfold chunks
  rw [List.getElem?_map]
  split_ifs with h
  · rw [List.getElem?_range ((lt_chunkCount hsize).mpr h)]
    rfl
  · rw [List.getElem?_eq_none, Option.map_none]
    rw [List.length_range]
    exact not_lt.mp (h ∘ (lt_chunkCount hsize).mp)

omit hsize in
/-- What the range from `start` to `stop` takes of a chunk. -/
theorem slice_chunk (l : List α) {start stop i : ℕ} (h : i * size ≤ stop) :
    slice (chunk size l i) (start - i * size) (min (stop - i * size) (chunk size l i).length) =
      slice l (max start (i * size)) (min stop ((i + 1) * size)) := by
  unfold slice chunk
  have htake : ((l.drop (i * size)).take size).take
      (min (stop - i * size) ((l.drop (i * size)).take size).length) =
      (l.drop (i * size)).take (min (stop - i * size) size) := by
    rw [List.take_take, List.take_eq_take_iff, List.length_take, List.length_drop]
    omega
  rw [htake, List.drop_take, List.drop_drop, List.drop_take]
  have hstart : i * size + (start - i * size) = max start (i * size) := by omega
  have hstop : min (stop - i * size) size - (start - i * size) =
      min stop ((i + 1) * size) - max start (i * size) := by
    rw [Nat.succ_mul]
    omega
  rw [hstart, hstop]

/-- The overlapping chunks up to any point make up the range up to that point. -/
theorem flatMap_slice_chunk (l : List α) {start stop n : ℕ}
    (h : start / size + n ≤ (stop - 1) / size + 1) (hstop : 0 < stop) :
    ((List.range' (start / size) n).flatMap fun i =>
      slice (chunk size l i) (start - i * size) (min (stop - i * size) (chunk size l i).length)) =
      slice l start (min stop ((start / size + n) * size)) := by
  have hfirst : start / size * size ≤ start := Nat.div_mul_le_self start size
  induction n with
  | zero =>
    rw [List.range'_zero, List.flatMap_nil, slice_of_le]
    rw [Nat.add_zero]
    omega
  | succ n ih =>
    have hlast : start / size + n ≤ (stop - 1) / size := by omega
    have hbound : (start / size + n) * size ≤ stop := by
      have := (Nat.le_div_iff_mul_le hsize).mp hlast
      omega
    rw [List.range'_1_concat, List.flatMap_append, ih (by omega), List.flatMap_singleton,
      slice_chunk l hbound]
    rw [min_eq_right hbound]
    have hgrow : (start / size + n) * size ≤ (start / size + n + 1) * size :=
      Nat.mul_le_mul_right size (Nat.le_succ _)
    rcases Nat.le_total start ((start / size + n) * size) with hle | hle
    · rw [max_eq_right hle]
      exact slice_append_slice hle (le_min hbound hgrow)
    · rw [slice_of_le l hle, List.nil_append, max_eq_left hle]
      rfl

theorem range_of_chunks (l : List α) {start stop : ℕ} (h : start < stop) :
    ((List.range' (start / size) ((stop - 1) / size - start / size + 1)).flatMap fun i =>
      slice (chunk size l i) (start - i * size) (min (stop - i * size) (chunk size l i).length)) =
      slice l start stop := by
  have hle : start / size ≤ (stop - 1) / size := Nat.div_le_div_right (by omega)
  rw [flatMap_slice_chunk hsize l (by omega) (by omega), min_eq_left]
  have hlast := Nat.lt_div_mul_add hsize (a := stop - 1)
  have hindex : start / size + ((stop - 1) / size - start / size + 1) = (stop - 1) / size + 1 := by
    omega
  rw [hindex, Nat.succ_mul]
  omega

end Size

end BlueDB
