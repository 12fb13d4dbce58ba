import BlueDB.Storage.Chunked

/-!
# Reading chunked values

A store that holds the manifest and the chunks of each value, and no chunks behind
the last one, answers every read as the value does. Keys of different paths are
different, since no path has a zero byte.
-/

namespace BlueDB.Storage

theorem chunkKey_eq (path : Bytes) (index : ℕ) :
    chunkKey path index = path ++ 0 :: (99 :: 0 :: paddedIndex index) := by
  simp [chunkKey, chunkSep]

/-- The digits of a number can be read back, zeros in front of them or not. -/
theorem paddedIndex_injective : Function.Injective paddedIndex := by
  intro m n h
  have hread : ∀ k, Nat.ofDigits 10 (((paddedIndex k).map fun b => b.toNat - 48).reverse) = k := by
    intro k
    have hdigit : ∀ d ∈ (Nat.digits 10 k).reverse.leftpad 20 0,
        ((fun b : UInt8 => b.toNat - 48) ∘ fun d => UInt8.ofNat (48 + d)) d = id d := by
      intro d hd
      have hlt : d < 10 := by
        rw [List.leftpad, List.mem_append, List.mem_replicate, List.mem_reverse] at hd
        rcases hd with ⟨-, rfl⟩ | hd
        · decide
        · exact Nat.digits_lt_base (by decide) hd
      rw [Function.comp_apply, UInt8.toNat_ofNat', Nat.mod_eq_of_lt (by omega), id,
        Nat.add_sub_cancel_left]
    unfold paddedIndex
    rw [List.map_map, List.map_congr_left hdigit, List.map_id, List.leftpad,
      List.reverse_append, List.reverse_reverse, List.reverse_replicate,
      Nat.ofDigits_append_replicate_zero, Nat.ofDigits_digits]
  rw [← hread m, ← hread n, h]

theorem chunkKey_inj {p q : LogicalPath} {i j : ℕ} (h : chunkKey p i = chunkKey q j) :
    p = q ∧ i = j := by
  rw [chunkKey_eq, chunkKey_eq] at h
  obtain ⟨hpath, hrest⟩ := append_separator_inj p.2 q.2 h
  obtain ⟨-, hrest⟩ := List.cons.inj hrest
  obtain ⟨-, hindex⟩ := List.cons.inj hrest
  exact ⟨Subtype.ext hpath, paddedIndex_injective hindex⟩

theorem chunkKey_ne_path (p q : LogicalPath) (i : ℕ) : chunkKey p i ≠ q := by
  intro h
  apply q.2
  rw [← h, chunkKey_eq]
  simp

theorem prefix_chunkKey (path : Bytes) (i : ℕ) : chunkPrefix path <+: chunkKey path i :=
  List.prefix_append ..

theorem path_of_prefix {p q : LogicalPath} {i : ℕ} (h : chunkPrefix p <+: chunkKey q i) :
    p = q := by
  obtain ⟨rest, hrest⟩ := h
  have hsplit : p.1 ++ 0 :: (99 :: 0 :: rest) = q.1 ++ 0 :: (99 :: 0 :: paddedIndex i) := by
    rw [← chunkKey_eq, ← hrest]
    simp [chunkPrefix, chunkSep]
  exact Subtype.ext (append_separator_inj p.2 q.2 hsplit).1

theorem not_prefix_path (p q : LogicalPath) : ¬ chunkPrefix p <+: q.1 := by
  intro h
  have hzero : (0 : UInt8) ∈ chunkPrefix p := by simp [chunkPrefix, chunkSep]
  exact q.2 (h.subset hzero)

theorem foldl_beBytes (width n acc : ℕ) :
    (beBytes width n).foldl (fun n b => b.toNat + 256 * n) acc =
      acc * 256 ^ width + n % 256 ^ width := by
  induction width generalizing acc with
  | zero => simp [beBytes, Nat.mod_one]
  | succ width ih =>
    have hdigit : (UInt8.ofNat (n / 256 ^ width)).toNat = n / 256 ^ width % 256 :=
      UInt8.toNat_ofNat'
    rw [beBytes, List.foldl_cons, ih, hdigit, pow_succ, Nat.mod_mul]
    generalize n / 256 ^ width % 256 = digit
    ring

theorem fromLeBytes_manifestOf {n : ℕ} (h : n < 256 ^ 8) : fromLeBytes (manifestOf n) = n := by
  rw [fromLeBytes, manifestOf, List.foldr_reverse, foldl_beBytes, Nat.mod_eq_of_lt h]
  omega

theorem length_manifestOf (n : ℕ) : (manifestOf n).length = 8 := by
  rw [manifestOf, List.length_reverse, length_beBytes]

structure Holds (c : ChunkedBlobStore) (s : Blobs) (held : Held) : Prop where
  manifest : ∀ path : LogicalPath,
    s.get path = (held path).map fun v => manifestOf v.1.length
  chunkAt : ∀ (path : LogicalPath) v, held path = some v →
    ∀ i, s.get (chunkKey path i) = (chunks c.chunkSize v.1)[i]?
  keys : ∀ k, (s.get k).isSome = true →
    (∃ path : LogicalPath, k = path) ∨ ∃ (path : LogicalPath) (i : ℕ), k = chunkKey path i

theorem Holds.empty (c : ChunkedBlobStore) : Holds c .empty fun _ => none where
  manifest _ := rfl
  chunkAt := by
    intro path v h
    exact absurd h (by simp)
  keys := by
    intro k h
    rw [OrderedMap.get_empty] at h
    exact absurd h (by simp)

variable {c : ChunkedBlobStore} {s : Blobs} {held : Held}

theorem mem_scanPrefix {start k : Bytes} :
    k ∈ scanPrefix s start ↔ start <+: k ∧ (s.get k).isSome = true := by
  rw [scanPrefix, List.mem_map, Option.isSome_iff_exists]
  constructor
  · rintro ⟨⟨k, v⟩, hmem, rfl⟩
    obtain ⟨hlive, hbegins⟩ := List.mem_filter.mp hmem
    exact ⟨List.isPrefixOf_iff_prefix.mp hbegins, v, OrderedMap.mem_entries.mp hlive⟩
  · rintro ⟨hbegins, v, hlive⟩
    exact ⟨(k, v), List.mem_filter.mpr
      ⟨OrderedMap.mem_entries.mpr hlive, List.isPrefixOf_iff_prefix.mpr hbegins⟩, rfl⟩

theorem Holds.mem_scan (h : Holds c s held) {path : LogicalPath} {k : Bytes}
    (hk : k ∈ scanPrefix s (chunkPrefix path)) : ∃ i, k = chunkKey path i := by
  obtain ⟨hbegins, hlive⟩ := mem_scanPrefix.mp hk
  rcases h.keys k hlive with ⟨q, rfl⟩ | ⟨q, i, rfl⟩
  · exact absurd hbegins (not_prefix_path path q)
  · obtain rfl := path_of_prefix hbegins
    exact ⟨i, rfl⟩

theorem readManifest_eq (h : Holds c s held) (path : LogicalPath) :
    ChunkedBlobStore.readManifest s path = match held path with
      | none => .error (.missing path)
      | some v => .ok v.1.length := by
  unfold ChunkedBlobStore.readManifest getAll
  rw [h.manifest path]
  cases held path with
  | none => rfl
  | some v =>
    simp only [Option.map_some, bind, Except.bind]
    rw [if_pos (length_manifestOf _), fromLeBytes_manifestOf v.2]

theorem mapM_eq_ok {α β ε : Type} {f : α → Except ε β} {g : α → β} {l : List α}
    (h : ∀ a ∈ l, f a = .ok (g a)) : l.mapM f = .ok (l.map g) := by
  induction l with
  | nil => rfl
  | cons a l ih =>
    rw [List.mapM_cons, h a (by simp), ih fun b hb => h b (by simp [hb])]
    rfl

theorem readChunk_eq (h : Holds c s held) {path : LogicalPath} {v : Value}
    (hv : held path = some v) {start stop i : ℕ} (hi : i * c.chunkSize < v.1.length)
    (hstop : i * c.chunkSize < stop) (hstart : start < (i + 1) * c.chunkSize)
    (hbound : stop ≤ v.1.length) (horder : start ≤ stop) :
    c.readChunk s path start stop i =
      .ok (slice (chunk c.chunkSize v.1 i) (start - i * c.chunkSize)
        (min (stop - i * c.chunkSize) (chunk c.chunkSize v.1 i).length)) := by
  have hchunk := h.chunkAt path v hv i
  rw [getElem?_chunks c.positive, if_pos hi] at hchunk
  unfold ChunkedBlobStore.readChunk getAll
  rw [hchunk]
  simp only [bind, Except.bind]
  rw [if_pos]
  rw [chunk, List.length_take, List.length_drop]
  rw [Nat.succ_mul] at hstart
  omega

theorem Holds.range (h : Holds c s held) (path : LogicalPath) (start stop : ℕ) :
    c.getRangeChunked s path start stop = expectedRange path (held path) start stop := by
  unfold ChunkedBlobStore.getRangeChunked expectedRange
  rw [readManifest_eq h path]
  cases hv : held path with
  | none => rfl
  | some v =>
    simp only [bind, Except.bind]
    by_cases hrange : start ≤ stop ∧ stop ≤ v.1.length
    · rw [if_neg (by omega), if_pos hrange]
      by_cases hempty : stop ≤ start
      · rw [if_pos hempty, slice_of_le _ hempty]
      · rw [if_neg hempty]
        rw [not_le] at hempty
        have hparts : ∀ i ∈ List.range' (start / c.chunkSize)
            ((stop - 1) / c.chunkSize - start / c.chunkSize + 1),
            c.readChunk s path start stop i = .ok (slice (chunk c.chunkSize v.1 i)
              (start - i * c.chunkSize)
              (min (stop - i * c.chunkSize) (chunk c.chunkSize v.1 i).length)) := by
          intro i hi
          have hfirst : start / c.chunkSize ≤ (stop - 1) / c.chunkSize :=
            Nat.div_le_div_right (by omega)
          rw [List.mem_range'_1] at hi
          have hlast : i * c.chunkSize ≤ stop - 1 :=
            (Nat.le_div_iff_mul_le c.positive).mp (by omega)
          have hnext : start < (i + 1) * c.chunkSize :=
            (Nat.div_lt_iff_lt_mul c.positive).mp (by omega)
          exact readChunk_eq h hv (by omega) (by omega) hnext hrange.2 hrange.1
        rw [mapM_eq_ok hparts]
        dsimp only
        rw [← range_of_chunks c.positive v.1 hempty, List.flatMap_def]
    · rw [if_pos (by omega), if_neg hrange]

theorem Holds.reads (h : Holds c s held) : Reads c s held where
  range := h.range
  all := by
    intro path
    unfold ChunkedBlobStore.getAllChunked expectedAll
    rw [readManifest_eq h path]
    cases hv : held path with
    | none => rfl
    | some v =>
      simp only [bind, Except.bind]
      rw [h.range path, hv]
      simp [expectedRange]

end BlueDB.Storage
