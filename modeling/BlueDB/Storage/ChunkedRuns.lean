import BlueDB.Storage.ChunkedReads

/-!
# Calls that stop early

A call writes only keys of its own path. It deletes the chunks before the manifest, so
between the first of these deletions and that of the manifest the old manifest stands
without all of its chunks. A run answers every read exactly when no call that finds a
value stops there.
-/

namespace BlueDB.Storage

variable {c : ChunkedBlobStore} {s : Blobs} {held : Held}

/-- The call stops with the manifest it found in place and a chunk of it deleted. -/
def Torn (s : Blobs) (e : Event) : Prop :=
  (s.get e.path).isSome = true ∧ ∃ made, e.stop = some made ∧ 0 < made ∧
    made ≤ (scanPrefix s (chunkPrefix e.path)).length

/-- No call of the run is torn on the store that it finds. -/
def Intact (c : ChunkedBlobStore) (s : Blobs) : List Event → Prop
  | [] => True
  | e :: rest => ¬ Torn s e ∧ Intact c (c.play s e) rest

def newWrites (c : ChunkedBlobStore) (path : Bytes) : Call → List BlobWrite
  | .put bytes => c.valueWrites path bytes
  | .delete => []

theorem writes_eq (c : ChunkedBlobStore) (s : Blobs) (path : LogicalPath) (call : Call) :
    c.writes s path call = (scanPrefix s (chunkPrefix path)).map (·, none) ++
      (path.1, none) :: newWrites c path call := by
  cases call with
  | put bytes =>
    have hzero : ¬ path.1.contains 0 = true := by
      rw [List.contains_iff_mem]
      exact path.2
    rw [ChunkedBlobStore.writes, ChunkedBlobStore.putChunked, if_neg hzero]
    simp [Except.toOption, deleteChunked, newWrites]
  | delete => rfl

/-- A call stops among its deletions of chunks, or it has deleted the manifest. -/
theorem play_cases (c : ChunkedBlobStore) (s : Blobs) (e : Event) :
    (∃ made, e.stop = some made ∧ made ≤ (scanPrefix s (chunkPrefix e.path)).length ∧
      c.play s e = s.writeAll (((scanPrefix s (chunkPrefix e.path)).take made).map (·, none))) ∨
    ∃ made, (e.stop = none → (newWrites c e.path e.call).length ≤ made) ∧
      c.play s e = s.writeAll ((scanPrefix s (chunkPrefix e.path)).map (·, none) ++
        (e.path.1, none) :: (newWrites c e.path e.call).take made) := by
  unfold ChunkedBlobStore.play
  cases hstop : e.stop with
  | none =>
    refine Or.inr ⟨_, fun _ => le_rfl, ?_⟩
    dsimp only
    rw [writes_eq, List.take_length]
  | some made =>
    dsimp only
    rw [writes_eq]
    rcases Nat.lt_or_ge (scanPrefix s (chunkPrefix e.path)).length made with hlt | hle
    · refine Or.inr ⟨made - (scanPrefix s (chunkPrefix e.path)).length - 1, ?_, ?_⟩
      · exact fun h => absurd h (by simp)
      · obtain ⟨more, hmore⟩ := Nat.exists_eq_add_of_lt hlt
        have htake : made = ((scanPrefix s (chunkPrefix e.path)).map
            fun k => (k, (none : Option Bytes))).length + (more + 1) := by
          rw [List.length_map]
          omega
        have hrest : made - (scanPrefix s (chunkPrefix e.path)).length - 1 = more := by omega
        rw [hrest, htake, List.take_length_add_append, List.take_succ_cons]
    · refine Or.inl ⟨made, rfl, hle, ?_⟩
      rw [List.take_append_of_le_length (by rwa [List.length_map]), List.map_take]

/-- A key that belongs to a path. -/
def Own (path : LogicalPath) (k : Bytes) : Prop := k = path ∨ ∃ i, k = chunkKey path i

theorem own_newWrites {path : LogicalPath} {call : Call} {w : BlobWrite}
    (hw : w ∈ newWrites c path call) : Own path w.1 := by
  cases call with
  | put bytes =>
    rcases List.mem_append.mp hw with hw | hw
    · obtain ⟨⟨part, i⟩, -, rfl⟩ := List.mem_map.mp hw
      exact Or.inr ⟨i, rfl⟩
    · obtain rfl := List.mem_singleton.mp hw
      exact Or.inl rfl
  | delete => exact absurd hw List.not_mem_nil

theorem Own.path_eq {p q : LogicalPath} {k : Bytes} (h : Own p k)
    (hk : k = q ∨ ∃ i, k = chunkKey q i) : p = q := by
  rcases h with rfl | ⟨i, rfl⟩
  · rcases hk with hk | ⟨j, hk⟩
    · exact Subtype.ext hk
    · exact absurd hk.symm (chunkKey_ne_path q p j)
  · rcases hk with hk | ⟨j, hk⟩
    · exact absurd hk (chunkKey_ne_path p q i)
    · exact (chunkKey_inj hk).1

theorem Holds.rewrite (h : Holds c s held) {path : LogicalPath} {ws : List BlobWrite}
    (hown : ∀ w ∈ ws, Own path w.1) {value : Option Value}
    (hmanifest : (s.writeAll ws).get path = value.map fun v => manifestOf v.1.length)
    (hchunks : ∀ v, value = some v →
      ∀ i, (s.writeAll ws).get (chunkKey path i) = (chunks c.chunkSize v.1)[i]?) :
    Holds c (s.writeAll ws) (Function.update held path value) where
  manifest := by
    intro q
    by_cases hq : q = path
    · subst hq
      rw [Function.update_self, hmanifest]
    · rw [Function.update_of_ne hq, ← h.manifest q]
      apply OrderedMap.get_writeAll_of_forall_ne
      intro w hw hkey
      exact hq ((hown w hw).path_eq (Or.inl hkey)).symm
  chunkAt := by
    intro q v hv i
    by_cases hq : q = path
    · subst hq
      rw [Function.update_self] at hv
      exact hchunks v hv i
    · rw [Function.update_of_ne hq] at hv
      rw [← h.chunkAt q v hv i]
      apply OrderedMap.get_writeAll_of_forall_ne
      intro w hw hkey
      exact hq ((hown w hw).path_eq (Or.inr ⟨i, hkey⟩)).symm
  keys := by
    intro k hk
    by_cases hw : ∃ w ∈ ws, w.1 = k
    · obtain ⟨w, hw, rfl⟩ := hw
      rcases hown w hw with hkey | ⟨i, hkey⟩
      · exact Or.inl ⟨path, hkey⟩
      · exact Or.inr ⟨path, i, hkey⟩
    · apply h.keys
      rw [OrderedMap.get_writeAll_of_forall_ne] at hk
      · exact hk
      · intro w hmem hkey
        exact hw ⟨w, hmem, hkey⟩

theorem own_deletes (h : Holds c s held) {path : LogicalPath} {ks : List Bytes}
    (hks : ∀ k ∈ ks, k ∈ scanPrefix s (chunkPrefix path)) :
    ∀ w ∈ ks.map fun k => (k, (none : Option Bytes)), ∃ i, w.1 = chunkKey path i := by
  intro w hw
  obtain ⟨k, hk, rfl⟩ := List.mem_map.mp hw
  exact h.mem_scan (hks k hk)

theorem get_path_deletes (h : Holds c s held) {path : LogicalPath} {ks : List Bytes}
    (hks : ∀ k ∈ ks, k ∈ scanPrefix s (chunkPrefix path)) :
    (s.writeAll (ks.map (·, none))).get path = s.get path := by
  apply OrderedMap.get_writeAll_of_forall_ne
  intro w hw hkey
  obtain ⟨i, hi⟩ := own_deletes h hks w hw
  exact chunkKey_ne_path path path i (hi.symm.trans hkey)

/-- The store with all keys of a path deleted. -/
def cleared (s : Blobs) (path : LogicalPath) : Blobs :=
  (s.writeAll ((scanPrefix s (chunkPrefix path)).map (·, none))).write (path.1, none)

theorem cleared_path (s : Blobs) (path : LogicalPath) : (cleared s path).get path = none := by
  rw [cleared, OrderedMap.get_write, if_pos rfl]

theorem cleared_chunk (s : Blobs) (path : LogicalPath) (i : ℕ) :
    (cleared s path).get (chunkKey path i) = none := by
  rw [cleared, OrderedMap.get_write, if_neg (chunkKey_ne_path path path i),
    OrderedMap.get_writeAll_deletes]
  split_ifs with hmem
  · rfl
  · by_contra hlive
    exact hmem (mem_scanPrefix.mpr ⟨prefix_chunkKey path i, Option.isSome_iff_ne_none.mpr hlive⟩)

theorem writeAll_cleared (s : Blobs) (path : LogicalPath) (ws : List BlobWrite) :
    s.writeAll ((scanPrefix s (chunkPrefix path)).map (·, none) ++ (path.1, none) :: ws) =
      (cleared s path).writeAll ws := by
  rw [OrderedMap.writeAll_append, OrderedMap.writeAll_cons]
  rfl

theorem get_path_part (s : Blobs) (path : LogicalPath) (call : Call) {made : ℕ}
    (hmade : made < (newWrites c path call).length) :
    ((cleared s path).writeAll ((newWrites c path call).take made)).get path = none := by
  rw [OrderedMap.get_writeAll_of_forall_ne, cleared_path]
  intro w hw hkey
  cases call with
  | put bytes =>
    rw [newWrites, ChunkedBlobStore.valueWrites, List.length_append, List.length_singleton] at hmade
    rw [newWrites, ChunkedBlobStore.valueWrites, List.take_append_of_le_length (by omega)] at hw
    obtain ⟨⟨part, i⟩, -, rfl⟩ := List.mem_map.mp (List.mem_of_mem_take hw)
    exact chunkKey_ne_path path path i hkey
  | delete => exact absurd hmade (Nat.not_lt_zero made)

theorem get_path_value (s : Blobs) (path : LogicalPath) (bytes : Value) :
    ((cleared s path).writeAll (c.valueWrites path bytes)).get path =
      some (manifestOf bytes.1.length) := by
  apply OrderedMap.get_writeAll_of_mem
  · exact List.mem_append_right _ (List.mem_singleton.mpr rfl)
  · intro w hw hkey
    rcases List.mem_append.mp hw with hw | hw
    · obtain ⟨⟨part, i⟩, -, rfl⟩ := List.mem_map.mp hw
      exact absurd hkey (chunkKey_ne_path path path i)
    · obtain rfl := List.mem_singleton.mp hw
      rfl

theorem get_chunk_value (s : Blobs) (path : LogicalPath) (bytes : Value) (i : ℕ) :
    ((cleared s path).writeAll (c.valueWrites path bytes)).get (chunkKey path i) =
      (chunks c.chunkSize bytes.1)[i]? := by
  have hwritten : ∀ w ∈ c.valueWrites path bytes, w.1 = chunkKey path i →
      w.2 = (chunks c.chunkSize bytes.1)[i]? := by
    intro w hw hkey
    rcases List.mem_append.mp hw with hw | hw
    · obtain ⟨⟨part, j⟩, hpart, rfl⟩ := List.mem_map.mp hw
      obtain ⟨-, rfl⟩ := chunkKey_inj hkey
      exact (List.mem_zipIdx_iff_getElem?.mp hpart).symm
    · obtain rfl := List.mem_singleton.mp hw
      exact absurd hkey.symm (chunkKey_ne_path path path i)
  cases hpart : (chunks c.chunkSize bytes.1)[i]? with
  | none =>
    rw [OrderedMap.get_writeAll_of_forall_ne, cleared_chunk]
    intro w hw hkey
    rcases List.mem_append.mp hw with hw | hw
    · obtain ⟨⟨part, j⟩, hmem, rfl⟩ := List.mem_map.mp hw
      obtain ⟨-, rfl⟩ := chunkKey_inj hkey
      rw [List.mem_zipIdx_iff_getElem?.mp hmem] at hpart
      cases hpart
    · obtain rfl := List.mem_singleton.mp hw
      exact absurd hkey.symm (chunkKey_ne_path path path i)
  | some part =>
    apply OrderedMap.get_writeAll_of_mem
    · apply List.mem_append_left
      exact List.mem_map.mpr ⟨(part, i), List.mem_zipIdx_iff_getElem?.mpr hpart, rfl⟩
    · intro w hw hkey
      rw [hwritten w hw hkey, hpart]

theorem Allowed.update {e : Event} {value : Option Value}
    (hcompleted : e.stop = none → value = e.call.value)
    (hstopped : value = held e.path ∨ value = none ∨ value = e.call.value) :
    Allowed held e (Function.update held e.path value) where
  others _ hq := Function.update_of_ne hq ..
  completed h := by rw [Function.update_self, hcompleted h]
  stopped := by rwa [Function.update_self]

theorem Holds.play (h : Holds c s held) {e : Event} (he : ¬ Torn s e) :
    ∃ held', Allowed held e held' ∧ Holds c (c.play s e) held' := by
  rcases play_cases c s e with ⟨made, hstop, hle, hplay⟩ | ⟨made, hstop, hplay⟩
  · have hcompleted : e.stop = none → held e.path = e.call.value := by
      rw [hstop]
      exact fun h => absurd h (by simp)
    refine ⟨_, Allowed.update hcompleted (Or.inl rfl), ?_⟩
    rw [hplay]
    have hks : ∀ k ∈ (scanPrefix s (chunkPrefix e.path)).take made,
        k ∈ scanPrefix s (chunkPrefix e.path) := fun k hk => List.mem_of_mem_take hk
    apply h.rewrite (fun w hw => Or.inr (own_deletes h hks w hw))
    · rw [get_path_deletes h hks, h.manifest]
    · intro v hv i
      -- a chunk is deleted only where there is no manifest
      have hnone : made = 0 := by
        by_contra hmade
        refine he ⟨?_, made, hstop, Nat.pos_of_ne_zero hmade, hle⟩
        rw [h.manifest, hv]
        rfl
      rw [hnone, List.take_zero, List.map_nil, OrderedMap.writeAll_nil]
      exact h.chunkAt e.path v hv i
  · have hown : ∀ w ∈ (scanPrefix s (chunkPrefix e.path)).map (fun k => (k, none)) ++
        (e.path.1, none) :: (newWrites c e.path e.call).take made, Own e.path w.1 := by
      intro w hw
      rcases List.mem_append.mp hw with hw | hw
      · exact Or.inr (own_deletes h (fun _ hk => hk) w hw)
      · rcases List.mem_cons.mp hw with rfl | hw
        · exact Or.inl rfl
        · exact own_newWrites (List.mem_of_mem_take hw)
    rw [hplay]
    rcases Nat.lt_or_ge made (newWrites c e.path e.call).length with hlt | hge
    · have hcompleted : e.stop = none → none = e.call.value :=
        fun hnone => absurd (hstop hnone) (not_le.mpr hlt)
      refine ⟨_, Allowed.update hcompleted (Or.inr (Or.inl rfl)), h.rewrite hown ?_ ?_⟩
      · rw [writeAll_cleared, get_path_part s e.path e.call hlt]
        rfl
      · exact fun v hv => absurd hv (by simp)
    · refine ⟨_, Allowed.update (fun _ => rfl) (Or.inr (Or.inr rfl)), h.rewrite hown ?_ ?_⟩
      · rw [writeAll_cleared, List.take_of_length_le hge]
        cases hcall : e.call with
        | put bytes => exact get_path_value s e.path bytes
        | delete => exact cleared_path s e.path
      · intro v hv i
        rw [writeAll_cleared, List.take_of_length_le hge]
        cases hcall : e.call with
        | put bytes =>
          rw [hcall] at hv
          obtain rfl : bytes = v := Option.some.inj hv
          exact get_chunk_value s e.path bytes i
        | delete =>
          rw [hcall] at hv
          exact absurd hv (by simp [Call.value])

/-- After a torn call a range of the old value answers with a missing chunk, which no
held value does. -/
theorem Holds.not_reads_of_torn (h : Holds c s held) {e : Event} (he : Torn s e) (held' : Held) :
    ¬ Reads c (c.play s e) held' := by
  obtain ⟨hmanifest, made, hstop, hpos, hle⟩ := he
  obtain ⟨v, hv⟩ : ∃ v, held e.path = some v := by
    rw [h.manifest, Option.isSome_map] at hmanifest
    exact Option.isSome_iff_exists.mp hmanifest
  intro hreads
  have hplay : c.play s e =
      s.writeAll (((scanPrefix s (chunkPrefix e.path)).take made).map (·, none)) := by
    unfold ChunkedBlobStore.play
    rw [hstop]
    dsimp only
    rw [writes_eq, List.take_append_of_le_length (by rwa [List.length_map]), List.map_take]
  have hks : ∀ k ∈ (scanPrefix s (chunkPrefix e.path)).take made,
      k ∈ scanPrefix s (chunkPrefix e.path) := fun k hk => List.mem_of_mem_take hk
  -- the first key of the scan is a chunk of the old value
  obtain ⟨k, hk⟩ : ∃ k, k ∈ (scanPrefix s (chunkPrefix e.path)).take made := by
    apply List.exists_mem_of_length_pos
    rw [List.length_take]
    omega
  obtain ⟨i, rfl⟩ := h.mem_scan (hks k hk)
  have hlive := (mem_scanPrefix.mp (hks _ hk)).2
  rw [h.chunkAt e.path v hv, getElem?_chunks c.positive] at hlive
  have hi : i * c.chunkSize < v.1.length := by
    by_contra hge
    rw [if_neg hge] at hlive
    exact absurd hlive (by simp)
  have hgone : (c.play s e).get (chunkKey e.path i) = none := by
    rw [hplay, OrderedMap.get_writeAll_deletes, if_pos hk]
  have hlength : ChunkedBlobStore.readManifest (c.play s e) e.path = .ok v.1.length := by
    unfold ChunkedBlobStore.readManifest getAll
    rw [hplay, get_path_deletes h hks, h.manifest, hv]
    simp only [Option.map_some, bind, Except.bind]
    rw [if_pos (length_manifestOf _), fromLeBytes_manifestOf v.2]
  have hrange := hreads.range e.path (i * c.chunkSize) (i * c.chunkSize + 1)
  unfold ChunkedBlobStore.getRangeChunked at hrange
  rw [hlength] at hrange
  simp only [bind, Except.bind] at hrange
  rw [if_neg (by omega), if_neg (by omega), Nat.add_sub_cancel, Nat.mul_div_cancel _ c.positive,
    Nat.sub_self] at hrange
  have hchunk : c.readChunk (c.play s e) e.path (i * c.chunkSize) (i * c.chunkSize + 1) i =
      .error (.missing (chunkKey e.path i)) := by
    unfold ChunkedBlobStore.readChunk getAll
    rw [hgone]
    rfl
  rw [Nat.zero_add, List.range'_one, List.mapM_cons, hchunk] at hrange
  have hmissing : expectedRange e.path (held' e.path) (i * c.chunkSize) (i * c.chunkSize + 1) =
      .error (.missing (chunkKey e.path i)) := hrange.symm
  unfold expectedRange at hmissing
  split at hmissing
  · injection hmissing with hmissing
    injection hmissing with hkey
    exact chunkKey_ne_path e.path e.path i hkey.symm
  · split_ifs at hmissing
    injection hmissing with hmissing
    cases hmissing

theorem Reads.held_unique {held₁ held₂ : Held} (h₁ : Reads c s held₁) (h₂ : Reads c s held₂) :
    held₁ = held₂ := by
  funext path
  have hall := (h₁.all path).symm.trans (h₂.all path)
  unfold expectedAll at hall
  cases hv : held₁ path with
  | none =>
    cases hv' : held₂ path with
    | none => rfl
    | some v' =>
      rw [hv, hv'] at hall
      cases hall
  | some v =>
    cases hv' : held₂ path with
    | none =>
      rw [hv, hv'] at hall
      cases hall
    | some v' =>
      rw [hv, hv'] at hall
      rw [Subtype.ext (Except.ok.inj hall)]

theorem Answers.reads {run : List Event} (h : Answers c s held run) : Reads c s held := by
  cases run with
  | nil => exact h
  | cons e rest => exact h.1

theorem Holds.answers_iff (h : Holds c s held) (run : List Event) :
    Answers c s held run ↔ Intact c s run := by
  induction run generalizing s held with
  | nil => exact ⟨fun _ => trivial, fun _ => h.reads⟩
  | cons e rest ih =>
    constructor
    · rintro ⟨-, held', hallowed, hrest⟩
      have he : ¬ Torn s e := fun he => h.not_reads_of_torn he held' hrest.reads
      obtain ⟨held'', -, hholds⟩ := h.play he
      obtain rfl := Reads.held_unique hholds.reads hrest.reads
      exact ⟨he, (ih hholds).mp hrest⟩
    · rintro ⟨he, hrest⟩
      obtain ⟨held', hallowed, hholds⟩ := h.play he
      exact ⟨h.reads, held', hallowed, (ih hholds).mpr hrest⟩

/-- Every path reads back after every call of a run, as the last value put or, behind a
call that stopped early, as the old value, the new one or none, exactly when no call
stops between the deletion of a chunk and that of the manifest it found. -/
theorem run_answers_iff (c : ChunkedBlobStore) (run : List Event) :
    Answers c .empty (fun _ => none) run ↔ Intact c .empty run :=
  (Holds.empty c).answers_iff run

namespace Example

def blob : LogicalPath := ⟨[98], by decide⟩

/-- A value of two bytes is put, and a second put stops after its first deletion. -/
def tornPut : List Event :=
  [⟨blob, .put ⟨[1, 2], by decide⟩, none⟩, ⟨blob, .put ⟨[3], by decide⟩, some 1⟩]

theorem tornPut_not_answers : ¬ Answers ⟨4, by decide⟩ .empty (fun _ => none) tornPut := by
  intro h
  obtain ⟨-, htorn, -⟩ := ((Holds.empty ⟨4, by decide⟩).answers_iff tornPut).mp h
  refine htorn ⟨by decide +kernel, 1, rfl, by decide, by decide +kernel⟩

end Example

end BlueDB.Storage
