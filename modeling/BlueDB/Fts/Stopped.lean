import BlueDB.Fts.Found

/-!
# Calls that stop

A call of an index persists one blob after another and may stop after any of them; then
the index is opened again. The documents that were persisted last are kept as a history.
-/

namespace BlueDB.Fts

open Generations

/-- A document of the schema. -/
abbrev Doc (schema : Schema) := {d : TantivyDocument // Conforms schema d}

/-- The calls that write. A compaction comes with what its policy says. -/
inductive Call (schema : Schema)
  | append (docs : List (Doc schema))
  | update (ids : List String) (docs : List (Doc schema))
  | delete (ids : List String)
  | compact (fires : Bool)

def maybeCompactIf (fires : Bool) (schema : Schema) (b : Blobs) : Option (List Write) :=
  let plan := planCompaction b.manifest
  if fires && !plan.isEmpty then
    (openSplits b (b.manifest.filter fun m => decide (m.splitId ∈ plan))).bind fun opened =>
      compact schema opened b
  else some []

variable {schema : Schema}

/-- The writes of a call, none when it fails. -/
def Call.writes (b : Blobs) : Call schema → List Write
  | append docs => Fts.append schema (docs.map Subtype.val) b
  | update ids docs => Fts.update schema ids (docs.map Subtype.val) b
  | delete ids => Fts.delete ids b
  | compact fires => (maybeCompactIf fires schema b).getD []

/-- The newest document of each id that was not deleted. -/
abbrev Latest := String → Option TantivyDocument

def Latest.put (latest : Latest) (docs : List (Doc schema)) : Latest :=
  docs.foldl (fun l d => Function.update l d.1.id (some d.1)) latest

def Latest.remove (latest : Latest) (ids : List String) : Latest :=
  fun id => if id ∈ ids then none else latest id

/-- A manifest persists documents, and tombstones persist deletions. -/
def Call.persisted (stop : ℕ) (latest : Latest) : Call schema → Latest
  | append docs => if 2 ≤ stop then latest.put docs else latest
  | update ids docs => if 3 ≤ stop then (latest.remove ids).put docs
    else if 2 ≤ stop then latest.put docs else latest
  | delete ids => if 1 ≤ stop then latest.remove ids else latest
  | compact _ => latest

structure FtsIndex where
  blobs : Blobs
  latest : Latest

def FtsIndex.empty : FtsIndex := ⟨.empty, fun _ => none⟩

def FtsIndex.call (s : FtsIndex) (c : Call schema) (stop : ℕ) : FtsIndex :=
  ⟨s.blobs.writeAll ((c.writes s.blobs).take stop), c.persisted stop s.latest⟩

def FtsIndex.run (s : FtsIndex) (calls : List (Call schema × ℕ)) : FtsIndex :=
  calls.foldl (fun s c => s.call c.1 c.2) s

variable {Query Score : Type} [LinearOrder Score]

/-- A search finds the latest documents that match, each once. It finds all of them unless
there are more than its limit. -/
def FtsIndex.Answers (schema : Schema) (T : Tantivy Query Score) (s : FtsIndex) : Prop :=
  ∀ q limit, 0 < limit → ∃ hits, searchQueryIds T q limit s.blobs = .ok hits ∧
    (hits.map Prod.fst).Nodup ∧
    (∀ id ∈ hits.map Prod.fst, ∃ d, s.latest id = some d ∧ T.isMatch q schema d = true) ∧
    ∀ id d, s.latest id = some d → T.isMatch q schema d = true →
      id ∈ hits.map Prod.fst ∨ hits.length = limit

/-- The write leaves the blobs of a manifest alone. -/
def Write.Spares (m : Manifest) : Write → Prop
  | .putSplit id _ | .deleteSplit id => ∀ s ∈ m, s.splitId ≠ id
  | _ => True

def Blobs.Spared (b : Blobs) : List Write → Prop
  | [] => True
  | w :: rest => w.Spares b.manifest ∧ (b.write w).Spared rest

/-- A batch has one document of an id. The ids that it takes over are deleted, and the call
does not stop between the manifest and the tombstones. -/
def Call.Careful (latest : Latest) (stop : ℕ) : Call schema → Prop
  | append docs => 2 ≤ stop → (docs.map fun d => d.1.id).Nodup ∧
    ∀ d ∈ docs, latest d.1.id = none
  | update ids docs => 2 ≤ stop → (docs.map fun d => d.1.id).Nodup ∧
    ∀ d ∈ docs, latest d.1.id = none ∨ d.1.id ∈ ids ∧ 3 ≤ stop
  | delete _ | compact _ => True

/-- All calls of a run are careful. -/
def FtsIndex.CarefulRun (s : FtsIndex) : List (Call schema × ℕ) → Prop
  | [] => True
  | c :: rest => c.1.Careful s.latest c.2 ∧ (s.call c.1 c.2).CarefulRun rest

variable {b b' : Blobs} {opened : List Opened}

theorem Ready.putSplit (h : Ready schema b opened) {id : SplitId}
    (hnew : ∀ s ∈ b.manifest, s.splitId ≠ id) (split : Split) :
    Ready schema (b.write (.putSplit id split)) opened where
  __ := h
  opens := by
    refine (openSplits_congr (b := b) ?_).trans h.opens
    intro s hs
    exact Function.update_of_ne (hnew s hs) _ _

def Holds (schema : Schema) (s : FtsIndex) : Prop :=
  ∃ opened, Ready schema s.blobs opened ∧
    ∀ id d, s.latest id = some d ↔ d ∈ liveDocs s.blobs opened ∧ d.id = id

theorem Holds.empty (schema : Schema) : Holds schema .empty := by
  refine ⟨[], .empty schema, ?_⟩
  intro id d
  exact ⟨nofun, fun h => absurd h.1 List.not_mem_nil⟩

theorem Latest.put_of_notMem {latest : Latest} {docs : List (Doc schema)} {id : String}
    (h : id ∉ docs.map fun d => d.1.id) : latest.put docs id = latest id := by
  induction docs generalizing latest with
  | nil => rfl
  | cons d rest ih =>
    rw [List.map_cons, List.mem_cons, not_or] at h
    change Latest.put (Function.update latest d.1.id (some d.1)) rest id = _
    rw [ih h.2, Function.update_of_ne h.1]

theorem Latest.put_of_mem {latest : Latest} {docs : List (Doc schema)} {d : Doc schema}
    (hnodup : (docs.map fun d => d.1.id).Nodup) (h : d ∈ docs) :
    latest.put docs d.1.id = some d.1 := by
  induction docs generalizing latest with
  | nil => exact absurd h List.not_mem_nil
  | cons d' rest ih =>
    rw [List.map_cons, List.nodup_cons] at hnodup
    change Latest.put (Function.update latest d'.1.id (some d'.1)) rest d.1.id = _
    rcases List.mem_cons.mp h with rfl | h
    · rw [put_of_notMem hnodup.1, Function.update_self]
    · exact ih hnodup.2 h

/-- Documents put over a history are found, and the others that are not overwritten. -/
theorem Latest.put_iff {latest : Latest} {docs : List (Doc schema)} {id : String}
    {d : TantivyDocument} (hnodup : (docs.map fun d => d.1.id).Nodup)
    (hnew : ∀ d ∈ docs, latest d.1.id = none) :
    latest.put docs id = some d ↔ latest id = some d ∨ d ∈ docs.map Subtype.val ∧ d.id = id := by
  by_cases hmem : id ∈ docs.map fun d => d.1.id
  · obtain ⟨d', hd', rfl⟩ := List.mem_map.mp hmem
    rw [put_of_mem hnodup hd', hnew d' hd']
    constructor
    · rintro ⟨⟩
      exact Or.inr ⟨List.mem_map_of_mem hd', rfl⟩
    · rintro (hnone | ⟨hd, hid⟩)
      · cases hnone
      · obtain ⟨d'', hd'', rfl⟩ := List.mem_map.mp hd
        rw [List.inj_on_of_nodup_map hnodup hd' hd'' hid.symm]
  · rw [put_of_notMem hmem]
    constructor
    · exact Or.inl
    · rintro (hsome | ⟨hd, rfl⟩)
      · exact hsome
      · obtain ⟨d', hd', rfl⟩ := List.mem_map.mp hd
        exact absurd (List.mem_map_of_mem (f := fun d : Doc schema => d.1.id) hd') hmem

variable {s : FtsIndex}

theorem Holds.live_nodup {docs : List (Doc schema)} (hready : Ready schema b opened)
    {latest : Latest} (hlatest : ∀ id d, latest id = some d ↔ d ∈ liveDocs b opened ∧ d.id = id)
    (hnodup : (docs.map fun d => d.1.id).Nodup) (hnew : ∀ d ∈ docs, latest d.1.id = none) :
    ((liveDocs b opened ++ docs.map Subtype.val).map TantivyDocument.id).Nodup := by
  rw [List.map_append, List.map_map]
  apply hready.live.append hnodup
  intro id hlive hid
  obtain ⟨d, hd, rfl⟩ := List.mem_map.mp hlive
  obtain ⟨d', hd', heq⟩ := List.mem_map.mp hid
  have hsome := (hlatest d.id d).mpr ⟨hd, rfl⟩
  rw [← heq] at hsome
  exact absurd ((hnew d' hd').symm.trans hsome) nofun

theorem conforms_docs (docs : List (Doc schema)) :
    ∀ d ∈ docs.map Subtype.val, Conforms schema d := by
  intro d hd
  obtain ⟨d', -, rfl⟩ := List.mem_map.mp hd
  exact d'.2

theorem Holds.upload (h : Holds schema s) {id : SplitId}
    (hnew : ∀ m ∈ s.blobs.manifest, m.splitId ≠ id) (split : Split) :
    Holds schema ⟨s.blobs.write (.putSplit id split), s.latest⟩ := by
  obtain ⟨opened, hready, hlatest⟩ := h
  exact ⟨opened, hready.putSplit hnew split, hlatest⟩

theorem Holds.append (h : Holds schema s) {docs : List (Doc schema)}
    (hnodup : (docs.map fun d => d.1.id).Nodup) (hnew : ∀ d ∈ docs, s.latest d.1.id = none) :
    Holds schema ⟨s.blobs.writeAll (Fts.append schema (docs.map Subtype.val) s.blobs),
      s.latest.put docs⟩ := by
  obtain ⟨opened, hready, hlatest⟩ := h
  obtain ⟨hready', hlive⟩ := hready.append (conforms_docs docs)
    (Holds.live_nodup hready hlatest hnodup hnew)
  refine ⟨_, hready', ?_⟩
  intro id d
  dsimp only
  rw [Latest.put_iff hnodup hnew, hlive, List.mem_append, or_and_right, hlatest]

theorem Holds.delete (h : Holds schema s) (ids : List String) :
    Holds schema ⟨s.blobs.writeAll (Fts.delete ids s.blobs), s.latest.remove ids⟩ := by
  obtain ⟨opened, hready, hlatest⟩ := h
  refine ⟨opened, hready.delete ids, ?_⟩
  intro id d
  dsimp only
  rw [liveDocs_delete hready, List.mem_filter, Bool.not_eq_true', decide_eq_false_iff_not]
  unfold Latest.remove
  split_ifs with hid
  · constructor
    · nofun
    · rintro ⟨⟨-, hout⟩, rfl⟩
      exact absurd hid hout
  · rw [hlatest]
    constructor
    · rintro ⟨hd, rfl⟩
      exact ⟨⟨hd, hid⟩, rfl⟩
    · rintro ⟨⟨hd, -⟩, rfl⟩
      exact ⟨hd, rfl⟩

theorem Holds.update (h : Holds schema s) {ids : List String} {docs : List (Doc schema)}
    (hnodup : (docs.map fun d => d.1.id).Nodup)
    (hnew : ∀ d ∈ docs, s.latest d.1.id = none ∨ d.1.id ∈ ids) :
    Holds schema ⟨s.blobs.writeAll (Fts.update schema ids (docs.map Subtype.val) s.blobs),
      (s.latest.remove ids).put docs⟩ := by
  have hremoved : ∀ d ∈ docs, s.latest.remove ids d.1.id = none := by
    intro d hd
    unfold Latest.remove
    split_ifs with hid
    · rfl
    · exact (hnew d hd).resolve_right hid
  rw [update_eq]
  exact (h.delete ids).append hnodup hremoved

theorem Holds.compact (h : Holds schema s) (fires : Bool) (stop : ℕ) :
    Holds schema ⟨s.blobs.writeAll (((maybeCompactIf fires schema s.blobs).getD []).take stop),
      s.latest⟩ := by
  obtain ⟨opened, hready, hlatest⟩ := h
  unfold maybeCompactIf
  dsimp only
  split_ifs with hfires
  · have hall : (s.blobs.manifest.filter fun m =>
        decide (m.splitId ∈ planCompaction s.blobs.manifest)) = s.blobs.manifest := by
      apply List.filter_eq_self.mpr
      intro m hm
      rw [decide_eq_true_iff]
      exact List.mem_map_of_mem hm
    obtain ⟨gone, hwrites⟩ := hready.compact_eq
    rw [hall, hready.opens, Option.bind_some, hwrites, Option.getD_some]
    have hupload := Holds.upload ⟨opened, hready, hlatest⟩
      (fun m hm => hready.compacted_ne hm) ⟨schema, liveDocs s.blobs opened⟩
    have hmerged : ∀ {b'}, b'.manifest = [⟨.compacted (maxGeneration s.blobs.manifest + 1),
          (liveDocs s.blobs opened).length, maxGeneration s.blobs.manifest + 1⟩] →
        b'.splits (.compacted (maxGeneration s.blobs.manifest + 1)) =
          some ⟨schema, liveDocs s.blobs opened⟩ →
        (∀ id d, b'.tombstones.get id = some d → s.blobs.tombstones.get id = some d) →
        Holds schema ⟨b', s.latest⟩ := by
      intro b' hmanifest hsplit hsub
      obtain ⟨hready', hlive⟩ := hready.merged hmanifest hsplit hsub
      refine ⟨_, hready', ?_⟩
      rw [hlive]
      exact hlatest
    match stop with
    | 0 => exact ⟨opened, hready, hlatest⟩
    | 1 => exact hupload
    | 2 => exact hmerged rfl (Function.update_self ..) fun _ _ hd => hd
    | k + 3 =>
      have htake : (compaction schema s.blobs opened gone).take (k + 3) =
          (compaction schema s.blobs opened gone).take 3 ++
            (s.blobs.manifest.take k).map fun m => .deleteSplit m.splitId := by
        rw [List.map_take]
        rfl
      rw [htake]
      unfold Blobs.writeAll
      rw [List.foldl_append]
      obtain ⟨hmanifest, htombstones, hsplits⟩ := writes_deletes
        (((compaction schema s.blobs opened gone).take 3).foldl Blobs.write s.blobs)
        (s.blobs.manifest.take k)
      have hsplit := hsplits (.compacted (maxGeneration s.blobs.manifest + 1)) fun m hm =>
        hready.compacted_ne (List.mem_of_mem_take hm)
      refine hmerged hmanifest (hsplit.trans (Function.update_self ..)) ?_
      intro id d hd
      have hd' : OrderedMap.get _ id = some d := htombstones ▸ hd
      exact get_erases _ _ _ d hd'
  · rw [Option.getD_some, List.take_nil]
    exact ⟨opened, hready, hlatest⟩

theorem FtsIndex.call_whole {c : Call schema} {stop : ℕ}
    (h : (c.writes s.blobs).length ≤ stop) :
    s.call c stop = ⟨s.blobs.writeAll (c.writes s.blobs), c.persisted stop s.latest⟩ := by
  unfold call
  rw [List.take_of_length_le h]

theorem Holds.call (h : Holds schema s) {c : Call schema} {stop : ℕ}
    (hcareful : c.Careful s.latest stop) : Holds schema (s.call c stop) := by
  cases c with
  | append docs =>
    match stop with
    | 0 => exact h
    | 1 => exact h.upload (fun m hm => mintSplitId_ne hm) _
    | k + 2 =>
      obtain ⟨hnodup, hnew⟩ := hcareful (Nat.le_add_left 2 k)
      have hpersisted : (Call.append docs).persisted (k + 2) s.latest = s.latest.put docs := by
        unfold Call.persisted
        dsimp only
        rw [if_pos (Nat.le_add_left 2 k)]
      rw [FtsIndex.call_whole (Nat.le_add_left 2 k), hpersisted]
      exact h.append hnodup hnew
  | update ids docs =>
    match stop with
    | 0 => exact h
    | 1 => exact h.upload (fun m hm => mintSplitId_ne hm) _
    | 2 =>
      obtain ⟨hnodup, hnew⟩ := hcareful le_rfl
      exact h.append hnodup fun d hd =>
        (hnew d hd).resolve_right fun htaken => absurd htaken.2 (by decide)
    | k + 3 =>
      obtain ⟨hnodup, hnew⟩ := hcareful (by omega)
      have hpersisted : (Call.update ids docs).persisted (k + 3) s.latest =
          (s.latest.remove ids).put docs := by
        unfold Call.persisted
        dsimp only
        rw [if_pos (Nat.le_add_left 3 k)]
      rw [FtsIndex.call_whole (Nat.le_add_left 3 k), hpersisted]
      exact h.update hnodup fun d hd => (hnew d hd).imp_right And.left
  | delete ids =>
    match stop with
    | 0 => exact h
    | k + 1 =>
      have hpersisted : (Call.delete ids : Call schema).persisted (k + 1) s.latest =
          s.latest.remove ids := by
        unfold Call.persisted
        dsimp only
        rw [if_pos (Nat.le_add_left 1 k)]
      rw [FtsIndex.call_whole (Nat.le_add_left 1 k), hpersisted]
      exact h.delete ids
  | compact fires => exact h.compact fires stop

theorem Blobs.Spared.append {ws ws' : List Write} (h : b.Spared ws)
    (h' : (b.writeAll ws).Spared ws') : b.Spared (ws ++ ws') := by
  induction ws generalizing b with
  | nil => exact h'
  | cons w rest ih => exact ⟨h.1, ih h.2 h'⟩

theorem spared_deletes {m : Manifest} (h : ∀ s ∈ m, ∀ s' ∈ b.manifest, s'.splitId ≠ s.splitId) :
    b.Spared (m.map fun s => .deleteSplit s.splitId) := by
  induction m generalizing b with
  | nil => trivial
  | cons s rest ih =>
    refine ⟨h s List.mem_cons_self, ih ?_⟩
    intro s'' hs''
    exact h s'' (List.mem_cons_of_mem _ hs'')

theorem Holds.spared (h : Holds schema s) (c : Call schema) :
    s.blobs.Spared (c.writes s.blobs) := by
  have hmint : ∀ m ∈ s.blobs.manifest, m.splitId ≠ mintSplitId s.blobs.manifest :=
    fun m hm => mintSplitId_ne hm
  obtain ⟨opened, hready, -⟩ := h
  cases c with
  | append docs => exact ⟨hmint, trivial, trivial⟩
  | update ids docs => exact ⟨hmint, trivial, trivial, trivial⟩
  | delete ids => exact ⟨trivial, trivial⟩
  | compact fires =>
    change s.blobs.Spared ((maybeCompactIf fires schema s.blobs).getD [])
    unfold maybeCompactIf
    dsimp only
    split_ifs with hfires
    · have hall : (s.blobs.manifest.filter fun m =>
          decide (m.splitId ∈ planCompaction s.blobs.manifest)) = s.blobs.manifest := by
        apply List.filter_eq_self.mpr
        intro m hm
        rw [decide_eq_true_iff]
        exact List.mem_map_of_mem hm
      obtain ⟨gone, hwrites⟩ := hready.compact_eq
      rw [hall, hready.opens, Option.bind_some, hwrites, Option.getD_some]
      have hfirst : ∀ m ∈ s.blobs.manifest,
          m.splitId ≠ .compacted (maxGeneration s.blobs.manifest + 1) :=
        fun m hm => hready.compacted_ne hm
      unfold compaction
      apply Blobs.Spared.append
      · exact ⟨hfirst, trivial, trivial, trivial⟩
      · apply spared_deletes
        intro m hm m' hm'
        obtain rfl := List.mem_singleton.mp hm'
        exact (hfirst m hm).symm
    · trivial

variable {T : Tantivy Query Score}

theorem Holds.answers (h : Holds schema s) : s.Answers schema T := by
  obtain ⟨opened, hready, hlatest⟩ := h
  intro q limit hlimit
  have hperm := TopK.sortBy_perm byScore (liveHits T q "" s.blobs.tombstones opened)
  have hids : ((liveHits T q "" s.blobs.tombstones opened).map Hit.id).Nodup :=
    hready.liveHits_nodup
  have hfirst : ((((rankedByScore T q s.blobs opened).take limit).map
      fun x => (x.id, x.score)).map Prod.fst) =
        ((rankedByScore T q s.blobs opened).take limit).map Hit.id := by
    rw [List.map_map]
    rfl
  have hmatch : ∀ id, id ∈ (liveHits T q "" s.blobs.tombstones opened).map Hit.id ↔
      ∃ d, s.latest id = some d ∧ T.isMatch q schema d = true := by
    intro id
    rw [liveHits_ids hready.uniform, List.mem_map]
    constructor
    · rintro ⟨d, hd, rfl⟩
      obtain ⟨hd, hmatch⟩ := List.mem_filter.mp hd
      exact ⟨d, (hlatest d.id d).mpr ⟨hd, rfl⟩, hmatch⟩
    · rintro ⟨d, hd, hmatch⟩
      obtain ⟨hlive, hid⟩ := (hlatest id d).mp hd
      exact ⟨d, List.mem_filter.mpr ⟨hlive, hmatch⟩, hid⟩
  refine ⟨_, hready.searchQueryIds hlimit, ?_, ?_, ?_⟩
  · rw [hfirst]
    exact ((hperm.map Hit.id).nodup_iff.mpr hids).sublist ((List.take_sublist _ _).map _)
  · intro id hid
    rw [hfirst] at hid
    obtain ⟨x, hx, rfl⟩ := List.mem_map.mp hid
    exact (hmatch x.id).mp (List.mem_map_of_mem (hperm.mem_iff.mp (List.mem_of_mem_take hx)))
  · intro id d hd hmatches
    obtain ⟨x, hx, rfl⟩ := List.mem_map.mp ((hmatch id).mpr ⟨d, hd, hmatches⟩)
    rw [hfirst, List.length_map]
    by_cases hlen : limit ≤ (rankedByScore T q s.blobs opened).length
    · exact Or.inr (List.length_take_of_le hlen)
    · left
      rw [List.take_of_length_le (le_of_not_ge hlen)]
      exact List.mem_map_of_mem (hperm.mem_iff.mpr hx)

theorem FtsIndex.run_holds (h : Holds schema s) {calls : List (Call schema × ℕ)}
    (hcareful : s.CarefulRun calls) : Holds schema (s.run calls) := by
  induction calls generalizing s with
  | nil => exact h
  | cons c rest ih =>
    obtain ⟨hc, hrest⟩ := hcareful
    exact ih (h.call hc) hrest

/-- After careful calls that may have stopped, a search finds exactly the latest documents
that match, and the next call harms no split of the manifest. -/
theorem FtsIndex.run_answers (T : Tantivy Query Score) {calls : List (Call schema × ℕ)}
    (hcareful : FtsIndex.empty.CarefulRun calls) :
    (FtsIndex.empty.run calls).Answers schema T ∧
      ∀ c : Call schema, (FtsIndex.empty.run calls).blobs.Spared
        (c.writes (FtsIndex.empty.run calls).blobs) := by
  have hholds := run_holds (Holds.empty schema) hcareful
  exact ⟨hholds.answers, hholds.spared⟩

namespace StoppedExample

def text : Schema := [("body", .text .standard)]

def doc (body : String) : Doc text := ⟨⟨"1", [(0, .str body)]⟩, rfl, rfl⟩

/-- A query is the body that it looks for. -/
def search : Tantivy String ℕ where
  isMatch q _ d := decide (d.values = [(0, .str q)])
  score _ _ _ := 0
  noScore := 0
  missingFirst := false

/-- The upload and the manifest of the second update are persisted, its tombstones are
not. -/
def stopped : List (Call text × ℕ) := [(.update ["1"] [doc "a"], 3), (.update ["1"] [doc "b"], 2)]

/-- The second update stops after its upload and is sent again. The document is deleted and
appended anew before the splits are compacted. -/
def careful : List (Call text × ℕ) :=
  [(.update ["1"] [doc "a"], 3), (.update ["1"] [doc "b"], 1), (.update ["1"] [doc "b"], 3),
    (.delete ["1"], 1), (.append [doc "c"], 2), (.compact true, 9)]

theorem careful_run : FtsIndex.empty.CarefulRun careful := by
  refine ⟨fun _ => ⟨by decide, ?_⟩, fun h => absurd h (by decide),
    fun _ => ⟨by decide, ?_⟩, trivial, fun _ => ⟨by decide, ?_⟩, trivial, trivial⟩
  · intro d _
    exact Or.inl rfl
  · intro d hd
    obtain rfl := List.mem_singleton.mp hd
    exact Or.inr ⟨List.mem_cons_self, le_rfl⟩
  · intro d hd
    obtain rfl := List.mem_singleton.mp hd
    rfl

theorem run_answers_careful : (FtsIndex.empty.run careful).Answers text search ∧
    searchQueryIds search "c" 10 (FtsIndex.empty.run careful).blobs = .ok [("1", 0)] :=
  ⟨(FtsIndex.run_answers search careful_run).1, by decide +kernel⟩

/-- The old text is found, the newest document has another one. -/
theorem stopped_not_answers : ¬ (FtsIndex.empty.run stopped).Answers text search := by
  intro h
  obtain ⟨hits, hhits, -, hsound, -⟩ := h "a" 10 (by decide)
  have hfound : searchQueryIds search "a" 10 (FtsIndex.empty.run stopped).blobs =
      .ok [("1", 0)] := by decide +kernel
  rw [hfound] at hhits
  obtain rfl := Except.ok.inj hhits
  obtain ⟨d, hd, hmatch⟩ := hsound "1" List.mem_cons_self
  have hlatest : (FtsIndex.empty.run stopped).latest "1" = some (doc "b").1 := rfl
  rw [hlatest] at hd
  obtain rfl := Option.some.inj hd
  exact absurd hmatch (by decide)

end StoppedExample

end BlueDB.Fts
