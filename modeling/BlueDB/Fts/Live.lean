import BlueDB.Fts.Index

/-!
# The documents of an index

While an index has only splits of its schema, its live documents change as the operations
say: an update replaces the documents of its ids, a delete removes them, and a compaction
changes nothing.
-/

namespace BlueDB.Fts

open Generations

/-- The splits as parts. -/
def parts (opened : List Opened) : List (Generations.Part TantivyDocument) :=
  opened.map fun o => ⟨o.generation, o.split.docs⟩

/-- The documents that a search can find. -/
def liveDocs (b : Blobs) (opened : List Opened) : List TantivyDocument :=
  liveCopies TantivyDocument.id b.tombstones.get (parts opened)

/-- The document is of the schema. -/
structure Conforms (schema : Schema) (d : TantivyDocument) : Prop where
  typed : wellTyped schema d = true
  projected : reproject schema d = d

/-- An index whose splits are all of the schema, with at most one live copy of an id. -/
structure Ready (schema : Schema) (b : Blobs) (opened : List Opened) : Prop where
  opens : openSplits b b.manifest = some opened
  uniform : ∀ o ∈ opened, o.split.schema = schema
  conforms : ∀ o ∈ opened, ∀ d ∈ o.split.docs, Conforms schema d
  ids : ∀ o ∈ opened, (o.split.docs.map TantivyDocument.id).Nodup
  live : ((liveDocs b opened).map TantivyDocument.id).Nodup
  bounded : Bounded b.tombstones.get (maxGeneration b.manifest)
  named : ∀ m ∈ b.manifest, ∀ g, m.splitId = .compacted g → g = m.generation

variable {schema : Schema} {b b' : Blobs} {opened : List Opened}

theorem Ready.empty (schema : Schema) : Ready schema Blobs.empty [] where
  opens := rfl
  uniform _ h := absurd h List.not_mem_nil
  conforms _ h := absurd h List.not_mem_nil
  ids _ h := absurd h List.not_mem_nil
  live := List.Pairwise.nil
  bounded _ _ h := absurd h nofun
  named _ h := absurd h List.not_mem_nil

theorem openSplits_cons {m : SplitMeta} {rest : Manifest} :
    openSplits b (m :: rest) = (openSplit b m).bind fun o =>
      (openSplits b rest).map fun os => o :: os := by
  unfold openSplits
  rw [List.mapM_cons]
  cases openSplit b m with
  | none => rfl
  | some o => cases rest.mapM (openSplit b) <;> rfl

theorem openSplits_append {m m' : Manifest} {os os' : List Opened} (h : openSplits b m = some os)
    (h' : openSplits b m' = some os') : openSplits b (m ++ m') = some (os ++ os') := by
  unfold openSplits at h h' ⊢
  rw [List.mapM_append, h, Option.bind_eq_bind, Option.bind_some, h']
  rfl

theorem openSplits_congr {m : Manifest} (h : ∀ s ∈ m, b'.splits s.splitId = b.splits s.splitId) :
    openSplits b' m = openSplits b m := by
  induction m with
  | nil => rfl
  | cons s rest ih =>
    rw [openSplits_cons, openSplits_cons, ih fun s' hs' => h s' (List.mem_cons_of_mem _ hs')]
    unfold openSplit
    rw [h s List.mem_cons_self]

theorem openSplits_generations {m : Manifest} (h : openSplits b m = some opened) :
    opened.map Opened.generation = m.map SplitMeta.generation ∧
      opened.map Opened.splitId = m.map SplitMeta.splitId := by
  induction m generalizing opened with
  | nil =>
    obtain rfl : [] = opened := Option.some.inj h
    exact ⟨rfl, rfl⟩
  | cons s rest ih =>
    rw [openSplits_cons] at h
    obtain ⟨o, ho, hrest⟩ := Option.bind_eq_some_iff.mp h
    obtain ⟨os, hos, rfl⟩ := Option.map_eq_some_iff.mp hrest
    obtain ⟨split, -, rfl⟩ := Option.map_eq_some_iff.mp ho
    obtain ⟨hgenerations, hids⟩ := ih hos
    rw [List.map_cons, List.map_cons, List.map_cons, List.map_cons, hgenerations, hids]
    exact ⟨rfl, rfl⟩

theorem Ready.newest (h : Ready schema b opened) :
    newest (parts opened) = maxGeneration b.manifest := by
  unfold Generations.newest maxGeneration parts
  rw [List.map_map, ← (openSplits_generations h.opens).1]
  rfl

theorem Ready.bounded_parts (h : Ready schema b opened) :
    Bounded b.tombstones.get (Generations.newest (parts opened)) := by
  rw [h.newest]
  exact h.bounded

theorem maxGeneration_append (m : Manifest) (s : SplitMeta) :
    maxGeneration (m ++ [s]) = max (maxGeneration m) s.generation := by
  unfold maxGeneration
  induction m with
  | nil => rw [List.nil_append, List.map_singleton]; simp [maxOf]
  | cons s' rest ih =>
    rw [List.cons_append, List.map_cons, List.map_cons]
    unfold maxOf at ih ⊢
    rw [List.foldr_cons, List.foldr_cons, ih, max_assoc]

theorem mintSplitId_ne {m : Manifest} {s : SplitMeta} (h : s ∈ m) : s.splitId ≠ mintSplitId m := by
  intro heq
  have hle : ∀ n, s.splitId = .split n → mintSplitId m ≠ .split n := by
    intro n hn hmint
    unfold mintSplitId at hmint
    have hmax := SplitId.split.inj hmint
    have hmem : n + 1 ∈ m.filterMap fun s => s.splitId.next := by
      rw [List.mem_filterMap]
      refine ⟨s, h, ?_⟩
      rw [hn]
      rfl
    have hn' := le_maxOf hmem
    omega
  exact hle _ (heq.trans rfl) rfl

/-- The split that an append adds. -/
def appended (schema : Schema) (docs : List TantivyDocument) (b : Blobs) : Opened :=
  ⟨mintSplitId b.manifest, maxGeneration b.manifest + 1, schema, docs⟩

theorem Ready.append (h : Ready schema b opened) {docs : List TantivyDocument}
    (hdocs : ∀ d ∈ docs, Conforms schema d)
    (hids : ((liveDocs b opened ++ docs).map TantivyDocument.id).Nodup) :
    Ready schema (b.writeAll (append schema docs b)) (opened ++ [appended schema docs b]) ∧
      liveDocs (b.writeAll (append schema docs b)) (opened ++ [appended schema docs b]) =
        liveDocs b opened ++ docs := by
  have hlive : liveDocs (b.writeAll (Fts.append schema docs b))
      (opened ++ [appended schema docs b]) = liveDocs b opened ++ docs := by
    change liveCopies _ b.tombstones.get (parts (opened ++ [appended schema docs b])) = _
    unfold parts
    rw [List.map_append, List.map_singleton]
    change liveCopies _ _ (parts opened ++ [⟨maxGeneration b.manifest + 1, docs⟩]) = _
    rw [← h.newest]
    exact live_add h.bounded_parts docs
  have hmax := maxGeneration_append b.manifest
    ⟨mintSplitId b.manifest, docs.length, maxGeneration b.manifest + 1⟩
  have hdocsNodup : (docs.map TantivyDocument.id).Nodup := by
    rw [List.map_append] at hids
    exact (List.nodup_append.mp hids).2.1
  refine ⟨⟨?_, ?_, ?_, ?_, ?_, ?_, ?_⟩, hlive⟩
  · apply openSplits_append
    · rw [openSplits_congr (b := b)]
      · exact h.opens
      · intro s hs
        exact Function.update_of_ne (mintSplitId_ne hs) _ _
    · rw [openSplits_cons]
      unfold openSplit
      change ((Function.update b.splits (mintSplitId b.manifest) _ _).map _).bind _ = _
      rw [Function.update_self]
      rfl
  · intro o ho
    rcases List.mem_append.mp ho with ho | ho
    · exact h.uniform o ho
    · obtain rfl := List.mem_singleton.mp ho
      rfl
  · intro o ho
    rcases List.mem_append.mp ho with ho | ho
    · exact h.conforms o ho
    · obtain rfl := List.mem_singleton.mp ho
      exact hdocs
  · intro o ho
    rcases List.mem_append.mp ho with ho | ho
    · exact h.ids o ho
    · obtain rfl := List.mem_singleton.mp ho
      exact hdocsNodup
  · rw [hlive]
    exact hids
  · change Bounded b.tombstones.get (maxGeneration (b.manifest ++ [_]))
    rw [hmax]
    exact h.bounded.mono (le_max_left _ _)
  · intro m hm g hg
    rcases List.mem_append.mp hm with hm | hm
    · exact h.named m hm g hg
    · obtain rfl := List.mem_singleton.mp hm
      exact absurd hg nofun

theorem get_deleteDocAt (tombstones : OrderedMap String ℕ) (id : String) (g : ℕ) :
    (deleteDocAt tombstones id g).get = hide tombstones.get [id] g := by
  funext id'
  unfold deleteDocAt hide
  rw [OrderedMap.get_insert]
  by_cases heq : id' = id
  · subst heq
    cases tombstones.get id' <;> simp
  · simp [heq]

theorem hide_hide {deleted : String → Option ℕ} (id : String) (ids : List String) (g : ℕ) :
    hide (hide deleted [id] g) ids g = hide deleted (id :: ids) g := by
  funext id'
  unfold hide
  by_cases heq : id' = id
  · subst heq
    cases deleted id' <;> simp
  · simp [heq]

theorem get_deleteDocsAt (tombstones : OrderedMap String ℕ) (ids : List String) (g : ℕ) :
    (deleteDocsAt tombstones ids g).get = hide tombstones.get ids g := by
  induction ids generalizing tombstones with
  | nil =>
    funext id
    simp [deleteDocsAt, hide]
  | cons id rest ih =>
    change (deleteDocsAt (deleteDocAt tombstones id g) rest g).get = _
    rw [ih, get_deleteDocAt, hide_hide]

theorem liveDocs_delete (h : Ready schema b opened) (ids : List String) :
    liveDocs (b.writeAll (delete ids b)) opened =
      (liveDocs b opened).filter fun d => !decide (d.id ∈ ids) := by
  change liveCopies _ (deleteDocsAt b.tombstones ids (maxGeneration b.manifest)).get _ = _
  rw [get_deleteDocsAt, ← h.newest]
  exact live_hide ids

theorem Ready.delete (h : Ready schema b opened) (ids : List String) :
    Ready schema (b.writeAll (delete ids b)) opened where
  __ := h
  live := by
    rw [liveDocs_delete h]
    exact h.live.sublist (List.filter_sublist.map _)
  bounded := by
    change Bounded (deleteDocsAt b.tombstones ids (maxGeneration b.manifest)).get
      (maxGeneration b.manifest)
    rw [get_deleteDocsAt]
    exact h.bounded.hide ids

theorem update_eq (schema : Schema) (ids : List String) (docs : List TantivyDocument) (b : Blobs) :
    b.writeAll (update schema ids docs b) =
      (b.writeAll (delete ids b)).writeAll (append schema docs (b.writeAll (delete ids b))) := rfl

theorem Ready.replace (h : Ready schema b opened) {ids : List String} {docs : List TantivyDocument}
    (hdocs : ∀ d ∈ docs, Conforms schema d) (hids : (docs.map TantivyDocument.id).Nodup)
    (hnew : ∀ d ∈ liveDocs b opened, d.id ∈ docs.map TantivyDocument.id → d.id ∈ ids) :
    ∃ opened', Ready schema (b.writeAll (update schema ids docs b)) opened' ∧
      liveDocs (b.writeAll (update schema ids docs b)) opened' =
        ((liveDocs b opened).filter fun d => !decide (d.id ∈ ids)) ++ docs := by
  have hdelete := h.delete ids
  have hlive := liveDocs_delete h ids
  have hnodup : ((liveDocs (b.writeAll (Fts.delete ids b)) opened ++ docs).map
      TantivyDocument.id).Nodup := by
    rw [List.map_append]
    apply hdelete.live.append hids
    intro id hid hid'
    obtain ⟨d, hd, rfl⟩ := List.mem_map.mp hid
    rw [hlive] at hd
    obtain ⟨hd, hout⟩ := List.mem_filter.mp hd
    rw [Bool.not_eq_true', decide_eq_false_iff_not] at hout
    exact hout (hnew d hd hid')
  obtain ⟨hready, heq⟩ := hdelete.append hdocs hnodup
  rw [update_eq]
  exact ⟨_, hready, heq.trans (by rw [hlive])⟩

/-- The writes put the compacted split in the place of all others. -/
def compacted (schema : Schema) (b : Blobs) (opened : List Opened) : Opened :=
  ⟨.compacted (maxGeneration b.manifest + 1), maxGeneration b.manifest + 1, schema,
    liveDocs b opened⟩

theorem kept_eq (b : Blobs) (opened : List Opened) :
    (opened.flatMap fun o => o.split.docs.filter fun d =>
      !isDeletedAt b.tombstones d.id o.generation) = liveDocs b opened := by
  unfold liveDocs liveCopies parts
  rw [List.flatMap_map]
  rfl

theorem get_erases (tombstones : OrderedMap String ℕ) (ids : List String) (id : String) :
    ∀ d, (ids.foldl OrderedMap.erase tombstones).get id = some d → tombstones.get id = some d := by
  induction ids generalizing tombstones with
  | nil => exact fun _ hd => hd
  | cons id' rest ih =>
    intro d hd
    have herase := ih (tombstones.erase id') d hd
    rw [OrderedMap.get_erase] at herase
    split_ifs at herase
    exact herase

theorem writes_deletes (b : Blobs) (m : Manifest) :
    (b.writeAll (m.map fun s => .deleteSplit s.splitId)).manifest = b.manifest ∧
      (b.writeAll (m.map fun s => .deleteSplit s.splitId)).tombstones = b.tombstones ∧
      ∀ id, (∀ s ∈ m, s.splitId ≠ id) →
        (b.writeAll (m.map fun s => .deleteSplit s.splitId)).splits id = b.splits id := by
  induction m generalizing b with
  | nil => exact ⟨rfl, rfl, fun _ _ => rfl⟩
  | cons s rest ih =>
    obtain ⟨hmanifest, htombstones, hsplits⟩ := ih (b.write (.deleteSplit s.splitId))
    refine ⟨hmanifest, htombstones, ?_⟩
    intro id hid
    rw [List.map_cons]
    apply (hsplits id fun s' hs' => hid s' (List.mem_cons_of_mem _ hs')).trans
    exact Function.update_of_ne (hid s List.mem_cons_self).symm _ _

theorem live_conforms (h : Ready schema b opened) {d : TantivyDocument}
    (hd : d ∈ liveDocs b opened) : Conforms schema d := by
  obtain ⟨p, hp, hd, -⟩ := mem_live.mp hd
  obtain ⟨o, ho, rfl⟩ := List.mem_map.mp hp
  exact h.conforms o ho d hd

/-- The writes of a compaction of all splits, with the ids whose tombstones go. -/
def compaction (schema : Schema) (b : Blobs) (opened : List Opened) (gone : List String) :
    List Write :=
  let generation := maxGeneration b.manifest + 1
  let id := SplitId.compacted generation
  [.putSplit id ⟨schema, liveDocs b opened⟩,
    .putManifest [⟨id, (liveDocs b opened).length, generation⟩],
    .putTombstones (gone.foldl OrderedMap.erase b.tombstones)] ++
    b.manifest.map fun m => .deleteSplit m.splitId

theorem Ready.compact_eq (h : Ready schema b opened) :
    ∃ gone, compact schema opened b = some (compaction schema b opened gone) := by
  have hids := (openSplits_generations h.opens).2
  have hmem : ∀ m ∈ b.manifest, m.splitId ∈ opened.map Opened.splitId := by
    intro m hm
    rw [hids]
    exact List.mem_map_of_mem hm
  have hrest : (b.manifest.filter fun m => decide (m.splitId ∉ opened.map Opened.splitId)) =
      [] := by
    apply List.filter_eq_nil_iff.mpr
    intro m hm
    rw [decide_eq_true_iff]
    exact not_not_intro (hmem m hm)
  have hall : (b.manifest.filter fun m => decide (m.splitId ∈ opened.map Opened.splitId)) =
      b.manifest := by
    apply List.filter_eq_self.mpr
    intro m hm
    rw [decide_eq_true_iff]
    exact hmem m hm
  have hdocs : (liveDocs b opened).map (reproject schema) = liveDocs b opened := by
    conv_rhs => rw [← List.map_id (liveDocs b opened)]
    apply List.map_congr_left
    intro d hd
    exact (live_conforms h hd).projected
  have htyped : (liveDocs b opened).all (wellTyped schema) = true := by
    rw [List.all_eq_true]
    intro d hd
    exact (live_conforms h hd).typed
  unfold Fts.compact
  dsimp only
  rw [kept_eq, hdocs, if_pos htyped, hrest, hall, List.isEmpty_nil, if_pos rfl, List.nil_append]
  exact ⟨_, rfl⟩

theorem Ready.compacted_ne (h : Ready schema b opened) {s : SplitMeta} (hs : s ∈ b.manifest) :
    s.splitId ≠ .compacted (maxGeneration b.manifest + 1) := by
  intro heq
  have hle := le_maxOf (List.mem_map_of_mem (f := SplitMeta.generation) hs)
  have hg := h.named s hs _ heq
  unfold maxGeneration at hg
  omega

/-- The live documents are those of the compacted split, as soon as the manifest has it
alone. -/
theorem Ready.merged (h : Ready schema b opened)
    (hmanifest : b'.manifest = [⟨.compacted (maxGeneration b.manifest + 1),
      (liveDocs b opened).length, maxGeneration b.manifest + 1⟩])
    (hsplit : b'.splits (.compacted (maxGeneration b.manifest + 1)) =
      some ⟨schema, liveDocs b opened⟩)
    (hsub : ∀ id d, b'.tombstones.get id = some d → b.tombstones.get id = some d) :
    Ready schema b' [compacted schema b opened] ∧
      liveDocs b' [compacted schema b opened] = liveDocs b opened := by
  have hlive : liveDocs b' [compacted schema b opened] = liveDocs b opened := by
    change liveCopies _ _ [⟨maxGeneration b.manifest + 1, liveDocs b opened⟩] = _
    rw [← h.newest]
    exact live_merge h.bounded_parts hsub
  refine ⟨⟨?_, ?_, ?_, ?_, ?_, ?_, ?_⟩, hlive⟩
  · rw [hmanifest, openSplits_cons]
    unfold openSplit
    dsimp only
    rw [hsplit]
    rfl
  · intro o ho
    obtain rfl := List.mem_singleton.mp ho
    rfl
  · intro o ho d hd
    obtain rfl := List.mem_singleton.mp ho
    exact live_conforms h hd
  · intro o ho
    obtain rfl := List.mem_singleton.mp ho
    exact h.live
  · rw [hlive]
    exact h.live
  · apply (h.bounded.sub hsub).mono
    rw [hmanifest]
    change _ ≤ max (maxGeneration b.manifest + 1) 0
    omega
  · intro m hm g hg
    rw [hmanifest] at hm
    obtain rfl := List.mem_singleton.mp hm
    exact (SplitId.compacted.inj hg).symm

theorem Ready.compact (h : Ready schema b opened) :
    ∃ writes, compact schema opened b = some writes ∧
      Ready schema (b.writeAll writes) [compacted schema b opened] ∧
      liveDocs (b.writeAll writes) [compacted schema b opened] = liveDocs b opened := by
  obtain ⟨gone, hwrites⟩ := h.compact_eq
  refine ⟨_, hwrites, ?_⟩
  -- the last writes delete splits, of which the new one is none
  unfold compaction Blobs.writeAll
  rw [List.foldl_append]
  obtain ⟨hmanifest, htombstones, hsplits⟩ := writes_deletes (List.foldl Blobs.write b
    [.putSplit (.compacted (maxGeneration b.manifest + 1)) ⟨schema, liveDocs b opened⟩,
      .putManifest [⟨.compacted (maxGeneration b.manifest + 1), (liveDocs b opened).length,
        maxGeneration b.manifest + 1⟩],
      .putTombstones (gone.foldl OrderedMap.erase b.tombstones)]) b.manifest
  have hsplit := hsplits _ fun s hs => h.compacted_ne hs
  unfold Blobs.writeAll at hmanifest htombstones hsplit
  refine h.merged hmanifest (hsplit.trans (Function.update_self ..)) ?_
  intro id d hd
  rw [htombstones] at hd
  exact get_erases _ _ _ d hd

theorem Ready.maybeCompact (h : Ready schema b opened) :
    ∃ writes opened', maybeCompact schema b = some writes ∧
      Ready schema (b.writeAll writes) opened' ∧
      liveDocs (b.writeAll writes) opened' = liveDocs b opened := by
  unfold Fts.maybeCompact
  split
  · have hall : (b.manifest.filter fun m => decide (m.splitId ∈ planCompaction b.manifest)) =
        b.manifest := by
      apply List.filter_eq_self.mpr
      intro m hm
      rw [decide_eq_true_iff]
      exact List.mem_map_of_mem hm
    dsimp only
    rw [hall, h.opens, Option.bind_some]
    obtain ⟨writes, hwrites, hready, hlive⟩ := h.compact
    exact ⟨writes, _, hwrites, hready, hlive⟩
  · exact ⟨[], opened, rfl, h, rfl⟩

end BlueDB.Fts
