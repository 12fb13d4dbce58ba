import BlueDB.Fts.TopHits

/-!
# Counts and searches

A search without a limit gives the ids that have a live match. One count adds up the
matches whose ids have no tombstone at all, the other takes the ids of the first live
matches of the splits together.
-/

namespace BlueDB.Fts

variable {Query Score : Type} {T : Tantivy Query Score} {q : Query}
  {tombstones : OrderedMap String ℕ} {opened : List Opened}

/-- There is a tombstone of the id, whatever its generation. -/
def isDeleted (tombstones : OrderedMap String ℕ) (id : String) : Bool :=
  (tombstones.get id).isSome

def multiSplitCount (T : Tantivy Query Score) (q : Query) (opened : List Opened) : ℕ :=
  (opened.zipIdx.map fun o => (splitHits T q "" o.2 o.1).length).sum

/-- A count without tombstones does not look at ids. -/
def multiSplitCountFiltered (T : Tantivy Query Score) (q : Query)
    (tombstones : OrderedMap String ℕ) (opened : List Opened) : ℕ :=
  if tombstones.entries.isEmpty then multiSplitCount T q opened
  else (opened.zipIdx.map fun o =>
    ((splitHits T q "" o.2 o.1).filter fun h => !isDeleted tombstones h.id).length).sum

def multiSplitCountQueryFiltered [LinearOrder Score] (T : Tantivy Query Score) (q : Query)
    (tombstones : OrderedMap String ℕ) (opened : List Opened) : ℕ :=
  ((candidates T byScore q "" countCap tombstones opened).map Hit.id).dedup.length

def distinctIds (l : List (Hit Score)) : ℕ := (l.map Hit.id).dedup.length

theorem distinctIds_eq_card (l : List (Hit Score)) :
    distinctIds l = (l.map Hit.id).toFinset.card := (List.card_toFinset _).symm

theorem distinctIds_perm {l l' : List (Hit Score)} (h : l.Perm l') :
    distinctIds l = distinctIds l' := by
  rw [distinctIds_eq_card, distinctIds_eq_card, List.toFinset_eq_of_perm _ _ (h.map Hit.id)]

section Search

variable [LinearOrder Score]

theorem length_dedup {all : List (Hit Score)} (hall : all.Nodup) :
    (dedup newerCopy all).length = distinctIds all := by
  have hids : ((dedup newerCopy all).map Hit.id).toFinset = (all.map Hit.id).toFinset := by
    ext id
    simp only [List.mem_toFinset, List.mem_map]
    constructor
    · rintro ⟨h, hh, rfl⟩
      exact ⟨h, (dedup_sublist _ _).subset hh, rfl⟩
    · rintro ⟨h, hh, rfl⟩
      obtain ⟨h', hh', hid, -⟩ := exists_dedup newerCopy_iff hh
      exact ⟨h', hh', hid⟩
  have hnodup : ((dedup newerCopy all).map Hit.id).Nodup := dedup_ids newerCopy_iff hall
  rw [distinctIds_eq_card, ← hids, List.toFinset_card_of_nodup hnodup, List.length_map]

/-- A search without a limit gives each id with a live match once. -/
theorem length_unlimited {limit : ℕ} (hlimit : 0 < limit)
    (hall : (matchingHits T q "" opened).length ≤ limit) :
    ∃ ids, multiSplitSearchQueryFilteredIds T q limit tombstones opened = .ok ids ∧
      ids.length = distinctIds (liveHits T q "" tombstones opened) := by
  have hcandidates : candidates T byScore q "" (limit + tombstones.entries.length) tombstones
      opened = allHits T byScore q "" tombstones opened :=
    candidates_eq_allHits (hall.trans (Nat.le_add_right _ _))
  have hlength : (dedup newerCopy (allHits T byScore q "" tombstones opened)).length ≤ limit :=
    calc (dedup newerCopy (allHits T byScore q "" tombstones opened)).length
        ≤ (allHits T byScore q "" tombstones opened).length := (dedup_sublist _ _).length_le
      _ = (liveHits T q "" tombstones opened).length := allHits_perm.length_eq
      _ ≤ (matchingHits T q "" opened).length := by
          rw [liveHits_eq_filter]
          exact List.length_filter_le _ _
      _ ≤ limit := hall
  unfold multiSplitSearchQueryFilteredIds multiSplitSearchFiltered searchSplits
  dsimp only
  rw [if_neg fun hzero => absurd hzero.1 (by omega), hcandidates]
  refine ⟨_, rfl, ?_⟩
  rw [List.length_map, List.take_of_length_le, (TopK.sortBy_perm _ _).length_eq,
    length_dedup allHits_nodup, distinctIds_perm allHits_perm]
  rwa [(TopK.sortBy_perm _ _).length_eq]

end Search

/-- The matches whose ids have no tombstone. -/
def untombstoned (T : Tantivy Query Score) (q : Query) (tombstones : OrderedMap String ℕ)
    (opened : List Opened) : List (Hit Score) :=
  (matchingHits T q "" opened).filter fun h => !isDeleted tombstones h.id

/-- The live matches of splits that are newer than a tombstone of their id. -/
def readded (T : Tantivy Query Score) (q : Query) (tombstones : OrderedMap String ℕ)
    (opened : List Opened) : List (Hit Score) :=
  (liveHits T q "" tombstones opened).filter fun h => isDeleted tombstones h.id

theorem isDeletedAt_of_not_isDeleted {id : String} {generation : ℕ}
    (h : isDeleted tombstones id = false) : isDeletedAt tombstones id generation = false := by
  unfold isDeleted at h
  unfold isDeletedAt Generations.hidden
  rw [Option.isSome_eq_false_iff, Option.isNone_iff_eq_none] at h
  rw [h]

theorem multiSplitCountFiltered_eq :
    multiSplitCountFiltered T q tombstones opened =
      (untombstoned T q tombstones opened).length := by
  unfold multiSplitCountFiltered multiSplitCount untombstoned matchingHits
  rw [List.filter_flatMap, List.length_flatMap]
  split
  · next hempty =>
    have hnone : ∀ id, isDeleted tombstones id = false := by
      intro id
      unfold isDeleted OrderedMap.get
      rw [List.isEmpty_iff.mp hempty]
      rfl
    simp only [hnone, Bool.not_false, List.filter_true]
  · rfl

theorem distinctIds_liveHits : distinctIds (liveHits T q "" tombstones opened) =
    distinctIds (untombstoned T q tombstones opened) +
      distinctIds (readded T q tombstones opened) := by
  have hdisjoint : Disjoint ((untombstoned T q tombstones opened).map Hit.id).toFinset
      ((readded T q tombstones opened).map Hit.id).toFinset := by
    rw [Finset.disjoint_left]
    intro id hid hid'
    obtain ⟨h, hh, rfl⟩ := List.mem_map.mp (List.mem_toFinset.mp hid)
    obtain ⟨h', hh', heq⟩ := List.mem_map.mp (List.mem_toFinset.mp hid')
    have hfresh := (List.mem_filter.mp hh).2
    have hdeleted := (List.mem_filter.mp hh').2
    rw [heq] at hdeleted
    rw [hdeleted] at hfresh
    exact absurd hfresh (by decide)
  rw [distinctIds_eq_card, distinctIds_eq_card, distinctIds_eq_card,
    ← Finset.card_union_of_disjoint hdisjoint]
  congr 1
  ext id
  simp only [Finset.mem_union, List.mem_toFinset, List.mem_map]
  constructor
  · rintro ⟨h, hh, rfl⟩
    cases hdeleted : isDeleted tombstones h.id with
    | true => exact Or.inr ⟨h, List.mem_filter.mpr ⟨hh, hdeleted⟩, rfl⟩
    | false =>
      rw [liveHits_eq_filter] at hh
      exact Or.inl ⟨h, List.mem_filter.mpr ⟨(List.mem_filter.mp hh).1, by rw [hdeleted]; rfl⟩, rfl⟩
  · rintro (⟨h, hh, rfl⟩ | ⟨h, hh, rfl⟩)
    · obtain ⟨hmatch, hfresh⟩ := List.mem_filter.mp hh
      rw [Bool.not_eq_true'] at hfresh
      rw [liveHits_eq_filter]
      refine ⟨h, List.mem_filter.mpr ⟨hmatch, ?_⟩, rfl⟩
      unfold live
      rw [isDeletedAt_of_not_isDeleted hfresh]
      rfl
    · exact ⟨h, (List.mem_filter.mp hh).1, rfl⟩

/-- The ids that have a match. -/
def matchingIds (T : Tantivy Query Score) (q : Query) (opened : List Opened) : Finset String :=
  ((matchingHits T q "" opened).map Hit.id).toFinset

/-- How many matches there are of an id. -/
def copies (T : Tantivy Query Score) (q : Query) (opened : List Opened) (id : String) : ℕ :=
  ((matchingHits T q "" opened).filter fun h => h.id = id).length

/-- The copies beyond the first of the ids without a tombstone are as many as the ids with a
match in a split that is newer than their tombstone. -/
def Balanced (T : Tantivy Query Score) (q : Query) (tombstones : OrderedMap String ℕ)
    (opened : List Opened) : Prop :=
  ∑ id ∈ (matchingIds T q opened).filter (fun id => tombstones.get id = none),
      (copies T q opened id - 1) =
    ((matchingIds T q opened).filter fun id => ∃ h ∈ matchingHits T q "" opened,
      h.id = id ∧ ∃ g ∈ tombstones.get id, g < h.generation).card

instance (opened : List Opened) : Decidable (Balanced T q tombstones opened) :=
  inferInstanceAs (Decidable (_ = _))

theorem ids_untombstoned : ((untombstoned T q tombstones opened).map Hit.id).toFinset =
    (matchingIds T q opened).filter fun id => tombstones.get id = none := by
  ext id
  simp only [untombstoned, matchingIds, isDeleted, Finset.mem_filter, List.mem_toFinset,
    List.mem_map, List.mem_filter, Bool.not_eq_true', Option.isSome_eq_false_iff,
    Option.isNone_iff_eq_none]
  constructor
  · rintro ⟨h, ⟨hh, hnone⟩, rfl⟩
    exact ⟨⟨h, hh, rfl⟩, hnone⟩
  · rintro ⟨⟨h, hh, rfl⟩, hnone⟩
    exact ⟨h, ⟨hh, hnone⟩, rfl⟩

theorem ids_readded : ((readded T q tombstones opened).map Hit.id).toFinset =
    (matchingIds T q opened).filter fun id => ∃ h ∈ matchingHits T q "" opened,
      h.id = id ∧ ∃ g ∈ tombstones.get id, g < h.generation := by
  ext id
  have hlive : ∀ h : Hit Score, live tombstones h = true ∧ isDeleted tombstones h.id = true ↔
      ∃ g ∈ tombstones.get h.id, g < h.generation := by
    intro h
    unfold live isDeleted isDeletedAt Generations.hidden
    cases tombstones.get h.id <;> simp
  simp only [readded, matchingIds, liveHits_eq_filter, Finset.mem_filter, List.mem_toFinset,
    List.mem_map, List.mem_filter, and_assoc, hlive]
  constructor
  · rintro ⟨h, hh, hnewer, rfl⟩
    exact ⟨⟨h, hh, rfl⟩, h, hh, rfl, hnewer⟩
  · rintro ⟨-, h, hh, rfl, hnewer⟩
    exact ⟨h, hh, hnewer, rfl⟩

/-- The surplus is what the ids have beyond their first copies. -/
theorem length_untombstoned : (untombstoned T q tombstones opened).length =
    ∑ id ∈ (matchingIds T q opened).filter (fun id => tombstones.get id = none),
        (copies T q opened id - 1) +
      distinctIds (untombstoned T q tombstones opened) := by
  have hcount : ∀ id ∈ ((untombstoned T q tombstones opened).map Hit.id).toFinset,
      ((untombstoned T q tombstones opened).map Hit.id).count id =
        (copies T q opened id - 1) + 1 := by
    intro id hid
    have hnone : tombstones.get id = none := by
      rw [ids_untombstoned] at hid
      exact (Finset.mem_filter.mp hid).2
    have hsame : ((untombstoned T q tombstones opened).map Hit.id).count id =
        copies T q opened id := by
      unfold untombstoned copies
      rw [List.count_eq_countP, List.countP_map, List.countP_eq_length_filter,
        List.filter_filter]
      congr 1
      apply List.filter_congr
      intro h _
      by_cases heq : h.id = id
      · simp [heq, isDeleted, hnone]
      · simp [heq]
    have hpos := List.count_pos_iff.mpr (List.mem_toFinset.mp hid)
    omega
  rw [← List.length_map (f := Hit.id), ← List.sum_toFinset_count_eq_length,
    Finset.sum_congr rfl hcount, Finset.sum_add_distrib, Finset.sum_const, smul_eq_mul, mul_one,
    distinctIds_eq_card, ids_untombstoned]

section Count

variable [LinearOrder Score]

/-- Every id with a live match has one with fewer than 100000 better matches in its split. -/
def Seen (T : Tantivy Query Score) (q : Query) (tombstones : OrderedMap String ℕ)
    (opened : List Opened) : Prop :=
  ∀ h ∈ liveHits T q "" tombstones opened, ∃ h' ∈ liveHits T q "" tombstones opened,
    h'.id = h.id ∧ above T byScore q "" opened h' < 100000

theorem multiSplitCountQueryFiltered_eq_iff :
    multiSplitCountQueryFiltered T q tombstones opened =
      distinctIds (liveHits T q "" tombstones opened) ↔ Seen T q tombstones opened := by
  have hsub : ((candidates T byScore q "" countCap tombstones opened).map Hit.id).toFinset ⊆
      ((liveHits T q "" tombstones opened).map Hit.id).toFinset := by
    intro id hid
    obtain ⟨h, hh, rfl⟩ := List.mem_map.mp (List.mem_toFinset.mp hid)
    have hall : h ∈ allHits T byScore q "" tombstones opened := (candidates_sublist _).subset hh
    exact List.mem_toFinset.mpr (List.mem_map_of_mem (allHits_perm.mem_iff.mp hall))
  have hcount : multiSplitCountQueryFiltered T q tombstones opened =
      ((candidates T byScore q "" countCap tombstones opened).map Hit.id).toFinset.card :=
    (List.card_toFinset _).symm
  rw [hcount, distinctIds_eq_card]
  constructor
  · intro hcard h hh
    have heq := Finset.eq_of_subset_of_card_le hsub hcard.ge
    have hid : h.id ∈ ((liveHits T q "" tombstones opened).map Hit.id).toFinset :=
      List.mem_toFinset.mpr (List.mem_map_of_mem hh)
    rw [← heq] at hid
    obtain ⟨h', hh', hid'⟩ := List.mem_map.mp (List.mem_toFinset.mp hid)
    obtain ⟨hlive, hfew⟩ := (mem_candidates placing_byScore).mp hh'
    exact ⟨h', hlive, hid', hfew⟩
  · intro hseen
    apply congrArg Finset.card (Finset.Subset.antisymm hsub _)
    intro id hid
    obtain ⟨h, hh, rfl⟩ := List.mem_map.mp (List.mem_toFinset.mp hid)
    obtain ⟨h', hh', hid', hfew⟩ := hseen h hh
    exact List.mem_toFinset.mpr (List.mem_map.mpr
      ⟨h', (mem_candidates placing_byScore).mpr ⟨hh', hfew⟩, hid'⟩)

/-- The counts are the number of ids that a search without a limit gives, each under its own
condition. -/
theorem counts_agree_iff {limit : ℕ} (hlimit : 0 < limit)
    (hall : (matchingHits T q "" opened).length ≤ limit) :
    ∃ ids, multiSplitSearchQueryFilteredIds T q limit tombstones opened = .ok ids ∧
      (multiSplitCountFiltered T q tombstones opened = ids.length ↔
        Balanced T q tombstones opened) ∧
      (multiSplitCountQueryFiltered T q tombstones opened = ids.length ↔
        Seen T q tombstones opened) := by
  obtain ⟨ids, hids, hlength⟩ : ∃ ids, multiSplitSearchQueryFilteredIds T q limit tombstones
      opened = .ok ids ∧ ids.length = distinctIds (liveHits T q "" tombstones opened) :=
    length_unlimited hlimit hall
  refine ⟨ids, hids, ?_, ?_⟩
  · rw [hlength, multiSplitCountFiltered_eq, distinctIds_liveHits, length_untombstoned,
      distinctIds_eq_card (readded T q tombstones opened), ids_readded]
    unfold Balanced
    omega
  · rw [hlength]
    exact multiSplitCountQueryFiltered_eq_iff

end Count

namespace TopHitsExample

/-- An id that is added again after its tombstone. -/
theorem readded_uncounted :
    multiSplitSearchQueryFilteredIds search () 5 (.insert .empty "a" 1) splits =
        .ok [("b", 9), ("a", 1)] ∧
      multiSplitCountQueryFiltered search () (.insert .empty "a" 1) splits = 2 ∧
      multiSplitCountFiltered search () (.insert .empty "a" 1) splits = 1 := by
  refine ⟨?_, ?_, ?_⟩ <;> decide +kernel

/-- The second copy of `b` makes up for `a`, which has been added again. -/
def copied : List Opened :=
  splits ++ [⟨.split 2, 3, schema, [⟨"b", [(0, .i64 7)]⟩, ⟨"c", [(0, .i64 2)]⟩]⟩]

theorem counts_agree_copied :
    ∃ ids, multiSplitSearchQueryFilteredIds search () 5 (.insert .empty "a" 1) copied = .ok ids ∧
      multiSplitCountFiltered search () (.insert .empty "a" 1) copied = ids.length ∧
      multiSplitCountQueryFiltered search () (.insert .empty "a" 1) copied = ids.length := by
  obtain ⟨ids, hids, hcount, hquery⟩ := counts_agree_iff (T := search) (q := ())
    (by decide : 0 < 5) (show (matchingHits search () "" copied).length ≤ 5 by decide)
  refine ⟨ids, hids, hcount.mpr (by decide +kernel), hquery.mpr ?_⟩
  intro h hh
  exact ⟨h, hh, rfl, (List.length_filter_le _ _).trans_lt (by decide)⟩

end TopHitsExample

end BlueDB.Fts
