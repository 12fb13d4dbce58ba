import BlueDB.Fts.Live

/-!
# What a search finds

On an index with at most one live copy of an id a search finds the first of the live
matches in its order, whatever its limit, and the count is how many there are.
-/

namespace BlueDB.Fts

open Generations

variable {Query Score : Type}

/-- A step of the loop that looks for the best hits. -/
def better (wins : Hit Score → Hit Score → Bool) (best : OrderedMap String (Hit Score × ℕ))
    (c : Hit Score × ℕ) : OrderedMap String (Hit Score × ℕ) :=
  match best.get c.1.id with
  | some cur => if wins c.1 cur.1 then best.insert c.1.id c else best
  | none => best.insert c.1.id c

theorem get_foldl_better {wins : Hit Score → Hit Score → Bool} {l : List (Hit Score × ℕ)}
    {best : OrderedMap String (Hit Score × ℕ)} (hids : (l.map fun c => c.1.id).Nodup)
    (hnew : ∀ c ∈ l, best.get c.1.id = none) :
    (∀ c ∈ l, (l.foldl (better wins) best).get c.1.id = some c) ∧
      ∀ id, (∀ c ∈ l, c.1.id ≠ id) → (l.foldl (better wins) best).get id = best.get id := by
  induction l generalizing best with
  | nil => exact ⟨fun _ h => absurd h List.not_mem_nil, fun _ _ => rfl⟩
  | cons c rest ih =>
    rw [List.map_cons, List.nodup_cons] at hids
    obtain ⟨hc, hrest⟩ := hids
    have hne : ∀ c' ∈ rest, c'.1.id ≠ c.1.id := fun c' hc' heq =>
      hc (heq ▸ List.mem_map_of_mem hc')
    have hstep : better wins best c = best.insert c.1.id c := by
      unfold better
      rw [hnew c List.mem_cons_self]
    have hnew' : ∀ c' ∈ rest, (best.insert c.1.id c).get c'.1.id = none := by
      intro c' hc'
      rw [OrderedMap.get_insert, if_neg (hne c' hc')]
      exact hnew c' (List.mem_cons_of_mem _ hc')
    obtain ⟨hmem, hother⟩ := ih hrest hnew'
    rw [List.foldl_cons, hstep]
    constructor
    · intro c' hc'
      rcases List.mem_cons.mp hc' with rfl | hc'
      · rw [hother _ hne, OrderedMap.get_insert, if_pos rfl]
      · exact hmem c' hc'
    · intro id hid
      rw [hother id fun c' hc' => hid c' (List.mem_cons_of_mem _ hc'), OrderedMap.get_insert,
        if_neg (hid c List.mem_cons_self).symm]

theorem dedup_eq (wins : Hit Score → Hit Score → Bool) {all : List (Hit Score)}
    (h : (all.map Hit.id).Nodup) : dedup wins all = all := by
  have hids : (all.zipIdx.map fun c => c.1.id).Nodup := by
    have heq : (all.zipIdx.map fun c => c.1.id) = all.map Hit.id := by
      conv_rhs => rw [← List.zipIdx_map_fst 0 all, List.map_map]
      rfl
    rw [heq]
    exact h
  have hbest := (@get_foldl_better _ wins _ .empty hids fun _ _ => rfl).1
  unfold dedup
  rw [List.filter_eq_self.mpr, List.zipIdx_map_fst]
  intro c hc
  have hget : (bestById wins all.zipIdx).get c.1.id = some c := hbest c hc
  rw [decide_eq_true_iff, hget]
  rfl

theorem zipIdx_ascending {α : Type*} (l : List α) :
    l.zipIdx.Pairwise fun a b => a.2 < b.2 := by
  apply List.Pairwise.of_map Prod.snd (S := fun a b => a < b) fun _ _ h => h
  rw [List.zipIdx_map_snd]
  exact List.pairwise_lt_range'

variable {T : Tantivy Query Score} {q : Query} {name : String}

theorem splitHits_ord {ord : ℕ} {o : Opened} {h : Hit Score}
    (hh : h ∈ splitHits T q name ord o) : h.splitOrd = ord := by
  obtain ⟨d, -, rfl⟩ := List.mem_map.mp hh
  rfl

theorem splitHits_places (ord : ℕ) (o : Opened) :
    TopK.Ascending Hit.place (splitHits T q name ord o) := by
  unfold splitHits TopK.Ascending
  apply List.Pairwise.map (R := fun a b : TantivyDocument × ℕ => a.2 < b.2)
  · intro a b hlt
    exact Prod.Lex.toLex_lt_toLex.mpr (Or.inr ⟨rfl, hlt⟩)
  · exact (zipIdx_ascending _).filter _

/-- The hits that no tombstone hides. -/
def liveHits (T : Tantivy Query Score) (q : Query) (name : String)
    (tombstones : OrderedMap String ℕ) (opened : List Opened) : List (Hit Score) :=
  opened.zipIdx.flatMap fun o => (splitHits T q name o.2 o.1).filter (live tombstones)

variable {tombstones : OrderedMap String ℕ} {opened : List Opened}

theorem liveHits_places : TopK.Ascending Hit.place (liveHits T q name tombstones opened) := by
  unfold liveHits TopK.Ascending
  rw [List.pairwise_flatMap]
  constructor
  · intro o _
    exact (splitHits_places o.2 o.1).filter _
  · apply (zipIdx_ascending opened).imp
    intro o o' hlt h hh h' hh'
    apply Prod.Lex.toLex_lt_toLex.mpr
    left
    rw [splitHits_ord (List.mem_filter.mp hh).1, splitHits_ord (List.mem_filter.mp hh').1]
    exact hlt

variable {schema : Schema} {b : Blobs}

theorem splitHits_ids_nodup {ord : ℕ} {o : Opened}
    (h : (o.split.docs.map TantivyDocument.id).Nodup) :
    ((splitHits T q name ord o).map Hit.id).Nodup := by
  have hsub : ((splitHits T q name ord o).map Hit.id).Sublist
      (o.split.docs.map TantivyDocument.id) := by
    unfold splitHits
    rw [List.map_map]
    conv_rhs => rw [← List.zipIdx_map_fst 0 o.split.docs, List.map_map]
    exact List.filter_sublist.map _
  exact h.sublist hsub

theorem liveHits_ids (hschema : ∀ o ∈ opened, o.split.schema = schema) :
    (liveHits T q name b.tombstones opened).map Hit.id =
      ((liveDocs b opened).filter fun d => T.isMatch q schema d).map TantivyDocument.id := by
  have hsplit : ∀ o : Opened × ℕ, o ∈ opened.zipIdx →
      ((splitHits T q name o.2 o.1).filter (live b.tombstones)).map Hit.id =
        (((o.1.split.docs.filter fun d => !isDeletedAt b.tombstones d.id o.1.generation).filter
          fun d => T.isMatch q schema d).map TantivyDocument.id) := by
    intro o ho
    have hs := hschema o.1 (List.fst_mem_of_mem_zipIdx ho)
    unfold splitHits
    rw [hs, List.filter_map, List.map_map]
    conv_rhs => rw [← List.zipIdx_map_fst 0 o.1.split.docs, List.filter_map, List.filter_map,
      List.map_map, List.filter_filter]
    rw [List.filter_filter]
    congr 1
    apply List.filter_congr
    intro d _
    exact Bool.and_comm _ _
  unfold liveHits
  rw [← kept_eq, List.map_flatMap, List.filter_flatMap, List.map_flatMap]
  conv_rhs => rw [← List.zipIdx_map_fst 0 opened, List.flatMap_map]
  exact List.flatMap_congr hsplit

theorem hidden_le {ord : ℕ} {o : Opened} (h : (o.split.docs.map TantivyDocument.id).Nodup) :
    ((splitHits T q name ord o).filter fun x => !live tombstones x).length ≤
      tombstones.entries.length := by
  have hnodup : ((splitHits T q name ord o).map Hit.id).Nodup := splitHits_ids_nodup h
  have hids := hnodup.sublist
    ((List.filter_sublist (p := fun x => !live tombstones x)).map Hit.id)
  have hsub : ∀ id ∈ ((splitHits T q name ord o).filter fun x => !live tombstones x).map Hit.id,
      id ∈ tombstones.entries.map Prod.fst := by
    intro id hid
    obtain ⟨x, hx, rfl⟩ := List.mem_map.mp hid
    have hdead := (List.mem_filter.mp hx).2
    unfold live isDeletedAt Generations.hidden at hdead
    cases hget : tombstones.get x.id with
    | none =>
      rw [hget] at hdead
      exact absurd hdead nofun
    | some g => exact List.mem_map_of_mem (OrderedMap.mem_entries.mpr hget)
  have hle := (List.subperm_of_subset hids hsub).length_le
  rwa [List.length_map, List.length_map] at hle

section Ranks

variable {κ : Type} [LinearOrder κ] {rank : Hit Score → κ}

/-- Hits of the same rank are in the same place. -/
def Placing (rank : Hit Score → κ) : Prop := ∀ h h', rank h = rank h' → h.place = h'.place

omit [LinearOrder κ] in
theorem Placing.nodup {l : List (Hit Score)} (hrank : Placing rank)
    (h : TopK.Ascending Hit.place l) : (l.map rank).Nodup := by
  apply List.Pairwise.map _ _ h
  intro a b hlt heq
  exact absurd (hrank a b heq) (ne_of_lt hlt)

theorem placing_byScore [LinearOrder Score] : Placing (byScore : Hit Score → _) := by
  intro h h' heq
  exact (Prod.ext_iff.mp (toLex.injective heq)).2

theorem placing_byNumber (descending : Bool) (missing : ℤ) :
    Placing (byNumber descending missing : Hit Score → _) := by
  intro h h' heq
  exact (Prod.ext_iff.mp (toLex.injective heq)).2

theorem candidates_sublist (limit : ℕ) :
    (candidates T rank q name limit tombstones opened).Sublist (opened.zipIdx.flatMap fun o =>
      (TopK.sortBy rank (splitHits T q name o.2 o.1)).filter (live tombstones)) := by
  unfold candidates
  induction opened.zipIdx with
  | nil => exact List.Sublist.refl _
  | cons o rest ih =>
    rw [List.flatMap_cons, List.flatMap_cons]
    exact ((List.take_sublist _ _).filter _).append ih

theorem sorted_perm : (opened.zipIdx.flatMap fun o =>
    (TopK.sortBy rank (splitHits T q name o.2 o.1)).filter (live tombstones)).Perm
      (liveHits T q name tombstones opened) := by
  unfold liveHits
  apply List.Perm.flatMap_left
  intro o _
  exact (TopK.sortBy_perm rank _).filter _

theorem take_candidates (hrank : Placing rank)
    (hids : ∀ o ∈ opened, (o.split.docs.map TantivyDocument.id).Nodup) (limit : ℕ) :
    (TopK.sortBy rank (candidates T rank q name (limit + tombstones.entries.length) tombstones
      opened)).take limit =
        (TopK.sortBy rank (liveHits T q name tombstones opened)).take limit := by
  classical
  have hperm : (opened.zipIdx.flatMap fun o =>
      (TopK.sortBy rank (splitHits T q name o.2 o.1)).filter (live tombstones)).Perm
        (liveHits T q name tombstones opened) := sorted_perm
  have hplaces : TopK.Ascending Hit.place (liveHits T q name tombstones opened) := liveHits_places
  have hnodup := hrank.nodup hplaces
  have hruns := @TopK.take_runs _ _ _ rank _
    (opened.zipIdx.map fun o => TopK.sortBy rank (splitHits T q name o.2 o.1)) (live tombstones)
    limit tombstones.entries.length ?_ ?_ ?_
  · rw [List.flatMap_map, List.flatMap_map] at hruns
    rw [← TopK.sortBy_eq_of_perm ((hperm.map rank).nodup_iff.mpr hnodup) hperm]
    exact hruns
  · intro r hr
    obtain ⟨o, -, rfl⟩ := List.mem_map.mp hr
    exact TopK.sortBy_ascending (hrank.nodup (splitHits_places o.2 o.1))
  · rw [List.flatMap_map]
    exact (hperm.map rank).nodup_iff.mpr hnodup
  · intro r hr
    obtain ⟨o, ho, rfl⟩ := List.mem_map.mp hr
    rw [((TopK.sortBy_perm rank _).filter _).length_eq]
    exact hidden_le (hids o.1 (List.fst_mem_of_mem_zipIdx ho))

theorem candidates_ids (limit : ℕ)
    (hlive : ((liveHits T q name tombstones opened).map Hit.id).Nodup) :
    ((candidates T rank q name limit tombstones opened).map Hit.id).Nodup := by
  have hsub : (candidates T rank q name limit tombstones opened).Sublist
      (opened.zipIdx.flatMap fun o =>
        (TopK.sortBy rank (splitHits T q name o.2 o.1)).filter (live tombstones)) :=
    candidates_sublist limit
  exact ((sorted_perm.map Hit.id).nodup_iff.mpr hlive).sublist (hsub.map Hit.id)

theorem Ready.liveHits_nodup (h : Ready schema b opened) :
    ((liveHits T q name b.tombstones opened).map Hit.id).Nodup := by
  rw [liveHits_ids h.uniform]
  exact h.live.sublist (List.filter_sublist.map _)

/-- The search finds the best live hits, when the collector and the last sort order the hits
as the rank does. -/
theorem Ready.searchBy (h : Ready schema b opened) (hrank : Placing rank) {κ' κ'' : Type}
    [LinearOrder κ'] [LinearOrder κ''] {collector : Hit Score → κ'} {last : Hit Score → κ''}
    (wins : Hit Score → Hit Score → Bool) {limit : ℕ} (hlimit : 0 < limit)
    (hcollector : ∀ o ∈ opened.zipIdx, TopK.sortBy collector (splitHits T q name o.2 o.1) =
      TopK.sortBy rank (splitHits T q name o.2 o.1))
    (hlast : ∀ n, TopK.sortBy last (candidates T rank q name n b.tombstones opened) =
      TopK.sortBy rank (candidates T rank q name n b.tombstones opened)) :
    searchBy T collector last wins q name limit b =
      .ok ((TopK.sortBy rank (liveHits T q name b.tombstones opened)).take limit) := by
  have hcandidates : ∀ n, candidates T collector q name n b.tombstones opened =
      candidates T rank q name n b.tombstones opened := by
    intro n
    unfold candidates
    apply List.flatMap_congr
    intro o ho
    rw [hcollector o ho]
  unfold Fts.searchBy
  rw [h.opens]
  dsimp only
  rw [if_neg fun hzero => absurd hzero.1 (by omega), hcandidates,
    dedup_eq wins (candidates_ids _ h.liveHits_nodup), hlast, take_candidates hrank h.ids]

end Ranks

section Score

variable [LinearOrder Score]

/-- The live matches by falling score. -/
def rankedByScore (T : Tantivy Query Score) (q : Query) (b : Blobs) (opened : List Opened) :
    List (Hit Score) := TopK.sortBy byScore (liveHits T q "" b.tombstones opened)

theorem Ready.searchQueryIds (h : Ready schema b opened) {limit : ℕ} (hlimit : 0 < limit) :
    searchQueryIds T q limit b =
      .ok (((rankedByScore T q b opened).take limit).map fun x => (x.id, x.score)) := by
  unfold Fts.searchQueryIds
  rw [h.searchBy placing_byScore newerCopy hlimit (fun _ _ => rfl) fun _ => rfl]
  rfl

end Score

theorem numberRank_eq_iff {descending : Bool} {missing missing' : ℤ} (h : missing ≠ 0)
    (h' : missing' ≠ 0) {n n' : Option ℤ} :
    numberRank descending missing n = numberRank descending missing n' ↔
      numberRank descending missing' n = numberRank descending missing' n' := by
  cases n <;> cases n' <;> simp [numberRank, h, h', h.symm, h'.symm]

theorem sortBy_numberRank {descending : Bool} {missing : ℤ} (hmissing : missing ≠ 0)
    {l : List (Hit Score)} (hl : l.Sublist (opened.zipIdx.flatMap fun o =>
      (TopK.sortBy (byNumber descending missing) (splitHits T q name o.2 o.1)).filter
        (live tombstones))) :
    TopK.sortBy (fun x : Hit Score => numberRank descending 1 x.value) l =
      TopK.sortBy (byNumber descending 1) l := by
  apply TopK.sortBy_congr
  have hplaces : (opened.zipIdx.flatMap fun o =>
      (TopK.sortBy (byNumber descending missing) (splitHits T q name o.2 o.1)).filter
        (live tombstones)).Pairwise fun x y =>
      numberRank descending 1 x.value = numberRank descending 1 y.value → x.place ≤ y.place := by
    rw [List.pairwise_flatMap]
    constructor
    · intro o _
      have hplaced : TopK.Ascending Hit.place (splitHits T q name o.2 o.1) :=
        splitHits_places o.2 o.1
      have hasc := TopK.sortBy_ascending ((placing_byNumber descending missing).nodup hplaced)
      apply (hasc.filter _).imp
      intro x y hlt heq
      rcases Prod.Lex.toLex_lt_toLex.mp hlt with hnumber | ⟨-, hplace⟩
      · exact absurd ((numberRank_eq_iff one_ne_zero hmissing).mp heq) (ne_of_lt hnumber)
      · exact le_of_lt hplace
    · apply (zipIdx_ascending opened).imp
      intro o o' hlt x hx y hy _
      have hx' := TopK.mem_sortBy.mp (List.mem_filter.mp hx).1
      have hy' := TopK.mem_sortBy.mp (List.mem_filter.mp hy).1
      apply Prod.Lex.toLex_le_toLex.mpr
      left
      rw [splitHits_ord hx', splitHits_ord hy']
      exact hlt
  apply (hplaces.sublist hl).imp
  intro x y hxy
  unfold byNumber
  rw [Prod.Lex.toLex_le_toLex]
  constructor
  · intro hle
    rcases lt_or_eq_of_le hle with hlt | heq
    · exact Or.inl hlt
    · exact Or.inr ⟨heq, hxy heq⟩
  · rintro (hlt | ⟨heq, -⟩)
    · exact le_of_lt hlt
    · exact le_of_eq heq

end BlueDB.Fts
