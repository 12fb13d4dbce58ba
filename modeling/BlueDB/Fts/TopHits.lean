import BlueDB.Fts.LikeAnswers

/-!
# The first hits of arbitrary splits

A search takes the first hits of every split before it drops hidden ones and superseded
copies. What it gives is exact when the first hits of the whole are all among them, and no
copy stands before them whose newer copies are not.
-/

namespace BlueDB.Fts

variable {Query Score : Type} {T : Tantivy Query Score} {q : Query} {name : String}
  {tombstones : OrderedMap String ℕ} {opened : List Opened}

section Newest

variable {γ : Type} [LinearOrder γ] {key : Hit Score → γ} {wins : Hit Score → Hit Score → Bool}

/-- The first of the copies of an id that no other one is newer than. -/
def Newest {ε : Type} (id : ε → String) (key : ε → γ) (l : List ε) (c : ε) : Prop :=
  ∃ pre post, l = pre ++ c :: post ∧ (∀ x ∈ pre, id x = id c → key x < key c) ∧
    ∀ x ∈ post, id x = id c → key x ≤ key c

theorem Newest.mem {ε : Type} {id : ε → String} {key : ε → γ} {l : List ε} {c : ε}
    (h : Newest id key l c) : c ∈ l := by
  obtain ⟨pre, post, rfl, -⟩ := h
  simp

theorem Newest.le {ε : Type} {id : ε → String} {key : ε → γ} {l : List ε} {c x : ε}
    (h : Newest id key l c) (hx : x ∈ l) (hid : id x = id c) : key x ≤ key c := by
  obtain ⟨pre, post, rfl, hpre, hpost⟩ := h
  rcases List.mem_append.mp hx with hx | hx
  · exact (hpre x hx hid).le
  · rcases List.mem_cons.mp hx with rfl | hx
    · exact le_rfl
    · exact hpost x hx hid

theorem Newest.unique {ε : Type} {id : ε → String} {key : ε → γ} {l : List ε} {c c' : ε}
    (h : Newest id key l c) (h' : Newest id key l c') (hid : id c = id c') : c = c' := by
  obtain ⟨pre, post, rfl, hpre, hpost⟩ := h
  have hle := h'.le (x := c) (by simp) hid
  obtain ⟨pre', post', heq, hpre', hpost'⟩ := h'
  rcases List.append_eq_append_iff.mp heq with ⟨mid, rfl, hmid⟩ | ⟨mid, rfl, hmid⟩
  · cases mid with
    | nil => exact (List.cons.inj hmid).1
    | cons x mid =>
      obtain ⟨rfl, rfl⟩ := List.cons.inj hmid
      have hlt := hpre' c (by simp) hid
      have hge := hpost c' (by simp) hid.symm
      exact absurd hlt (not_lt.mpr hge)
  · cases mid with
    | nil => exact (List.cons.inj hmid).1.symm
    | cons x mid =>
      obtain ⟨rfl, rfl⟩ := List.cons.inj hmid
      have hlt := hpre c' (by simp) hid.symm
      exact absurd hlt (not_lt.mpr hle)

theorem Newest.sublist {ε : Type} {id : ε → String} {key : ε → γ} {l l' : List ε} {c : ε}
    (h : Newest id key l c) (hl : l.Nodup) (hsub : l'.Sublist l) (hc : c ∈ l') :
    Newest id key l' c := by
  obtain ⟨pre, post, rfl, hpre, hpost⟩ := h
  obtain ⟨pre', rest, rfl, hpre', hrest⟩ := List.sublist_append_iff.mp hsub
  have hnot : c ∉ pre ∧ c ∉ post := by
    obtain ⟨-, hcons, hdisjoint⟩ := List.nodup_append.mp hl
    exact ⟨fun hmem => hdisjoint c hmem c (by simp) rfl, (List.nodup_cons.mp hcons).1⟩
  have hmem : c ∈ rest := by
    rcases List.mem_append.mp hc with hc | hc
    · exact absurd (hpre'.subset hc) hnot.1
    · exact hc
  rcases List.sublist_cons_iff.mp hrest with hrest | ⟨post', rfl, hpost'⟩
  · exact absurd (hrest.subset hmem) hnot.2
  · exact ⟨pre', post', rfl, fun x hx => hpre x (hpre'.subset hx),
      fun x hx => hpost x (hpost'.subset hx)⟩

theorem newest_iff {ε δ : Type} [LinearOrder δ] {id : ε → String} {key : ε → γ} {rank : ε → δ}
    {l : List ε} {c : ε} (hl : TopK.Ascending rank l) : Newest id key l c ↔
      c ∈ l ∧ ∀ x ∈ l, id x = id c → key x < key c ∨ key x = key c ∧ rank c ≤ rank x := by
  constructor
  · intro h
    refine ⟨h.mem, fun x hx hid => (h.le hx hid).lt_or_eq.imp_right fun heq => ⟨heq, ?_⟩⟩
    obtain ⟨pre, post, rfl, hpre, -⟩ := h
    have hafter := (List.pairwise_cons.mp (List.pairwise_append.mp hl).2.1).1
    rcases List.mem_append.mp hx with hx | hx
    · exact absurd heq (hpre x hx hid).ne
    · rcases List.mem_cons.mp hx with rfl | hx
      · exact le_rfl
      · exact (hafter x hx).le
  · rintro ⟨hc, hall⟩
    obtain ⟨pre, post, rfl⟩ := List.append_of_mem hc
    refine ⟨pre, post, rfl, fun x hx hid => ?_, fun x hx hid => ?_⟩
    · have hlt := (List.pairwise_append.mp hl).2.2 x hx c List.mem_cons_self
      exact (hall x (by simp [hx]) hid).resolve_right fun h => absurd hlt h.2.not_gt
    · exact (hall x (by simp [hx]) hid).elim le_of_lt fun h => h.1.le

theorem bestById_spec (hwins : ∀ c cur, wins c cur = true ↔ key cur < key c)
    (l : List (Hit Score × ℕ)) (id : String) : match (bestById wins l).get id with
      | some c => c.1.id = id ∧ Newest (fun x => x.1.id) (fun x => key x.1) l c
      | none => ∀ c ∈ l, c.1.id ≠ id := by
  induction l using List.reverseRecOn with
  | nil =>
    intro c hc
    cases hc
  | append_singleton l c ih =>
    have hstep : bestById wins (l ++ [c]) = better wins (bestById wins l) c := by
      simp only [bestById, List.foldl_append, List.foldl_cons, List.foldl_nil]
      rfl
    have hlast : ∀ {c' : Hit Score × ℕ}, Newest (fun x => x.1.id) (fun x => key x.1) l c' →
        (c.1.id = c'.1.id → key c.1 ≤ key c'.1) →
        Newest (fun x => x.1.id) (fun x => key x.1) (l ++ [c]) c' := by
      rintro c' ⟨pre, post, rfl, hpre, hpost⟩ hle
      refine ⟨pre, post ++ [c], by simp, hpre, ?_⟩
      intro x hx hid
      rcases List.mem_append.mp hx with hx | hx
      · exact hpost x hx hid
      · obtain rfl := List.mem_singleton.mp hx
        exact hle hid
    rw [hstep]
    by_cases hid : c.1.id = id
    · subst hid
      unfold better
      cases hget : (bestById wins l).get c.1.id with
      | none =>
        rw [hget] at ih
        simp only [OrderedMap.get_insert, if_true]
        exact ⟨trivial, l, [], rfl, fun x hx hx' => absurd hx' (ih x hx), by simp⟩
      | some cur =>
        rw [hget] at ih
        obtain ⟨hcur, hnewest⟩ := ih
        by_cases hnewer : wins c.1 cur.1 = true
        · simp only [if_pos hnewer, OrderedMap.get_insert, if_true]
          refine ⟨trivial, l, [], rfl, ?_, by simp⟩
          intro x hx hx'
          exact (hnewest.le hx (hx'.trans hcur.symm)).trans_lt ((hwins _ _).mp hnewer)
        · simp only [if_neg hnewer, hget]
          exact ⟨hcur, hlast hnewest fun _ => not_lt.mp fun hlt => hnewer ((hwins _ _).mpr hlt)⟩
    · have hsame : (better wins (bestById wins l) c).get id = (bestById wins l).get id := by
        unfold better
        split
        · split
          · rw [OrderedMap.get_insert, if_neg (Ne.symm hid)]
          · rfl
        · rw [OrderedMap.get_insert, if_neg (Ne.symm hid)]
      rw [hsame]
      cases hget : (bestById wins l).get id with
      | none =>
        rw [hget] at ih
        intro x hx
        rcases List.mem_append.mp hx with hx | hx
        · exact ih x hx
        · obtain rfl := List.mem_singleton.mp hx
          exact hid
      | some cur =>
        rw [hget] at ih
        obtain ⟨hcur, hnewest⟩ := ih
        exact ⟨hcur, hlast hnewest fun heq => absurd (heq.trans hcur) hid⟩

theorem Newest.of_zipIdx {all : List (Hit Score)} {c : Hit Score × ℕ}
    (h : Newest (fun x => x.1.id) (fun x => key x.1) all.zipIdx c) : Newest Hit.id key all c.1 := by
  obtain ⟨pre, post, heq, hpre, hpost⟩ := h
  refine ⟨pre.map Prod.fst, post.map Prod.fst, ?_, ?_, ?_⟩
  · conv_lhs => rw [← List.zipIdx_map_fst 0 all, heq, List.map_append, List.map_cons]
  · intro x hx
    obtain ⟨y, hy, rfl⟩ := List.mem_map.mp hx
    exact hpre y hy
  · intro x hx
    obtain ⟨y, hy, rfl⟩ := List.mem_map.mp hx
    exact hpost y hy

theorem exists_dedup (hwins : ∀ c cur, wins c cur = true ↔ key cur < key c)
    {all : List (Hit Score)} {h : Hit Score} (hh : h ∈ all) :
    ∃ h' ∈ dedup wins all, h'.id = h.id ∧ Newest Hit.id key all h' := by
  obtain ⟨i, hi⟩ := List.mem_iff_getElem?.mp hh
  have hmem : (h, i) ∈ all.zipIdx := List.mk_mem_zipIdx_iff_getElem?.mpr hi
  have hspec := bestById_spec hwins all.zipIdx h.id
  cases hget : (bestById wins all.zipIdx).get h.id with
  | none =>
    rw [hget] at hspec
    exact absurd rfl (hspec _ hmem)
  | some c =>
    rw [hget] at hspec
    obtain ⟨hid, hnewest⟩ := hspec
    refine ⟨c.1, ?_, hid, hnewest.of_zipIdx⟩
    unfold dedup
    apply List.mem_map_of_mem
    rw [List.mem_filter, decide_eq_true_iff, hid, hget]
    exact ⟨hnewest.mem, rfl⟩

theorem mem_dedup (hwins : ∀ c cur, wins c cur = true ↔ key cur < key c) {all : List (Hit Score)}
    {h : Hit Score} : h ∈ dedup wins all ↔ Newest Hit.id key all h := by
  constructor
  · intro hh
    unfold dedup at hh
    obtain ⟨c, hc, rfl⟩ := List.mem_map.mp hh
    obtain ⟨hc, hbest⟩ := List.mem_filter.mp hc
    have hspec := bestById_spec hwins all.zipIdx c.1.id
    rw [decide_eq_true_iff] at hbest
    obtain ⟨c', hget, hindex⟩ := Option.map_eq_some_iff.mp hbest
    rw [hget] at hspec
    have hfst := List.mk_mem_zipIdx_iff_getElem?.mp hspec.2.mem
    rw [hindex, List.mk_mem_zipIdx_iff_getElem?.mp hc] at hfst
    rw [Option.some.inj hfst]
    exact hspec.2.of_zipIdx
  · intro hnewest
    obtain ⟨h', hh', hid, hnewest'⟩ := exists_dedup hwins hnewest.mem
    rwa [← hnewest'.unique hnewest hid]

theorem dedup_sublist (wins : Hit Score → Hit Score → Bool) (all : List (Hit Score)) :
    (dedup wins all).Sublist all := by
  unfold dedup
  conv_rhs => rw [← List.zipIdx_map_fst 0 all]
  exact List.filter_sublist.map _

theorem dedup_ids (hwins : ∀ c cur, wins c cur = true ↔ key cur < key c) {all : List (Hit Score)}
    (hall : all.Nodup) : ((dedup wins all).map Hit.id).Nodup := by
  apply List.Nodup.map_on _ (hall.sublist (dedup_sublist wins all))
  intro h hh h' hh' hid
  exact ((mem_dedup hwins).mp hh).unique ((mem_dedup hwins).mp hh') hid

end Newest

/-- How `newerCopy` compares copies. -/
def newerKey (h : Hit Score) : ℕ ×ₗ (ℕ ×ₗ Score) :=
  toLex (h.generation, toLex (h.splitOrd, h.score))

theorem newerCopy_iff [LinearOrder Score] (c cur : Hit Score) :
    newerCopy c cur = true ↔ newerKey cur < newerKey c := by
  have hgeneration : c.generation = cur.generation ↔ cur.generation = c.generation := eq_comm
  have hord : c.splitOrd = cur.splitOrd ↔ cur.splitOrd = c.splitOrd := eq_comm
  simp only [newerCopy, newerKey, Prod.Lex.toLex_lt_toLex, Bool.or_eq_true, Bool.and_eq_true,
    decide_eq_true_eq, beq_iff_eq, hgeneration, hord]

section Search

variable {κ κ' κ'' γ : Type} [LinearOrder κ] [LinearOrder κ'] [LinearOrder κ''] [LinearOrder γ]
  {collector : Hit Score → κ} {rank : Hit Score → κ'} {last : Hit Score → κ''}
  {wins : Hit Score → Hit Score → Bool} {key : Hit Score → γ} {limit : ℕ}

/-- A search in opened splits. -/
def searchSplits (T : Tantivy Query Score) (collector : Hit Score → κ) (last : Hit Score → κ'')
    (wins : Hit Score → Hit Score → Bool) (q : Query) (name : String) (limit : ℕ)
    (tombstones : OrderedMap String ℕ) (opened : List Opened) :
      Except FtsError (List (Hit Score)) :=
  let perSplit := limit + tombstones.entries.length
  if perSplit = 0 ∧ opened ≠ [] then .error .zeroLimit
  else
    let all := candidates T collector q name perSplit tombstones opened
    .ok ((TopK.sortBy last (dedup wins all)).take limit)

theorem searchBy_eq (b : Blobs) : searchBy T collector last wins q name limit b =
    match openSplits b b.manifest with
    | none => .error .missingSplit
    | some opened => searchSplits T collector last wins q name limit b.tombstones opened := rfl

/-- The live matches, however many there are, split by split in the order of the collector. -/
def allHits (T : Tantivy Query Score) (collector : Hit Score → κ) (q : Query) (name : String)
    (tombstones : OrderedMap String ℕ) (opened : List Opened) : List (Hit Score) :=
  opened.zipIdx.flatMap fun o =>
    (TopK.sortBy collector (splitHits T q name o.2 o.1)).filter (live tombstones)

/-- The live matches that are the newest of their id, in the order of a rank. -/
def exactHits (T : Tantivy Query Score) (collector : Hit Score → κ) (rank : Hit Score → κ')
    (wins : Hit Score → Hit Score → Bool) (q : Query) (name : String)
    (tombstones : OrderedMap String ℕ) (opened : List Opened) : List (Hit Score) :=
  TopK.sortBy rank (dedup wins (allHits T collector q name tombstones opened))

theorem allHits_perm : (allHits T collector q name tombstones opened).Perm
    (liveHits T q name tombstones opened) := sorted_perm

theorem allHits_nodup : (allHits T collector q name tombstones opened).Nodup :=
  allHits_perm.nodup_iff.mpr liveHits_places.nodup

/-- The matches that are the newest of their id, as a set: those that every other live match
of the id is not newer than, and the first of those. -/
theorem mem_exactHits (hwins : ∀ c cur, wins c cur = true ↔ key cur < key c) {h : Hit Score} :
    h ∈ exactHits T collector rank wins q name tombstones opened ↔
      Newest Hit.id key (allHits T collector q name tombstones opened) h := by
  rw [exactHits, TopK.mem_sortBy, mem_dedup hwins]

/-- All matches of the splits. -/
def matchingHits (T : Tantivy Query Score) (q : Query) (name : String) (opened : List Opened) :
    List (Hit Score) := opened.zipIdx.flatMap fun o => splitHits T q name o.2 o.1

theorem liveHits_eq_filter : liveHits T q name tombstones opened =
    (matchingHits T q name opened).filter (live tombstones) := by
  unfold liveHits matchingHits
  rw [List.filter_flatMap]

/-- A limit that there are no more matches than takes all live ones. -/
theorem candidates_eq_allHits {n : ℕ} (hall : (matchingHits T q name opened).length ≤ n) :
    candidates T collector q name n tombstones opened =
      allHits T collector q name tombstones opened := by
  unfold candidates allHits
  apply List.flatMap_congr
  intro o ho
  have hsplit : (splitHits T q name o.2 o.1).length ≤ (matchingHits T q name opened).length := by
    unfold matchingHits
    rw [List.length_flatMap]
    exact List.single_le_sum (fun _ _ => Nat.zero_le _) _ (List.mem_map_of_mem ho)
  rw [List.take_of_length_le]
  rw [(TopK.sortBy_perm _ _).length_eq]
  exact hsplit.trans hall

/-- How many matches of its split a collector puts before a hit. -/
def above (T : Tantivy Query Score) (collector : Hit Score → κ) (q : Query) (name : String)
    (opened : List Opened) (h : Hit Score) : ℕ :=
  ((matchingHits T q name opened).filter fun x =>
    x.splitOrd = h.splitOrd ∧ collector x < collector h).length

theorem above_eq {o : Opened × ℕ} (ho : o ∈ opened.zipIdx) {h : Hit Score}
    (hh : h ∈ splitHits T q name o.2 o.1) : above T collector q name opened h =
      ((splitHits T q name o.2 o.1).filter fun x => collector x < collector h).length := by
  have hother : ∀ rest : List (Opened × ℕ), (∀ o' ∈ rest, o'.2 ≠ o.2) →
      (rest.flatMap fun o' => (splitHits T q name o'.2 o'.1).filter fun x =>
        x.splitOrd = h.splitOrd ∧ collector x < collector h) = [] := by
    intro rest hrest
    refine List.flatMap_eq_nil_iff.mpr fun o' ho' => List.filter_eq_nil_iff.mpr fun x hx => ?_
    rw [splitHits_ord hx, splitHits_ord hh]
    simp [hrest o' ho']
  obtain ⟨pre, post, hsplit⟩ := List.append_of_mem ho
  have hpair := zipIdx_ascending opened
  rw [hsplit] at hpair
  obtain ⟨-, hcons, hbefore⟩ := List.pairwise_append.mp hpair
  unfold above matchingHits
  rw [List.filter_flatMap, hsplit, List.flatMap_append, List.flatMap_cons,
    hother pre fun o' ho' => (hbefore o' ho' o List.mem_cons_self).ne,
    hother post fun o' ho' => ((List.pairwise_cons.mp hcons).1 o' ho').ne', List.nil_append,
    List.append_nil]
  congr 1
  apply List.filter_congr
  intro x hx
  rw [splitHits_ord hx, splitHits_ord hh]
  simp

/-- The first hits of the splits are the live matches with few matches before them. -/
theorem mem_candidates (hcollector : Placing collector) {n : ℕ} {h : Hit Score} :
    h ∈ candidates T collector q name n tombstones opened ↔
      h ∈ liveHits T q name tombstones opened ∧ above T collector q name opened h < n := by
  unfold candidates liveHits
  rw [List.mem_flatMap, List.mem_flatMap]
  have hnodup : ∀ o : Opened × ℕ, ((splitHits T q name o.2 o.1).map collector).Nodup :=
    fun o => hcollector.nodup (splitHits_places o.2 o.1)
  constructor
  · rintro ⟨o, ho, hh⟩
    obtain ⟨htake, hlive⟩ := List.mem_filter.mp hh
    obtain ⟨hmatch, hfew⟩ := (TopK.mem_take_sortBy (hnodup o)).mp htake
    exact ⟨⟨o, ho, List.mem_filter.mpr ⟨hmatch, hlive⟩⟩, (above_eq ho hmatch).trans_lt hfew⟩
  · rintro ⟨⟨o, ho, hh⟩, hfew⟩
    obtain ⟨hmatch, hlive⟩ := List.mem_filter.mp hh
    rw [above_eq ho hmatch] at hfew
    exact ⟨o, ho, List.mem_filter.mpr ⟨(TopK.mem_take_sortBy (hnodup o)).mpr ⟨hmatch, hfew⟩, hlive⟩⟩

/-- Split by split, and in a split in the order of the collector. -/
def bySplit (collector : Hit Score → κ) (h : Hit Score) : ℕ ×ₗ κ :=
  toLex (h.splitOrd, collector h)

theorem candidates_ascending (hcollector : Placing collector) (n : ℕ) :
    TopK.Ascending (bySplit collector) (candidates T collector q name n tombstones opened) := by
  unfold candidates TopK.Ascending
  have hord : ∀ {o : Opened × ℕ} {h : Hit Score}, h ∈ ((TopK.sortBy collector
      (splitHits T q name o.2 o.1)).take n).filter (live tombstones) → h.splitOrd = o.2 :=
    fun hh => splitHits_ord (TopK.mem_sortBy.mp (List.mem_of_mem_take (List.mem_filter.mp hh).1))
  rw [List.pairwise_flatMap]
  constructor
  · intro o _
    have hsorted := TopK.sortBy_ascending (hcollector.nodup (splitHits_places (T := T) (q := q)
      o.2 o.1 : TopK.Ascending Hit.place (splitHits T q name o.2 o.1)))
    refine ((hsorted.sublist (List.take_sublist n _)).filter _).imp_of_mem ?_
    intro x y hx hy hlt
    exact Prod.Lex.toLex_lt_toLex.mpr (Or.inr ⟨(hord hx).trans (hord hy).symm, hlt⟩)
  · apply (zipIdx_ascending opened).imp
    intro o o' hlt h hh h' hh'
    refine Prod.Lex.toLex_lt_toLex.mpr (Or.inl ?_)
    rw [hord hh, hord hh']
    exact hlt

/-- Of the live copies of its id that have fewer than `n` matches before them no other is
newer, and of those as new it is the first. -/
def NewestNear (T : Tantivy Query Score) (collector : Hit Score → κ) (key : Hit Score → γ)
    (q : Query) (name : String) (n : ℕ) (tombstones : OrderedMap String ℕ) (opened : List Opened)
    (s : Hit Score) : Prop :=
  above T collector q name opened s < n ∧
    ∀ x ∈ liveHits T q name tombstones opened, x.id = s.id → above T collector q name opened x < n →
      key x < key s ∨ key x = key s ∧ bySplit collector s ≤ bySplit collector x

instance (n : ℕ) (s : Hit Score) :
    Decidable (NewestNear T collector key q name n tombstones opened s) :=
  inferInstanceAs (Decidable (_ ∧ _))

theorem newest_candidates (hcollector : Placing collector) {n : ℕ} {s : Hit Score} :
    Newest Hit.id key (candidates T collector q name n tombstones opened) s ↔
      s ∈ liveHits T q name tombstones opened ∧
        NewestNear T collector key q name n tombstones opened s := by
  rw [newest_iff (candidates_ascending hcollector n), mem_candidates hcollector, and_assoc]
  simp only [mem_candidates hcollector, NewestNear, and_imp]
  refine and_congr_right fun _ => and_congr_right fun _ => ?_
  exact forall_congr' fun x => forall_congr' fun _ => imp.swap

/-- The first exact hits have few matches of their splits before them, and a near copy whose
newer copies are not near comes after them. -/
structure Reached (T : Tantivy Query Score) (collector : Hit Score → κ) (rank : Hit Score → κ')
    (wins : Hit Score → Hit Score → Bool) (key : Hit Score → γ) (q : Query) (name : String)
    (limit : ℕ) (tombstones : OrderedMap String ℕ) (opened : List Opened) : Prop where
  limited : limit + tombstones.entries.length ≠ 0 ∨ opened = []
  near : ∀ h ∈ (exactHits T collector rank wins q name tombstones opened).take limit,
    above T collector q name opened h < limit + tombstones.entries.length
  behind : ∀ s ∈ liveHits T q name tombstones opened,
    NewestNear T collector key q name (limit + tombstones.entries.length) tombstones opened s →
      s ∉ exactHits T collector rank wins q name tombstones opened →
        ∀ h ∈ (exactHits T collector rank wins q name tombstones opened).take limit, rank h < rank s

theorem take_exactHits_iff (hrank : Placing rank)
    (hwins : ∀ c cur, wins c cur = true ↔ key cur < key c) {n : ℕ} :
    (TopK.sortBy rank (dedup wins (candidates T collector q name n tombstones opened))).take limit =
        (exactHits T collector rank wins q name tombstones opened).take limit ↔
      (∀ h ∈ (exactHits T collector rank wins q name tombstones opened).take limit,
        h ∈ candidates T collector q name n tombstones opened) ∧
      ∀ s, Newest Hit.id key (candidates T collector q name n tombstones opened) s →
        s ∉ exactHits T collector rank wins q name tombstones opened →
        ∀ h ∈ (exactHits T collector rank wins q name tombstones opened).take limit,
          rank h < rank s := by
  classical
  have hsub : (candidates T collector q name n tombstones opened).Sublist
      (allHits T collector q name tombstones opened) := candidates_sublist n
  have hranks : ((allHits T collector q name tombstones opened).map rank).Nodup :=
    (allHits_perm.map rank).nodup_iff.mpr (hrank.nodup liveHits_places)
  have hall := hranks.sublist ((dedup_sublist wins _).map rank)
  have hcut := hranks.sublist (((dedup_sublist wins _).trans hsub).map rank)
  have hmem : ∀ {h}, h ∈ exactHits T collector rank wins q name tombstones opened →
      (h ∈ dedup wins (candidates T collector q name n tombstones opened) ↔
        h ∈ candidates T collector q name n tombstones opened) := by
    intro h hh
    constructor
    · exact fun hd => (dedup_sublist wins _).subset hd
    · intro hc
      exact (mem_dedup hwins).mpr (((mem_exactHits hwins).mp hh).sublist allHits_nodup hsub hc)
  unfold exactHits at hmem ⊢
  rw [TopK.take_sortBy_eq_iff hall hcut]
  simp only [TopK.mem_sortBy] at hmem ⊢
  constructor
  · rintro ⟨hcollected, hbehind⟩
    refine ⟨fun h hh => (hmem ?_).mp (hcollected h hh), fun s hs hout =>
      (hbehind s ((mem_dedup hwins).mpr hs) hout).2⟩
    exact TopK.mem_sortBy.mp (List.mem_of_mem_take hh)
  · rintro ⟨hcollected, hbehind⟩
    refine ⟨fun h hh => (hmem ?_).mpr (hcollected h hh), fun s hs hout =>
      ⟨?_, hbehind s ((mem_dedup hwins).mp hs) hout⟩⟩
    · exact TopK.mem_sortBy.mp (List.mem_of_mem_take hh)
    · -- with fewer hits than the limit all newest copies are collected, and there is no other
      by_contra hfew
      obtain ⟨h, hh, hid, -⟩ := exists_dedup hwins (hsub.subset ((dedup_sublist wins _).subset hs))
      have htake : h ∈ (TopK.sortBy rank
          (dedup wins (allHits T collector q name tombstones opened))).take limit := by
        rw [List.take_of_length_le, TopK.mem_sortBy]
        · exact hh
        · rw [(TopK.sortBy_perm rank _).length_eq]
          omega
      have hnewest := (mem_dedup hwins).mp ((hmem hh).mpr (hcollected h htake))
      rw [((mem_dedup hwins).mp hs).unique hnewest hid.symm] at hout
      exact hout hh

theorem mem_liveHits_of_exactHits {h : Hit Score}
    (hh : h ∈ exactHits T collector rank wins q name tombstones opened) :
    h ∈ liveHits T q name tombstones opened :=
  allHits_perm.mem_iff.mp ((dedup_sublist wins _).subset (TopK.mem_sortBy.mp hh))

theorem searchSplits_exact_iff (hcollector : Placing collector) (hrank : Placing rank)
    (hwins : ∀ c cur, wins c cur = true ↔ key cur < key c)
    (hlast : ∀ l, l.Sublist (allHits T collector q name tombstones opened) →
      TopK.sortBy last l = TopK.sortBy rank l) :
    searchSplits T collector last wins q name limit tombstones opened =
        .ok ((exactHits T collector rank wins q name tombstones opened).take limit) ↔
      Reached T collector rank wins key q name limit tombstones opened := by
  have hsub : (candidates T collector q name (limit + tombstones.entries.length) tombstones
      opened).Sublist (allHits T collector q name tombstones opened) := candidates_sublist _
  unfold searchSplits
  dsimp only
  split
  · next hzero =>
    refine ⟨fun h => (nomatch h), fun h => ?_⟩
    rcases h.limited with hne | hnil
    · exact absurd hzero.1 hne
    · exact absurd hnil hzero.2
  · next hne =>
    rw [Except.ok.injEq, hlast _ ((dedup_sublist wins _).trans hsub),
        take_exactHits_iff hrank hwins]
    constructor
    · rintro ⟨hcollected, hbehind⟩
      refine ⟨by tauto, fun h hh => ((mem_candidates hcollector).mp (hcollected h hh)).2, ?_⟩
      exact fun s hs hnear => hbehind s ((newest_candidates hcollector).mpr ⟨hs, hnear⟩)
    · intro h
      constructor
      · intro x hx
        have hlive := mem_liveHits_of_exactHits (List.mem_of_mem_take hx)
        exact (mem_candidates hcollector).mpr ⟨hlive, h.near x hx⟩
      · intro s hs
        obtain ⟨hlive, hnear⟩ := (newest_candidates hcollector).mp hs
        exact h.behind s hlive hnear

end Search

/-- How a sorted search compares copies. -/
def newerGeneration (c cur : Hit Score) : Bool := decide (cur.generation < c.generation)

theorem newerGeneration_iff (c cur : Hit Score) :
    newerGeneration c cur = true ↔ cur.generation < c.generation := decide_eq_true_iff

theorem sortBy_collected {descending : Bool} (l : List (Hit Score))
    (hl : l.Sublist (allHits T (collected T descending) q name tombstones opened)) :
    TopK.sortBy (fun x : Hit Score => numberRank descending 1 x.value) l =
      TopK.sortBy (byNumber descending 1) l := by
  apply sortBy_numberRank _ hl
  split
  · exact neg_ne_zero.mpr one_ne_zero
  · exact one_ne_zero

/-- A search by the sort field. -/
def multiSplitSearchSorted (T : Tantivy Query Score) (q : Query) (name : String)
    (descending : Bool) (limit : ℕ) (tombstones : OrderedMap String ℕ) (opened : List Opened) :
    Except FtsError (List (Hit Score)) :=
  searchSplits T (collected T descending) (fun h => numberRank descending 1 h.value)
    newerGeneration q name limit tombstones opened

def multiSplitSearchQuerySortedIds (T : Tantivy Query Score) (q : Query) (name : String)
    (descending : Bool) (limit : ℕ) (tombstones : OrderedMap String ℕ) (opened : List Opened) :
    Except FtsError (List (String × Score)) :=
  (multiSplitSearchSorted T q name descending limit tombstones opened).map fun hits =>
    hits.map fun h => (h.id, T.noScore)

/-- The newest live matches by the sort field, those without one last. -/
def exactByNumber (T : Tantivy Query Score) (q : Query) (name : String) (descending : Bool)
    (tombstones : OrderedMap String ℕ) (opened : List Opened) : List (Hit Score) :=
  exactHits T (collected T descending) (byNumber descending 1) newerGeneration q name tombstones
    opened

theorem multiSplitSearchSorted_eq_iff {descending : Bool} {limit : ℕ} :
    multiSplitSearchSorted T q name descending limit tombstones opened =
        .ok ((exactByNumber T q name descending tombstones opened).take limit) ↔
      Reached T (collected T descending) (byNumber descending 1) newerGeneration Hit.generation q
        name limit tombstones opened :=
  searchSplits_exact_iff (placing_byNumber descending _) (placing_byNumber descending 1)
    newerGeneration_iff sortBy_collected

section Score

variable [LinearOrder Score]

/-- A search by the score. -/
def multiSplitSearchFiltered (T : Tantivy Query Score) (q : Query) (limit : ℕ)
    (tombstones : OrderedMap String ℕ) (opened : List Opened) :
    Except FtsError (List (Hit Score)) :=
  searchSplits T byScore byScore newerCopy q "" limit tombstones opened

def multiSplitSearchQueryFilteredIds (T : Tantivy Query Score) (q : Query) (limit : ℕ)
    (tombstones : OrderedMap String ℕ) (opened : List Opened) :
    Except FtsError (List (String × Score)) :=
  (multiSplitSearchFiltered T q limit tombstones opened).map fun hits =>
    hits.map fun h => (h.id, h.score)

/-- The newest live matches by falling score. -/
def exactByScore (T : Tantivy Query Score) (q : Query) (tombstones : OrderedMap String ℕ)
    (opened : List Opened) : List (Hit Score) :=
  exactHits T byScore byScore newerCopy q "" tombstones opened

theorem multiSplitSearchFiltered_eq_iff {limit : ℕ} :
    multiSplitSearchFiltered T q limit tombstones opened =
        .ok ((exactByScore T q tombstones opened).take limit) ↔
      Reached T byScore byScore newerCopy newerKey q "" limit tombstones opened :=
  searchSplits_exact_iff placing_byScore placing_byScore newerCopy_iff fun _ _ => rfl

end Score

section Union

variable [LinearOrder Score] {d : IndexDef}

/-- The first matches of the splits of the durable tier. -/
def durableFirst (T : Tantivy Query Score) (q : Query) (d : IndexDef) (opened : List Opened) :
    List (Hit Score) :=
  candidates T byScore q "" (unionLimit + d.blobs.tombstones.entries.length) d.blobs.tombstones
    opened

/-- The newest near copies of their ids, covered or not. -/
def DurableNear (T : Tantivy Query Score) (q : Query) (d : IndexDef) (opened : List Opened) :
    Hit Score → Prop :=
  NewestNear T byScore newerKey q "" (unionLimit + d.blobs.tombstones.entries.length)
    d.blobs.tombstones opened

instance (opened : List Opened) (s : Hit Score) : Decidable (DurableNear T q d opened s) :=
  inferInstanceAs (Decidable (NewestNear ..))

/-- How many of them come before a hit. -/
def durableBefore (T : Tantivy Query Score) (q : Query) (d : IndexDef) (opened : List Opened)
    (h : Hit Score) : ℕ :=
  ((liveHits T q "" d.blobs.tombstones opened).filter fun s =>
    DurableNear T q d opened s ∧ byScore s < byScore h).length

/-- What the search of the durable tier gives. -/
def durableFound (T : Tantivy Query Score) (q : Query) (d : IndexDef) (opened : List Opened) :
    List (Hit Score) :=
  (TopK.sortBy byScore (dedup newerCopy (durableFirst T q d opened))).take unionLimit

def bothTiers (T : Tantivy Query Score) (q : Query) (d : IndexDef) (durable : List (Hit Score)) :
    List (ℕ × Hit Score) :=
  TopK.sortBy byTier
    ((liveTierHits T q d.schema d.segment).map (0, ·) ++
      (durable.filter (uncovered d)).map (1, ·))

/-- The best matches of the live documents and of those durable ones that are the newest of
their id and not covered. -/
def exactUnion (T : Tantivy Query Score) (q : Query) (d : IndexDef) (opened : List Opened) :
    List (ℕ × Hit Score) :=
  (bothTiers T q d (exactByScore T q d.blobs.tombstones opened)).take unionLimit

/-- What the union makes of what the two tiers give. -/
def foundUnion (T : Tantivy Query Score) (q : Query) (d : IndexDef) (opened : List Opened) :
    List (ℕ × Hit Score) := (bothTiers T q d (durableFound T q d opened)).take unionLimit

/-- The durable ones of the best matches have few matches of their splits and few near copies
before them, and a near copy whose newer copies are not near comes after all of the best. -/
structure UnionReached (T : Tantivy Query Score) (q : Query) (d : IndexDef)
    (opened : List Opened) : Prop where
  near : ∀ x ∈ exactUnion T q d opened, x.1 = 1 →
    above T byScore q "" opened x.2 < unionLimit + d.blobs.tombstones.entries.length ∧
      durableBefore T q d opened x.2 < unionLimit
  behind : ∀ s ∈ liveHits T q "" d.blobs.tombstones opened, DurableNear T q d opened s →
    durableBefore T q d opened s < unionLimit → uncovered d s = true →
      s ∉ exactByScore T q d.blobs.tombstones opened →
        ∀ x ∈ exactUnion T q d opened, byTier x < byTier (1, s)

theorem mem_dedup_newerCopy {all : List (Hit Score)} {h : Hit Score} :
    h ∈ dedup newerCopy all ↔ Newest Hit.id newerKey all h := mem_dedup newerCopy_iff

theorem durableFirst_sublist : (durableFirst T q d opened).Sublist
    (allHits T byScore q "" d.blobs.tombstones opened) := candidates_sublist _

theorem durable_nodup : ((dedup newerCopy (durableFirst T q d opened)).map byScore).Nodup := by
  have hall : ((allHits T byScore q "" d.blobs.tombstones opened).map byScore).Nodup :=
    (allHits_perm.map byScore).nodup_iff.mpr (placing_byScore.nodup liveHits_places)
  exact hall.sublist (((dedup_sublist _ _).trans durableFirst_sublist).map byScore)

theorem newest_durableFirst {s : Hit Score} :
    Newest Hit.id newerKey (durableFirst T q d opened) s ↔
      s ∈ liveHits T q "" d.blobs.tombstones opened ∧ DurableNear T q d opened s :=
  newest_candidates placing_byScore

/-- The search of the durable tier gives the newest near copies with few before them. -/
theorem mem_durableFound {h : Hit Score} : h ∈ durableFound T q d opened ↔
    Newest Hit.id newerKey (durableFirst T q d opened) h ∧
      durableBefore T q d opened h < unionLimit := by
  have hbefore : ((dedup newerCopy (durableFirst T q d opened)).filter
      fun s => byScore s < byScore h).Perm ((liveHits T q "" d.blobs.tombstones opened).filter
        fun s => DurableNear T q d opened s ∧ byScore s < byScore h) := by
    refine (List.perm_ext_iff_of_nodup ((List.Nodup.of_map byScore durable_nodup).filter _)
      (liveHits_places.nodup.filter _)).mpr fun s => ?_
    simp only [List.mem_filter, decide_eq_true_eq, mem_dedup_newerCopy, newest_durableFirst]
    exact and_assoc
  rw [durableFound, TopK.mem_take_sortBy durable_nodup, mem_dedup_newerCopy, hbefore.length_eq]
  rfl

/-- The union of few matches is exact. -/
theorem UnionReached.of_few (hfew : (matchingHits T q "" opened).length < unionLimit) :
    UnionReached T q d opened := by
  have hbefore : ∀ h, durableBefore T q d opened h < unionLimit := by
    intro h
    refine ((List.length_filter_le _ _).trans ?_).trans_lt hfew
    rw [liveHits_eq_filter]
    exact List.length_filter_le _ _
  constructor
  · intro x _ _
    have hle : above T byScore q "" opened x.2 ≤ _ := List.length_filter_le _ _
    exact ⟨by omega, hbefore x.2⟩
  · intro s hs hnear _ _ hout
    have hnewest := newest_durableFirst.mpr ⟨hs, hnear⟩
    unfold durableFirst at hnewest
    rw [candidates_eq_allHits (by omega)] at hnewest
    exact absurd ((mem_exactHits newerCopy_iff).mpr hnewest) hout

theorem exactByScore_places :
    ((exactByScore T q tombstones opened).map Hit.place).Nodup := by
  have hall : ((allHits T byScore q "" tombstones opened).map Hit.place).Nodup :=
    (allHits_perm.map Hit.place).nodup_iff.mpr liveHits_places.rank_nodup
  unfold exactByScore exactHits
  exact ((TopK.sortBy_perm _ _).map Hit.place).nodup_iff.mpr
    (hall.sublist ((dedup_sublist _ _).map Hit.place))

theorem durableFound_ascending : TopK.Ascending byScore (durableFound T q d opened) :=
  (TopK.sortBy_ascending durable_nodup).sublist (List.take_sublist _ _)

theorem durableFound_places : ((durableFound T q d opened).map Hit.place).Nodup := by
  have hall : ((allHits T byScore q "" d.blobs.tombstones opened).map Hit.place).Nodup :=
    (allHits_perm.map Hit.place).nodup_iff.mpr liveHits_places.rank_nodup
  have hdedup := hall.sublist
    (((dedup_sublist newerCopy _).trans durableFirst_sublist).map Hit.place)
  exact (((TopK.sortBy_perm byScore _).map Hit.place).nodup_iff.mpr hdedup).sublist
    ((List.take_sublist _ _).map _)

omit [LinearOrder Score] in
theorem uncovered_eq {h h' : Hit Score} (hid : h.id = h'.id) : uncovered d h = uncovered d h' := by
  unfold uncovered Hit.keyed Hit.key
  rw [hid]

omit [LinearOrder Score] in
theorem mem_tiers {l l' : List (Hit Score)} {h : Hit Score} :
    (1, h) ∈ l.map (0, ·) ++ l'.map (1, ·) ↔ h ∈ l' := by
  simp

omit [LinearOrder Score] in
theorem bothTiers_ranks {l : List (Hit Score)} (hl : (l.map Hit.place).Nodup) :
    (((liveTierHits T q d.schema d.segment).map (0, ·) ++
      (l.filter (uncovered d)).map (1, ·)).map byTier).Nodup := by
  have hlive : TopK.Ascending Hit.place (liveTierHits T q d.schema d.segment) :=
    liveTierHits_places
  exact tiers_ranks hlive.rank_nodup (hl.sublist (List.filter_sublist.map _))

/-- The union gives the best matches if and only if it reaches them. -/
theorem foundUnion_eq_iff :
    foundUnion T q d opened = exactUnion T q d opened ↔ UnionReached T q d opened := by
  classical
  have hnewest : ∀ {h}, h ∈ exactByScore T q d.blobs.tombstones opened →
      h ∈ durableFirst T q d opened → Newest Hit.id newerKey (durableFirst T q d opened) h :=
    fun hh hfirst => ((mem_exactHits newerCopy_iff).mp hh).sublist allHits_nodup
      durableFirst_sublist hfirst
  unfold foundUnion exactUnion bothTiers
  rw [TopK.take_sortBy_eq_iff (bothTiers_ranks exactByScore_places)
    (bothTiers_ranks durableFound_places)]
  constructor
  · rintro ⟨hcollected, hbehind⟩
    constructor
    · rintro ⟨tier, h⟩ hx rfl
      have hfound := (List.mem_filter.mp (mem_tiers.mp (hcollected _ hx))).1
      obtain ⟨hfirst, hbefore⟩ := mem_durableFound.mp hfound
      exact ⟨(newest_durableFirst.mp hfirst).2.1, hbefore⟩
    · intro s hs hnear hbefore hunc hout
      apply (hbehind (1, s) _ _).2
      · exact mem_tiers.mpr (List.mem_filter.mpr
          ⟨mem_durableFound.mpr ⟨newest_durableFirst.mpr ⟨hs, hnear⟩, hbefore⟩, hunc⟩)
      · exact fun hmem => hout (List.mem_filter.mp (mem_tiers.mp hmem)).1
  · intro hreached
    have hfirst : ∀ {h}, h ∈ exactByScore T q d.blobs.tombstones opened →
        (1, h) ∈ exactUnion T q d opened → h ∈ durableFirst T q d opened := fun hexact hbest =>
      (mem_candidates placing_byScore).mpr
        ⟨mem_liveHits_of_exactHits hexact, (hreached.near _ hbest rfl).1⟩
    constructor
    · rintro ⟨tier, h⟩ hx
      rcases List.mem_append.mp (TopK.mem_sortBy.mp (List.mem_of_mem_take hx)) with hlive | hdurable
      · exact List.mem_append_left _ hlive
      · obtain ⟨h', hh', heq⟩ := List.mem_map.mp hdurable
        obtain ⟨rfl, rfl⟩ := Prod.mk.inj heq
        obtain ⟨hexact, hunc⟩ := List.mem_filter.mp hh'
        have hbefore := (hreached.near _ hx rfl).2
        exact mem_tiers.mpr (List.mem_filter.mpr
          ⟨mem_durableFound.mpr ⟨hnewest hexact (hfirst hexact hx), hbefore⟩, hunc⟩)
    · rintro y hy hout
      rcases List.mem_append.mp hy with hlive | hdurable
      · exact absurd (List.mem_append_left _ hlive) hout
      · obtain ⟨s, hs, rfl⟩ := List.mem_map.mp hdurable
        obtain ⟨hfound, hunc⟩ := List.mem_filter.mp hs
        obtain ⟨hcopy, hbefore⟩ := mem_durableFound.mp hfound
        obtain ⟨hlive, hnear⟩ := newest_durableFirst.mp hcopy
        have hstale : s ∉ exactByScore T q d.blobs.tombstones opened := fun hexact =>
          hout (mem_tiers.mpr (List.mem_filter.mpr ⟨hexact, hunc⟩))
        refine ⟨?_, hreached.behind s hlive hnear hbefore hunc hstale⟩
        -- with fewer matches than the limit the newest copy is among the best
        by_contra hfew
        obtain ⟨h, hh, hid, hnewest'⟩ := exists_dedup newerCopy_iff
          (durableFirst_sublist.subset hcopy.mem)
        have hexact : h ∈ exactByScore T q d.blobs.tombstones opened :=
          (mem_exactHits newerCopy_iff).mpr hnewest'
        have hbest : (1, h) ∈ exactUnion T q d opened := by
          unfold exactUnion bothTiers
          rw [List.take_of_length_le, TopK.mem_sortBy]
          · exact mem_tiers.mpr (List.mem_filter.mpr ⟨hexact, (uncovered_eq hid).trans hunc⟩)
          · rw [(TopK.sortBy_perm byTier _).length_eq]
            omega
        rw [hcopy.unique (hnewest hexact (hfirst hexact hbest)) hid.symm] at hstale
        exact hstale hexact

/-- What the union of a live tier with opened splits gives. -/
theorem unionHits_found (hkeys : (d.segment.docs.map Prod.fst).Nodup)
    (hopens : openSplits d.blobs d.blobs.manifest = some opened)
    {parse : String → Except String Query} {query : String} (hparse : parse query = .ok q) :
    unionHits T parse d query = .ok ((foundUnion T q d opened).map fun x => x.2.toFtsHit) := by
  have hlimit : 0 < unionLimit := by decide
  apply unionHits_of_search hkeys durableFound_ascending durableFound_places _ hparse
  unfold searchQueryIds
  rw [searchBy_eq, hopens]
  dsimp only
  unfold searchSplits
  dsimp only
  rw [if_neg fun hzero => absurd hzero.1 (by omega)]
  rfl

/-- A search by the score, one by the sort field and the union give the first of the exact
hits if and only if these are among the first hits of their splits, before all copies whose
newer copies are not. -/
theorem top_hits_exact (hkeys : (d.segment.docs.map Prod.fst).Nodup)
    (hopens : openSplits d.blobs d.blobs.manifest = some opened)
    {parse : String → Except String Query} {query : String} (hparse : parse query = .ok q) :
    (∀ limit tombstones splits,
      (multiSplitSearchFiltered T q limit tombstones splits =
          .ok ((exactByScore T q tombstones splits).take limit) ↔
        Reached T byScore byScore newerCopy newerKey q "" limit tombstones splits) ∧
      (Reached T byScore byScore newerCopy newerKey q "" limit tombstones splits →
        multiSplitSearchQueryFilteredIds T q limit tombstones splits =
          .ok (((exactByScore T q tombstones splits).take limit).map fun h => (h.id, h.score)))) ∧
    (∀ name descending limit tombstones splits,
      (multiSplitSearchSorted T q name descending limit tombstones splits =
          .ok ((exactByNumber T q name descending tombstones splits).take limit) ↔
        Reached T (collected T descending) (byNumber descending 1) newerGeneration Hit.generation
          q name limit tombstones splits) ∧
      (Reached T (collected T descending) (byNumber descending 1) newerGeneration Hit.generation
          q name limit tombstones splits →
        multiSplitSearchQuerySortedIds T q name descending limit tombstones splits =
          .ok (((exactByNumber T q name descending tombstones splits).take limit).map
            fun h => (h.id, T.noScore)))) ∧
    unionHits T parse d query = .ok ((foundUnion T q d opened).map fun x => x.2.toFtsHit) ∧
    (foundUnion T q d opened = exactUnion T q d opened ↔ UnionReached T q d opened) := by
  refine ⟨?_, ?_, unionHits_found hkeys hopens hparse, foundUnion_eq_iff⟩
  · intro limit tombstones splits
    refine ⟨multiSplitSearchFiltered_eq_iff, fun hreached => ?_⟩
    unfold multiSplitSearchQueryFilteredIds
    rw [multiSplitSearchFiltered_eq_iff.mpr hreached]
    rfl
  · intro name descending limit tombstones splits
    refine ⟨multiSplitSearchSorted_eq_iff, fun hreached => ?_⟩
    unfold multiSplitSearchQuerySortedIds
    rw [multiSplitSearchSorted_eq_iff.mpr hreached]
    rfl

end Union

namespace TopHitsExample

/-- All documents match, each with the number it holds as its score. -/
def search : Tantivy Unit ℕ where
  isMatch _ _ _ := true
  score _ split address := match split.docs[address]? with
    | some ⟨_, (_, .i64 n) :: _⟩ => n.toNat
    | _ => 0
  noScore := 0
  missingFirst := true

def schema : Schema := [("n", .integer)]

/-- The newest copy of `a` has a lower score than the one that it takes the place of. -/
def splits : List Opened :=
  [⟨.split 0, 1, schema, [⟨"a", [(0, .i64 10)]⟩, ⟨"b", [(0, .i64 9)]⟩]⟩,
    ⟨.split 1, 2, schema, [⟨"a", [(0, .i64 1)]⟩]⟩]

/-- The superseded copy takes the place of the best match in the first hits of its split. -/
theorem superseded_starves :
    multiSplitSearchQueryFilteredIds search () 1 .empty splits = .ok [("a", 1)] ∧
      (exactByScore search () .empty splits).map (fun h => (h.id, h.score)) =
        [("b", 9), ("a", 1)] := by
  constructor <;> decide +kernel

def parse (_ : String) : Except String Unit := .ok ()

/-- Two splits: the second has newer copies of 3 and 4, of which 4 had been deleted. -/
def tierSplits : List Opened :=
  [⟨.split 0, 1, schema, [⟨"1", [(0, .i64 10)]⟩, ⟨"3", [(0, .i64 9)]⟩, ⟨"4", [(0, .i64 8)]⟩]⟩,
    ⟨.split 1, 2, schema, [⟨"3", [(0, .i64 5)]⟩, ⟨"4", [(0, .i64 4)]⟩]⟩]

def removed : OrderedMap String ℕ := .insert .empty "4" 1

/-- Both tiers: the live documents cover 1, which the first split has too. -/
def tiers : IndexDef where
  column := "body"
  pkColumn := "id"
  kind := .fulltext
  analyzer := .text .standard
  segment := ⟨[(1, "one"), (2, "two")], ∅, {1, 2}⟩
  durable := some ⟨[⟨.split 0, 3, 1⟩, ⟨.split 1, 2, 2⟩], removed, fun id =>
    (tierSplits.find? fun o => o.splitId = id).map Opened.split⟩

theorem top_hits_exact_tiers :
    unionHits search parse tiers "one or two" =
        .ok ((exactUnion search () tiers tierSplits).map fun x => x.2.toFtsHit) ∧
      multiSplitSearchQueryFilteredIds search () 2 removed tierSplits =
        .ok [("1", 10), ("3", 5)] ∧
      multiSplitSearchQuerySortedIds search () "n" false 2 removed tierSplits =
        .ok [("4", 0), ("3", 0)] := by
  have hkeys : (tiers.segment.docs.map Prod.fst).Nodup := by decide
  have hopens : openSplits tiers.blobs tiers.blobs.manifest = some tierSplits := rfl
  have hparse : parse "one or two" = .ok () := rfl
  obtain ⟨hscore, hsorted, hunion, hexact⟩ := top_hits_exact (T := search) hkeys hopens hparse
  have hreached : UnionReached search () tiers tierSplits := .of_few (by decide)
  have hbest : Reached search byScore byScore newerCopy newerKey () "" 2 removed tierSplits :=
    ⟨by decide, by decide +kernel, by decide +kernel⟩
  have hleast : Reached search (collected search false) (byNumber false 1) newerGeneration
      Hit.generation () "n" 2 removed tierSplits :=
    ⟨by decide, by decide +kernel, by decide +kernel⟩
  refine ⟨by rw [hunion, hexact.mpr hreached], ?_, ?_⟩
  · rw [(hscore 2 removed tierSplits).2 hbest]
    decide +kernel
  · rw [(hsorted "n" false 2 removed tierSplits).2 hleast]
    decide +kernel

end TopHitsExample

end BlueDB.Fts
