import BlueDB.Fts.Found
import BlueDB.Fts.Words
import Mathlib

/-!
# The answers of a rewritten LIKE

The candidates of a rewritten statement are the keys of the hits that have few hits before
them. A row that the WHERE keeps stays in the answer exactly when its key is among them.
-/

namespace BlueDB.Fts

variable {Query Score : Type} {T : Tantivy Query Score} {q : Query}

def Hit.key (h : Hit Score) : Option ℤ := h.id.toInt?

/-- The hit has a key as asked for. -/
def Hit.keyed (p : ℤ → Bool) (h : Hit Score) : Bool := h.key.any p

def Hit.toFtsHit (h : Hit Score) : FtsHit Score := ⟨h.key.getD 0, h.score⟩

theorem Hit.asFtsHit_eq (h : Hit Score) : h.asFtsHit = h.key.map (⟨·, h.score⟩) := rfl

theorem filterMap_filter (p : ℤ → Bool) (l : List (Hit Score)) :
    (l.filterMap Hit.asFtsHit).filter (fun h => p h.pk) =
      (l.filter (Hit.keyed p)).map Hit.toFtsHit := by
  induction l with
  | nil => rfl
  | cons h rest ih =>
    rw [List.filterMap_cons, List.filter_cons, Hit.asFtsHit_eq]
    unfold Hit.keyed
    cases hkey : h.key with
    | none => exact ih
    | some n =>
      rw [Option.map_some, Option.any_some, List.filter_cons, ih]
      cases p n with
      | false => rfl
      | true =>
        have heq : h.toFtsHit = ⟨n, h.score⟩ := by
          unfold Hit.toFtsHit
          rw [hkey, Option.getD_some]
        exact congrArg₂ List.cons heq.symm rfl

/-- The blobs of the durable tier. -/
def IndexDef.blobs (d : IndexDef) : Blobs := d.durable.getD Blobs.empty

def liveTierHits (T : Tantivy Query Score) (q : Query) (schema : Schema) (live : LiveTier) :
    List (Hit Score) :=
  (splitHits T q "" 0 (live.opened schema)).filter
    (Hit.keyed fun n => decide (n ∉ live.tombstones))

def durableTierHits (T : Tantivy Query Score) (q : Query) (d : IndexDef) (opened : List Opened) :
    List (Hit Score) := liveHits T q "" d.blobs.tombstones opened

def uncovered (d : IndexDef) : Hit Score → Bool :=
  Hit.keyed fun n => decide (n ∉ d.segment.covered)

variable {schema : Schema} {live : LiveTier}

theorem LiveTier.ids_nodup (schema : Schema) (h : (live.docs.map Prod.fst).Nodup) :
    ((live.opened schema).split.docs.map TantivyDocument.id).Nodup := by
  unfold LiveTier.opened
  rw [List.map_map]
  have heq : TantivyDocument.id ∘ (fun d : ℤ × String => keyDoc d.1 d.2) = Int.repr ∘ Prod.fst :=
    rfl
  rw [heq, ← List.map_map]
  exact h.map fun _ _ => Int.repr_injective

theorem LiveTier.key_of_hit {h : Hit Score} (hh : h ∈ splitHits T q "" 0 (live.opened schema)) :
    ∃ d ∈ live.docs, h.id = d.1.repr ∧ T.isMatch q schema (keyDoc d.1 d.2) = true := by
  unfold splitHits at hh
  obtain ⟨c, hc, rfl⟩ := List.mem_map.mp hh
  obtain ⟨hc, hmatch⟩ := List.mem_filter.mp hc
  obtain ⟨d, hd, heq⟩ := List.mem_map.mp (List.fst_mem_of_mem_zipIdx hc)
  refine ⟨d, hd, ?_, ?_⟩
  · change c.1.id = _
    rw [← heq]
    rfl
  · rw [heq]
    exact hmatch

theorem LiveTier.tombstoned_le (h : (live.docs.map Prod.fst).Nodup) :
    ((splitHits T q "" 0 (live.opened schema)).filter fun x =>
      !Hit.keyed (fun n => decide (n ∉ live.tombstones)) x).length ≤ live.tombstones.card := by
  have hnodup : ((splitHits T q "" 0 (live.opened schema)).map Hit.id).Nodup :=
    splitHits_ids_nodup (LiveTier.ids_nodup schema h)
  have hids := hnodup.sublist ((List.filter_sublist
    (p := fun x => !Hit.keyed (fun n => decide (n ∉ live.tombstones)) x)).map Hit.id)
  have hsub : ∀ id ∈ ((splitHits T q "" 0 (live.opened schema)).filter fun x =>
      !Hit.keyed (fun n => decide (n ∉ live.tombstones)) x).map Hit.id,
      id ∈ live.tombstones.toList.map Int.repr := by
    intro id hid
    obtain ⟨x, hx, rfl⟩ := List.mem_map.mp hid
    obtain ⟨hx, hdead⟩ := List.mem_filter.mp hx
    obtain ⟨d, -, hkey, -⟩ := LiveTier.key_of_hit hx
    refine List.mem_map.mpr ⟨d.1, ?_, hkey.symm⟩
    unfold Hit.keyed Hit.key at hdead
    rw [hkey, Int.toInt?_repr, Option.any_some, Bool.not_eq_true', decide_eq_false_iff_not,
      not_not] at hdead
    exact Finset.mem_toList.mpr hdead
  have hle := (List.subperm_of_subset hids hsub).length_le
  rwa [List.length_map, List.length_map, Finset.length_toList] at hle

/-- By falling score, the live tier before the durable tier. -/
def byTier (x : ℕ × Hit Score) : Scoreᵒᵈ ×ₗ (ℕ ×ₗ (ℕ ×ₗ ℕ)) :=
  toLex (OrderDual.toDual x.2.score, toLex (x.1, x.2.place))

theorem tiers_ranks {l l' : List (Hit Score)} (hl : (l.map Hit.place).Nodup)
    (hl' : (l'.map Hit.place).Nodup) :
    ((l.map (0, ·) ++ l'.map (1, ·)).map byTier).Nodup := by
  apply List.Nodup.of_map fun r : Scoreᵒᵈ ×ₗ (ℕ ×ₗ (ℕ ×ₗ ℕ)) => ofLex (ofLex r).2
  rw [List.map_map, List.map_append, List.map_map, List.map_map]
  have htagged : ∀ (tier : ℕ) {l : List (Hit Score)}, (l.map Hit.place).Nodup →
      (l.map fun h => (tier, h.place)).Nodup := by
    intro tier l h
    have hmap := h.map (f := fun p : ℕ ×ₗ ℕ => (tier, p)) fun _ _ heq => (Prod.ext_iff.mp heq).2
    rwa [List.map_map] at hmap
  apply (htagged 0 hl).append (htagged 1 hl')
  intro p hp hp'
  obtain ⟨x, -, rfl⟩ := List.mem_map.mp hp
  obtain ⟨y, -, heq⟩ := List.mem_map.mp hp'
  exact absurd (Prod.ext_iff.mp heq).1 Nat.one_ne_zero

theorem liveTierHits_places : TopK.Ascending Hit.place (liveTierHits T q schema live) :=
  (splitHits_places 0 _).filter _

section Order

variable [LinearOrder Score]

def durableAhead (T : Tantivy Query Score) (q : Query) (d : IndexDef) (opened : List Opened)
    (h : Hit Score) : ℕ :=
  ((durableTierHits T q d opened).filter fun h' => byScore h' < byScore h).length

/-- A search of the durable tier gets a limited number of hits, before the keys that the
live tier covers are taken out. -/
def fetched (T : Tantivy Query Score) (q : Query) (d : IndexDef) (opened : List Opened) :
    List (Hit Score) :=
  (durableTierHits T q d opened).filter fun h =>
    decide (durableAhead T q d opened h < unionLimit) && uncovered d h

def gathered (T : Tantivy Query Score) (q : Query) (d : IndexDef) (opened : List Opened) :
    List (ℕ × Hit Score) :=
  (liveTierHits T q d.schema d.segment).map (0, ·) ++ (fetched T q d opened).map (1, ·)

theorem liveSearch_eq (h : (live.docs.map Prod.fst).Nodup) (limit : ℕ) :
    liveSearch T q limit schema live =
      ((TopK.sortBy byScore (liveTierHits T q schema live)).take limit).map Hit.toFtsHit := by
  classical
  have hplaced := placing_byScore.nodup
    (splitHits_places 0 (live.opened schema) : TopK.Ascending _ (splitHits T q "" 0 _))
  have hasc := TopK.sortBy_ascending hplaced
  have hruns := @TopK.take_runs _ _ _ byScore _
    [TopK.sortBy byScore (splitHits T q "" 0 (live.opened schema))]
    (Hit.keyed fun n => decide (n ∉ live.tombstones)) limit live.tombstones.card ?_ ?_ ?_
  · rw [List.flatMap_singleton, List.flatMap_singleton] at hruns
    unfold liveSearch
    dsimp only
    rw [filterMap_filter fun n => decide (n ∉ live.tombstones), ← List.map_take]
    congr 1
    have hfirst := (hasc.sublist (List.take_sublist (limit + live.tombstones.card) _)).filter
      (Hit.keyed fun n => decide (n ∉ live.tombstones))
    rw [← TopK.Ascending.sortBy_eq hfirst, hruns]
    congr 1
    apply TopK.sortBy_eq_of_perm
    · exact (hasc.filter _).rank_nodup
    · exact (TopK.sortBy_perm byScore _).filter _
  · intro r hr
    obtain rfl := List.mem_singleton.mp hr
    exact hasc
  · rw [List.flatMap_singleton]
    exact (hasc.filter _).rank_nodup
  · intro r hr
    obtain rfl := List.mem_singleton.mp hr
    rw [((TopK.sortBy_perm byScore _).filter _).length_eq]
    exact LiveTier.tombstoned_le h

variable {d : IndexDef} {opened : List Opened}

theorem durableHits_eq {l : List (Hit Score)} (hsearch : searchQueryIds T q unionLimit d.blobs =
    .ok (l.map fun x => (x.id, x.score))) :
    durableHits T q d = .ok ((l.filter (uncovered d)).map Hit.toFtsHit) := by
  unfold durableHits
  cases hdurable : d.durable with
  | none =>
    have hblobs : d.blobs = Blobs.empty := by
      unfold IndexDef.blobs
      rw [hdurable]
      rfl
    rw [hblobs] at hsearch
    have hnil : l.map (fun x => (x.id, x.score)) = [] := (Except.ok.inj hsearch).symm
    obtain rfl := List.map_eq_nil_iff.mp hnil
    rfl
  | some b =>
    have hblobs : d.blobs = b := by
      unfold IndexDef.blobs
      rw [hdurable]
      rfl
    rw [hblobs] at hsearch
    dsimp only
    rw [hsearch]
    change Except.ok (List.filter _ (List.filterMap _ (List.map _ _))) = _
    rw [List.filterMap_map]
    exact congrArg Except.ok (filterMap_filter (fun n => decide (n ∉ d.segment.covered)) _)

theorem fetched_places : TopK.Ascending Hit.place (fetched T q d opened) :=
  liveHits_places.filter _

theorem gathered_ranks : ((gathered T q d opened).map byTier).Nodup :=
  tiers_ranks liveTierHits_places.rank_nodup fetched_places.rank_nodup

theorem fetched_perm : (((rankedByScore T q d.blobs opened).take unionLimit).filter
    (uncovered d)).Perm (fetched T q d opened) := by
  have hplaced := placing_byScore.nodup
    (liveHits_places : TopK.Ascending _ (liveHits T q "" d.blobs.tombstones opened))
  apply (List.perm_ext_iff_of_nodup _ _).mpr
  · intro x
    unfold rankedByScore fetched
    rw [List.mem_filter, TopK.mem_take_sortBy hplaced, List.mem_filter, Bool.and_eq_true,
      decide_eq_true_iff, and_assoc]
    rfl
  · exact ((List.take_sublist _ _).nodup (TopK.sortBy_ascending hplaced).nodup).filter _
  · exact liveHits_places.nodup.filter _

theorem sortBy_tiers {l l' : List (Hit Score)} (hl : TopK.Ascending byScore l)
    (hl' : TopK.Ascending byScore l') :
    TopK.sortBy (fun x : ℕ × Hit Score => OrderDual.toDual x.2.score)
        (l.map (0, ·) ++ l'.map (1, ·)) = TopK.sortBy byTier (l.map (0, ·) ++ l'.map (1, ·)) := by
  have hsame : ∀ (tier : ℕ) {l : List (Hit Score)}, TopK.Ascending byScore l →
      (l.map (tier, ·)).Pairwise fun x y : ℕ × Hit Score =>
        OrderDual.toDual x.2.score = OrderDual.toDual y.2.score →
          toLex (x.1, x.2.place) ≤ toLex (y.1, y.2.place) := by
    intro tier l hl
    apply List.Pairwise.map _ _ hl
    intro x y hlt heq
    rcases Prod.Lex.toLex_lt_toLex.mp hlt with hscore | ⟨-, hplace⟩
    · exact absurd heq (ne_of_lt hscore)
    · exact Prod.Lex.toLex_le_toLex.mpr (Or.inr ⟨rfl, le_of_lt hplace⟩)
  apply TopK.sortBy_congr
  have hall : (l.map (0, ·) ++ l'.map (1, ·)).Pairwise fun x y : ℕ × Hit Score =>
      OrderDual.toDual x.2.score = OrderDual.toDual y.2.score →
        toLex (x.1, x.2.place) ≤ toLex (y.1, y.2.place) := by
    rw [List.pairwise_append]
    refine ⟨hsame 0 hl, hsame 1 hl', ?_⟩
    intro x hx y hy _
    obtain ⟨h, -, rfl⟩ := List.mem_map.mp hx
    obtain ⟨h', -, rfl⟩ := List.mem_map.mp hy
    exact Prod.Lex.toLex_le_toLex.mpr (Or.inl Nat.zero_lt_one)
  apply hall.imp
  intro x y hxy
  unfold byTier
  rw [Prod.Lex.toLex_le_toLex]
  constructor
  · intro hle
    rcases lt_or_eq_of_le hle with hlt | heq
    · exact Or.inl hlt
    · exact Or.inr ⟨heq, hxy heq⟩
  · rintro (hlt | ⟨heq, -⟩)
    · exact le_of_lt hlt
    · exact le_of_eq heq

theorem take_tiers {l : List (Hit Score)} (hl : (l.map Hit.place).Nodup) : (TopK.sortBy byTier
      (((TopK.sortBy byScore (liveTierHits T q d.schema d.segment)).take unionLimit).map (0, ·) ++
        l.map (1, ·))).take unionLimit =
    (TopK.sortBy byTier ((liveTierHits T q d.schema d.segment).map (0, ·) ++
      l.map (1, ·))).take unionLimit := by
  classical
  have hplaces : TopK.Ascending Hit.place (liveTierHits T q d.schema d.segment) :=
    liveTierHits_places
  have hasc := TopK.sortBy_ascending (placing_byScore.nodup hplaces)
  have hperm := TopK.sortBy_perm byScore (liveTierHits T q d.schema d.segment)
  have hfirst : (((TopK.sortBy byScore (liveTierHits T q d.schema d.segment)).take unionLimit).map
      Hit.place).Nodup :=
    ((hperm.map Hit.place).nodup_iff.mpr liveTierHits_places.rank_nodup).sublist
      ((List.take_sublist _ _).map _)
  apply TopK.take_sortBy (tiers_ranks hplaces.rank_nodup hl) (tiers_ranks hfirst hl)
  · intro x hx
    rcases List.mem_append.mp hx with hx | hx
    · obtain ⟨h, hh, rfl⟩ := List.mem_map.mp hx
      exact List.mem_append_left _
        (List.mem_map_of_mem (hperm.mem_iff.mp (List.mem_of_mem_take hh)))
    · exact List.mem_append_right _ hx
  · intro x hx hout
    rcases List.mem_append.mp hx with hx | hx
    · -- a live hit that is left out comes after all that are not
      obtain ⟨h, hh, rfl⟩ := List.mem_map.mp hx
      obtain ⟨hlen, hbefore⟩ := hasc.lt_of_notMem_take (hperm.mem_iff.mpr hh) fun htake =>
        hout (List.mem_append_left _ (List.mem_map_of_mem htake))
      rw [List.filter_append, List.length_append, List.filter_eq_self.mpr, List.length_map,
        List.length_take_of_le hlen]
      · exact Nat.le_add_right _ _
      · intro y hy
        obtain ⟨h', hh', rfl⟩ := List.mem_map.mp hy
        rw [decide_eq_true_iff]
        rcases Prod.Lex.toLex_lt_toLex.mp (hbefore h' hh') with hscore | ⟨hscore, hplace⟩
        · exact Prod.Lex.toLex_lt_toLex.mpr (Or.inl hscore)
        · exact Prod.Lex.toLex_lt_toLex.mpr
            (Or.inr ⟨hscore, Prod.Lex.toLex_lt_toLex.mpr (Or.inr ⟨rfl, hplace⟩)⟩)
    · exact absurd (List.mem_append_right _ hx) hout

theorem unionHits_of_search {l : List (Hit Score)} (hkeys : (d.segment.docs.map Prod.fst).Nodup)
    (hl : TopK.Ascending byScore l) (hplaces : (l.map Hit.place).Nodup)
    (hsearch : searchQueryIds T q unionLimit d.blobs = .ok (l.map fun x => (x.id, x.score)))
      {parse : String → Except String Query}
    {query : String} (hparse : parse query = .ok q) :
    unionHits T parse d query = .ok
      (((TopK.sortBy byTier ((liveTierHits T q d.schema d.segment).map (0, ·) ++
        (l.filter (uncovered d)).map (1, ·))).take unionLimit).map fun x => x.2.toFtsHit) := by
  have hlive : TopK.Ascending Hit.place (liveTierHits T q d.schema d.segment) :=
    liveTierHits_places
  have hfirst := (TopK.sortBy_ascending (placing_byScore.nodup hlive)).sublist
    (List.take_sublist unionLimit _)
  have hsecond : TopK.Ascending byScore (l.filter (uncovered d)) := hl.filter _
  have hmap : ∀ l l' : List (Hit Score), l.map Hit.toFtsHit ++ l'.map Hit.toFtsHit =
      (l.map (0, ·) ++ l'.map (1, ·)).map fun x : ℕ × Hit Score => x.2.toFtsHit := by
    intro l l'
    rw [List.map_append, List.map_map, List.map_map]
    rfl
  unfold unionHits
  rw [hparse]
  dsimp only
  rw [durableHits_eq hsearch]
  dsimp only
  rw [liveSearch_eq hkeys, hmap, TopK.sortBy_map, ← List.map_take,
    ← take_tiers (hplaces.sublist (List.filter_sublist.map _))]
  congr 2
  exact congrArg (List.take unionLimit) (sortBy_tiers hfirst hsecond)

theorem unionHits_eq (hkeys : (d.segment.docs.map Prod.fst).Nodup)
    (hready : Ready d.schema d.blobs opened) {parse : String → Except String Query}
    {query : String} (hparse : parse query = .ok q) :
    unionHits T parse d query = .ok
      (((TopK.sortBy byTier (gathered T q d opened)).take unionLimit).map
        fun x => x.2.toFtsHit) := by
  have hplaces : TopK.Ascending Hit.place (liveHits T q "" d.blobs.tombstones opened) :=
    liveHits_places
  have hranked : TopK.Ascending byScore ((rankedByScore T q d.blobs opened).take unionLimit) :=
    (TopK.sortBy_ascending (placing_byScore.nodup hplaces)).sublist (List.take_sublist _ _)
  have hdifferent : (((rankedByScore T q d.blobs opened).take unionLimit).map Hit.place).Nodup :=
    (((TopK.sortBy_perm byScore _).map Hit.place).nodup_iff.mpr hplaces.rank_nodup).sublist
      ((List.take_sublist _ _).map _)
  rw [unionHits_of_search hkeys hranked hdifferent (hready.searchQueryIds (by decide)) hparse]
  congr 2
  unfold gathered
  apply congrArg (List.take unionLimit)
  symm
  apply TopK.sortBy_eq_of_perm
  · exact gathered_ranks
  · exact (fetched_perm.symm.map _).append_left _

end Order

section Sync

variable {Row : Type} {u : Unicode} {sql : Sql Row} {column : String} {rows : List Row}
  {d : IndexDef} {opened : List Opened} {n : ℤ}

/-- The document is the one that the index finds for the key. -/
def Searchable (d : IndexDef) (opened : List Opened) (n : ℤ) (body : String) : Prop :=
  ((n, body) ∈ d.segment.docs ∧ n ∉ d.segment.tombstones) ∨
    (n ∉ d.segment.covered ∧ keyDoc n body ∈ liveDocs d.blobs opened)

/-- Both tiers have documents of keys, and the live tier covers its own. -/
structure Keyed (d : IndexDef) (opened : List Opened) : Prop where
  ready : Ready d.schema d.blobs opened
  bodies : ∀ doc ∈ liveDocs d.blobs opened, ∃ n body, doc = keyDoc n body
  keys : (d.segment.docs.map Prod.fst).Nodup
  covers : ∀ doc ∈ d.segment.docs, doc.1 ∈ d.segment.covered

/-- The index takes its documents apart at white space, and finds the trigrams of the text
of every row under its key, and nothing else. -/
structure InSync (u : Unicode) (sql : Sql Row) (column : String) (rows : List Row)
    (d : IndexDef) (opened : List Opened) : Prop extends Keyed d opened where
  analyzer : d.analyzer = .text .whitespace
  numbered : ∀ row ∈ rows, ∃ n, sql.number d.pkColumn row = some n
  primary : ∀ row ∈ rows, ∀ row' ∈ rows,
    sql.number d.pkColumn row = sql.number d.pkColumn row' → row = row'
  searchable : ∀ n body, Searchable d opened n body ↔ ∃ row ∈ rows,
    sql.number d.pkColumn row = some n ∧
      ∃ text, sql.text column row = some text ∧ body = trigramize u text

/-- All hits, with their tiers. -/
def tierHits (T : Tantivy Query Score) (q : Query) (d : IndexDef) (opened : List Opened) :
    List (ℕ × Hit Score) :=
  (liveTierHits T q d.schema d.segment).map (0, ·) ++
    ((durableTierHits T q d opened).filter (uncovered d)).map (1, ·)

theorem mem_tierHits {x : ℕ × Hit Score} : x ∈ tierHits T q d opened ↔
    (x.1 = 0 ∧ x.2 ∈ liveTierHits T q d.schema d.segment) ∨
      (x.1 = 1 ∧ x.2 ∈ durableTierHits T q d opened ∧ uncovered d x.2 = true) := by
  obtain ⟨tier, h⟩ := x
  unfold tierHits
  rw [List.mem_append, List.mem_map, List.mem_map]
  constructor
  · rintro (⟨h', hh, ⟨⟩⟩ | ⟨h', hh, ⟨⟩⟩)
    · exact Or.inl ⟨rfl, hh⟩
    · exact Or.inr ⟨rfl, List.mem_filter.mp hh⟩
  · rintro (⟨rfl, hh⟩ | ⟨rfl, hh⟩)
    · exact Or.inl ⟨h, hh, rfl⟩
    · exact Or.inr ⟨h, List.mem_filter.mpr hh, rfl⟩

theorem hit_of_doc {name : String} {ord : ℕ} {o : Opened} {doc : TantivyDocument}
    (hdoc : doc ∈ o.split.docs) (hmatch : T.isMatch q o.split.schema doc = true) :
    ∃ h ∈ splitHits T q name ord o, h.id = doc.id := by
  rw [← List.zipIdx_map_fst 0 o.split.docs] at hdoc
  obtain ⟨c, hc, rfl⟩ := List.mem_map.mp hdoc
  refine ⟨_, List.mem_map.mpr ⟨c, List.mem_filter.mpr ⟨hc, hmatch⟩, rfl⟩, rfl⟩

theorem uncovered_iff {h : Hit Score} (hkey : h.key = some n) :
    uncovered d h = true ↔ n ∉ d.segment.covered := by
  unfold uncovered Hit.keyed
  rw [hkey, Option.any_some, decide_eq_true_iff]

namespace Keyed

variable (h : Keyed d opened)

include h

theorem doc_of_hit {x : ℕ × Hit Score} (hx : x ∈ tierHits T q d opened) :
    ∃ n body, x.2.id = n.repr ∧ Searchable d opened n body ∧
      T.isMatch q d.schema (keyDoc n body) = true := by
  rcases mem_tierHits.mp hx with ⟨-, hlive⟩ | ⟨-, hdurable, huncovered⟩
  · obtain ⟨hlive, hkeyed⟩ := List.mem_filter.mp hlive
    obtain ⟨doc, hdoc, hid, hmatch⟩ := LiveTier.key_of_hit hlive
    refine ⟨doc.1, doc.2, hid, Or.inl ⟨hdoc, ?_⟩, hmatch⟩
    unfold Hit.keyed Hit.key at hkeyed
    rw [hid, Int.toInt?_repr, Option.any_some, decide_eq_true_iff] at hkeyed
    exact hkeyed
  · have hid := List.mem_map_of_mem (f := Hit.id) hdurable
    unfold durableTierHits at hid
    rw [liveHits_ids h.ready.uniform] at hid
    obtain ⟨doc, hdoc, hid⟩ := List.mem_map.mp hid
    obtain ⟨hdoc, hmatch⟩ := List.mem_filter.mp hdoc
    obtain ⟨n, body, rfl⟩ := h.bodies doc hdoc
    have hkey : x.2.key = some n := by
      unfold Hit.key
      rw [← hid]
      exact Int.toInt?_repr n
    exact ⟨n, body, hid.symm, Or.inr ⟨(uncovered_iff hkey).mp huncovered, hdoc⟩, hmatch⟩

theorem id_of_key {x : ℕ × Hit Score} (hx : x ∈ tierHits T q d opened)
    (hkey : x.2.key = some n) : x.2.id = n.repr := by
  obtain ⟨m, -, hid, -⟩ := h.doc_of_hit hx
  unfold Hit.key at hkey
  rw [hid, Int.toInt?_repr] at hkey
  rw [hid, Option.some.inj hkey]

theorem hit_of_searchable {body : String} (hdoc : Searchable d opened n body)
    (hmatch : T.isMatch q d.schema (keyDoc n body) = true) :
    ∃ x ∈ tierHits T q d opened, x.2.key = some n := by
  have hkey : ∀ hit : Hit Score, hit.id = n.repr → hit.key = some n := by
    intro hit hid
    unfold Hit.key
    rw [hid]
    exact Int.toInt?_repr n
  rcases hdoc with ⟨hdoc, htomb⟩ | ⟨hcovered, hdoc⟩
  · have hmem : keyDoc n body ∈ (d.segment.opened d.schema).split.docs :=
      List.mem_map.mpr ⟨(n, body), hdoc, rfl⟩
    obtain ⟨hit, hhit, hid⟩ : ∃ h ∈ splitHits T q "" 0 (d.segment.opened d.schema), h.id = n.repr :=
      hit_of_doc hmem hmatch
    refine ⟨(0, hit), mem_tierHits.mpr (Or.inl ⟨rfl, List.mem_filter.mpr ⟨hhit, ?_⟩⟩),
      hkey hit hid⟩
    unfold Hit.keyed
    rw [hkey hit hid, Option.any_some, decide_eq_true_iff]
    exact htomb
  · have hid : n.repr ∈ (durableTierHits T q d opened).map Hit.id := by
      unfold durableTierHits
      rw [liveHits_ids h.ready.uniform]
      exact List.mem_map.mpr ⟨_, List.mem_filter.mpr ⟨hdoc, hmatch⟩, rfl⟩
    obtain ⟨hit, hhit, hid⟩ := List.mem_map.mp hid
    exact ⟨(1, hit), mem_tierHits.mpr (Or.inr ⟨rfl, hhit,
      (uncovered_iff (hkey hit hid)).mpr hcovered⟩), hkey hit hid⟩

theorem hit_unique {x y : ℕ × Hit Score} (hx : x ∈ tierHits T q d opened)
    (hy : y ∈ tierHits T q d opened) (hxkey : x.2.key = some n) (hykey : y.2.key = some n) :
    x = y := by
  have hid : x.2.id = y.2.id := (h.id_of_key hx hxkey).trans (h.id_of_key hy hykey).symm
  have hcovered : ∀ hit : Hit Score, hit ∈ liveTierHits T q d.schema d.segment → hit.key = some n →
      n ∈ d.segment.covered := by
    intro hit hhit hkey
    obtain ⟨doc, hdoc, hid, -⟩ := LiveTier.key_of_hit (List.mem_filter.mp hhit).1
    unfold Hit.key at hkey
    rw [hid, Int.toInt?_repr] at hkey
    rw [← Option.some.inj hkey]
    exact h.covers doc hdoc
  rcases mem_tierHits.mp hx with ⟨hxt, hxl⟩ | ⟨hxt, hxd, hxu⟩ <;>
    rcases mem_tierHits.mp hy with ⟨hyt, hyl⟩ | ⟨hyt, hyd, hyu⟩
  · have hnodup : ((splitHits T q "" 0 (d.segment.opened d.schema)).map Hit.id).Nodup :=
      splitHits_ids_nodup (LiveTier.ids_nodup d.schema h.keys)
    exact Prod.ext (hxt.trans hyt.symm) (List.inj_on_of_nodup_map hnodup
      (List.mem_filter.mp hxl).1 (List.mem_filter.mp hyl).1 hid)
  · exact absurd (hcovered _ hxl hxkey) ((uncovered_iff hykey).mp hyu)
  · exact absurd (hcovered _ hyl hykey) ((uncovered_iff hxkey).mp hxu)
  · exact Prod.ext (hxt.trans hyt.symm)
      (List.inj_on_of_nodup_map h.ready.liveHits_nodup hxd hyd hid)

end Keyed

variable [LinearOrder Score]

/-- If it is a durable one, it has fewer than 100 durable hits before it. -/
def Near (T : Tantivy Query Score) (q : Query) (d : IndexDef) (opened : List Opened)
    (x : ℕ × Hit Score) : Prop := x.1 = 1 → durableAhead T q d opened x.2 < 100

instance (x : ℕ × Hit Score) : Decidable (Near T q d opened x) :=
  inferInstanceAs (Decidable (_ → _))

/-- The hit is near, and has fewer than 100 near hits before it. -/
def Close (T : Tantivy Query Score) (q : Query) (d : IndexDef) (opened : List Opened)
    (x : ℕ × Hit Score) : Prop :=
  Near T q d opened x ∧ ((tierHits T q d opened).filter fun y =>
    byTier y < byTier x ∧ Near T q d opened y).length < 100

/-- The text of every row that the WHERE keeps is found by what the literal is searched as,
and the row is not too far down among the hits. -/
structure Covers (u : Unicode) (sql : Sql Row) (column literal : String) (rows : List Row)
    (d : IndexDef) (opened : List Opened) (T : Tantivy Query Score) (q : Query)
    (selection : Expr) : Prop where
  matched : ∀ row ∈ rows, sql.keeps selection row = true → ∃ n text,
    sql.number d.pkColumn row = some n ∧ sql.text column row = some text ∧
      Finds u T q literal n text
  close : ∀ row ∈ rows, sql.keeps selection row = true →
    ∀ x ∈ tierHits T q d opened, x.2.key = sql.number d.pkColumn row → Close T q d opened x

theorem gathered_eq : gathered T q d opened =
    (tierHits T q d opened).filter fun x => Near T q d opened x := by
  unfold gathered fetched tierHits
  rw [List.filter_append, List.filter_map, List.filter_map, List.filter_filter]
  congr 2
  · refine (List.filter_eq_self.mpr fun h _ => ?_).symm
    rw [Function.comp_apply, decide_eq_true_iff]
    exact fun hone => absurd hone Nat.zero_ne_one
  · refine List.filter_congr fun h _ => ?_
    simp only [Function.comp_apply, Near, unionLimit, true_imp_iff]
    rfl

theorem Keyed.mem_candidates (h : Keyed d opened) :
    n ∈ (((TopK.sortBy byTier (gathered T q d opened)).take unionLimit).map
        fun x => x.2.toFtsHit).map FtsHit.pk ↔
      ∃ x ∈ tierHits T q d opened, x.2.key = some n ∧ Close T q d opened x := by
  have hfirst : ∀ x, x ∈ (TopK.sortBy byTier (gathered T q d opened)).take unionLimit ↔
      x ∈ tierHits T q d opened ∧ Close T q d opened x := by
    intro x
    rw [TopK.mem_take_sortBy gathered_ranks, gathered_eq, List.mem_filter, List.filter_filter,
      decide_eq_true_iff, and_assoc]
    simp [Close, unionLimit]
  rw [List.map_map, List.mem_map]
  constructor
  · rintro ⟨x, hx, hpk⟩
    obtain ⟨hx, hclose⟩ := (hfirst x).mp hx
    refine ⟨x, hx, ?_, hclose⟩
    obtain ⟨m, -, hid, -⟩ := h.doc_of_hit hx
    have hkey : x.2.key = some m := by
      unfold Hit.key
      rw [hid]
      exact Int.toInt?_repr m
    change x.2.key.getD 0 = n at hpk
    rw [hkey, Option.getD_some] at hpk
    rw [hkey, hpk]
  · rintro ⟨x, hx, hkey, hclose⟩
    refine ⟨x, (hfirst x).mpr ⟨hx, hclose⟩, ?_⟩
    change x.2.key.getD 0 = n
    rw [hkey, Option.getD_some]

theorem keeps_prefiltered (sql : Sql Row) {pkColumn : String} {candidates : List ℤ}
    {selection : Expr} {row : Row} :
    sql.keeps (prefiltered pkColumn candidates selection) row = true ↔
      (∃ n ∈ candidates, sql.number pkColumn row = some n) ∧ sql.keeps selection row = true := by
  have hlist : ∀ n, some n ∈ (if candidates.isEmpty then [none] else candidates.map some) ↔
      n ∈ candidates := by
    intro n
    cases candidates with
    | nil => simp
    | cons c rest => simp
  unfold prefiltered
  rw [sql.keeps_and, Bool.and_eq_true, sql.keeps_inList, sql.keeps_nested]
  apply and_congr_left'
  apply exists_congr
  intro n
  rw [hlist, and_comm]

variable {parse : String → Except String Query} {indexes : String → List IndexDef}
  {stmts : List Statement} {s' : Select}

theorem InSync.covers_iff (h : InSync u sql column rows d opened) (hu : u.Cased)
    (hreads : ReadsTerms u T parse) {literal : String}
    (hparse : parse (queryText u literal) = .ok q) {selection : Expr} :
    Covers u sql column literal rows d opened T q selection ↔
      ∀ row ∈ rows, sql.keeps selection row = true →
        ∃ n, sql.number d.pkColumn row = some n ∧
          ∃ x ∈ tierHits T q d opened, x.2.key = some n ∧ Close T q d opened x := by
  have hfinds : ∀ {n text}, Finds u T q literal n text ↔
      T.isMatch q d.schema (keyDoc n (trigramize u text)) = true := by
    intro n text
    rw [IndexDef.schema, h.analyzer, hreads.isMatch_iff hu hparse]
  constructor
  · intro hcovers row hrow hkeeps
    obtain ⟨n, text, hn, htext, hmatch⟩ := hcovers.matched row hrow hkeeps
    have hsearchable := (h.searchable n _).mpr ⟨row, hrow, hn, text, htext, rfl⟩
    obtain ⟨x, hx, hkey⟩ := h.hit_of_searchable hsearchable (hfinds.mp hmatch)
    exact ⟨n, hn, x, hx, hkey, hcovers.close row hrow hkeeps x hx (hkey.trans hn.symm)⟩
  · intro hall
    constructor
    · intro row hrow hkeeps
      obtain ⟨n, hn, x, hx, hkey, -⟩ := hall row hrow hkeeps
      obtain ⟨m, body, hid, hdoc, hmatch⟩ := h.doc_of_hit hx
      obtain rfl : m = n :=
        Int.repr_injective (hid.symm.trans (h.id_of_key hx hkey))
      obtain ⟨row', hrow', hm, text, htext, rfl⟩ := (h.searchable m body).mp hdoc
      obtain rfl := h.primary row hrow row' hrow' (hn.trans hm.symm)
      exact ⟨m, text, hm, htext, hfinds.mpr hmatch⟩
    · intro row hrow hkeeps y hy hkey
      obtain ⟨n, hn, x, hx, hxkey, hclose⟩ := hall row hrow hkeeps
      rw [h.hit_unique hy hx (hkey.trans hn) hxkey]
      exact hclose

omit [LinearOrder Score] in
theorem select_of_extract {pred : LikePredicate} (h : extractLikePredicate stmts = some pred) :
    ∃ tables selection, stmts = [.select ⟨tables, some selection⟩] := by
  unfold extractLikePredicate at h
  split at h
  · exact ⟨_, _, rfl⟩
  · cases h

theorem rewriteLike_some (hrw : rewriteLike u T parse indexes stmts = .ok (some s')) :
    ∃ tables selection pred d q merged, stmts = [.select ⟨tables, some selection⟩] ∧
      extractLikePredicate stmts = some pred ∧ trigramDef indexes pred = some d ∧
      parse (queryText u pred.literal) = .ok q ∧
      unionHits T parse d (queryText u pred.literal) = .ok merged ∧
      s' = ⟨tables, some (prefiltered d.pkColumn (merged.map FtsHit.pk) selection)⟩ := by
  unfold rewriteLike at hrw
  cases hpred : extractLikePredicate stmts with
  | none =>
    rw [hpred] at hrw
    cases hrw
  | some pred =>
    obtain ⟨tables, selection, rfl⟩ := select_of_extract hpred
    rw [hpred] at hrw
    dsimp only at hrw
    cases hdef : trigramDef indexes pred with
    | none =>
      rw [hdef] at hrw
      cases hrw
    | some d =>
      rw [hdef] at hrw
      dsimp only at hrw
      cases hhits : unionHits T parse d (queryText u pred.literal) with
      | error e =>
        rw [hhits] at hrw
        cases hrw
      | ok merged =>
        rw [hhits] at hrw
        have hs' := Option.some.inj (Except.ok.inj hrw)
        cases hparse : parse (queryText u pred.literal) with
        | error message =>
          unfold unionHits at hhits
          rw [hparse] at hhits
          cases hhits
        | ok q => exact ⟨tables, selection, pred, d, q, merged, rfl, rfl, hdef, hparse, hhits,
            hs'.symm⟩

/-- The prefilter takes no row away exactly when the rows that stay are covered. -/
theorem InSync.selected_iff (h : InSync u sql column rows d opened) (hu : u.Cased)
    (hreads : ReadsTerms u T parse) {literal : String} {merged : List (FtsHit Score)}
    (hparse : parse (queryText u literal) = .ok q)
    (hmerged : unionHits T parse d (queryText u literal) = .ok merged)
    (tables : List TableWithJoins) (selection : Expr) :
    selected sql rows
        ⟨tables, some (prefiltered d.pkColumn (merged.map FtsHit.pk) selection)⟩ =
      selected sql rows ⟨tables, some selection⟩ ↔
    Covers u sql column literal rows d opened T q selection := by
  rw [unionHits_eq h.keys h.ready hparse] at hmerged
  obtain rfl := Except.ok.inj hmerged
  rw [h.covers_iff hu hreads hparse]
  have hcandidate : ∀ row, (∃ n ∈ (((TopK.sortBy byTier (gathered T q d opened)).take
        unionLimit).map fun x => x.2.toFtsHit).map FtsHit.pk,
          sql.number d.pkColumn row = some n) ↔
      ∃ n, sql.number d.pkColumn row = some n ∧
        ∃ x ∈ tierHits T q d opened, x.2.key = some n ∧ Close T q d opened x := by
    intro row
    apply exists_congr
    intro n
    rw [h.mem_candidates, and_comm]
  constructor
  · intro heq row hrow hkeeps
    have hmem : row ∈ selected sql rows ⟨tables, some selection⟩ :=
      List.mem_filter.mpr ⟨hrow, hkeeps⟩
    rw [← heq] at hmem
    exact (hcandidate row).mp ((keeps_prefiltered sql).mp (List.mem_filter.mp hmem).2).1
  · intro hall
    apply List.filter_congr
    intro row hrow
    rw [Bool.eq_iff_iff, keeps_prefiltered]
    constructor
    · exact And.right
    · intro hkeeps
      exact ⟨(hcandidate row).mpr (hall row hrow hkeeps), hkeeps⟩

theorem close_of_few (hfew : (liveTierHits T q d.schema d.segment).length +
    (durableTierHits T q d opened).length ≤ unionLimit) {x : ℕ × Hit Score}
    (hx : x ∈ tierHits T q d opened) : Close T q d opened x := by
  have hnear : Near T q d opened x := by
    intro hone
    rcases mem_tierHits.mp hx with ⟨hzero, -⟩ | ⟨-, hdurable, -⟩
    · exact absurd (hzero.symm.trans hone) Nat.zero_ne_one
    · have hlt : durableAhead T q d opened x.2 < (durableTierHits T q d opened).length := by
        apply List.length_filter_lt_length_iff_exists.mpr
        exact ⟨x.2, hdurable, by simp⟩
      unfold unionLimit at hfew
      omega
  refine ⟨hnear, ?_⟩
  have hlt : ((tierHits T q d opened).filter fun y => byTier y < byTier x ∧
      Near T q d opened y).length < (tierHits T q d opened).length := by
    apply List.length_filter_lt_length_iff_exists.mpr
    exact ⟨x, hx, by simp⟩
  have huncovered := List.length_filter_le (uncovered d) (durableTierHits T q d opened)
  have hall : (tierHits T q d opened).length = (liveTierHits T q d.schema d.segment).length +
      ((durableTierHits T q d opened).filter (uncovered d)).length := by
    unfold tierHits
    rw [List.length_append, List.length_map, List.length_map]
  unfold unionLimit at hfew
  omega

theorem Keyed.mem_candidates_of_few (h : Keyed d opened)
    (hfew : (liveTierHits T q d.schema d.segment).length +
      (durableTierHits T q d opened).length ≤ unionLimit) :
    n ∈ (((TopK.sortBy byTier (gathered T q d opened)).take unionLimit).map
        fun x => x.2.toFtsHit).map FtsHit.pk ↔
      ∃ body, Searchable d opened n body ∧ T.isMatch q d.schema (keyDoc n body) = true := by
  rw [h.mem_candidates]
  constructor
  · rintro ⟨x, hx, hkey, -⟩
    obtain ⟨m, body, hid, hdoc, hmatch⟩ := h.doc_of_hit hx
    obtain rfl : m = n := Int.repr_injective (hid.symm.trans (h.id_of_key hx hkey))
    exact ⟨body, hdoc, hmatch⟩
  · rintro ⟨body, hdoc, hmatch⟩
    obtain ⟨x, hx, hkey⟩ := h.hit_of_searchable hdoc hmatch
    exact ⟨x, hx, hkey, close_of_few hfew hx⟩

theorem InSync.rewrites (h : InSync u sql column rows d opened) {tables : List TableWithJoins}
    {selection : Expr} {pred : LikePredicate}
    (hpred : extractLikePredicate [.select ⟨tables, some selection⟩] = some pred)
    (hdef : trigramDef indexes pred = some d)
    (hparse : parse (queryText u pred.literal) = .ok q) :
    ∃ merged, unionHits T parse d (queryText u pred.literal) = .ok merged ∧
      rewriteLike u T parse indexes [.select ⟨tables, some selection⟩] =
        .ok (some ⟨tables, some (prefiltered d.pkColumn (merged.map FtsHit.pk) selection)⟩) := by
  refine ⟨_, unionHits_eq h.keys h.ready hparse, ?_⟩
  unfold rewriteLike
  rw [hpred]
  dsimp only
  rw [hdef]
  dsimp only
  rw [unionHits_eq h.keys h.ready hparse]
  rfl

end Sync

namespace LikeExample

abbrev Row := ℤ × String

def number (column : String) (row : Row) : Option ℤ :=
  if column = "id" then some row.1 else none

def keeps : Expr → Row → Bool
  | .like false false (.column "body") (.string p), row =>
    decide (stripSuffix (stripPrefix p.toList) <:+: row.2.toList)
  | .binary .and left right, row => keeps left row && keeps right row
  | .binary .or left right, row => keeps left row || keeps right row
  | .nested e, row => keeps e row
  | .inList (.column name) list, row => (number name row).any fun n => decide (some n ∈ list)
  | _, _ => false

def sql : Sql Row where
  number := number
  text column row := if column = "body" then some row.2 else none
  keeps := keeps
  keeps_and _ _ _ := rfl
  keeps_nested _ _ := rfl
  keeps_inList name list row := by
    change (number name row).any _ = true ↔ _
    rw [Option.any_eq_true]
    apply exists_congr
    intro n
    rw [decide_eq_true_iff]

def parse (text : String) : Except String (List (List Char)) :=
  .ok ((splitWhitespace ascii text.toList).filter fun word => decide (word ∉ reserved))

/-- The body has every word of the query. -/
def search : Tantivy (List (List Char)) ℕ where
  isMatch q _ doc := !q.isEmpty && doc.values.any fun v => match v.2 with
    | .str body => q.all fun word =>
        decide ((word.flatMap fun c => ascii.lower [c]) ∈ whitespaceTokens ascii body)
    | .i64 _ => false
  score _ _ _ := 0
  noScore := 0
  missingFirst := false

theorem parse_words {words : List (List Char)} (h : ∀ w ∈ words, Term ascii w) :
    parse (String.ofList (List.intercalate " AND ".toList words)) = .ok words := by
  have hvisible : ∀ w, Term ascii w → ∀ c ∈ w, ascii.isWhitespace c = false :=
    fun w hw c hc => (Bool.or_eq_false_iff.mp (hw.plain c hc).1).1
  unfold parse
  rw [String.toList_ofList]
  refine congrArg Except.ok ?_
  induction words with
  | nil => rfl
  | cons w ws ih =>
    have hw := h w List.mem_cons_self
    have hrest := ih fun w' hw' => h w' (List.mem_cons_of_mem w hw')
    cases ws with
    | nil =>
      rw [List.intercalate_singleton, splitWhitespace_word hw.nonempty (hvisible w hw)]
      simp [hw.unreserved]
    | cons w' ws =>
      have hjoin : List.intercalate " AND ".toList (w :: w' :: ws) =
          w ++ ' ' :: ("AND".toList ++ ' ' :: List.intercalate " AND ".toList (w' :: ws)) := by
        rw [List.intercalate_cons_cons, List.append_assoc]
        rfl
      have hand : splitWhitespace ascii "AND".toList = ["AND".toList] := by decide
      have hreserved : "AND".toList ∈ reserved := by decide
      rw [hjoin, splitWhitespace_append rfl, splitWhitespace_append rfl, hand,
        splitWhitespace_word hw.nonempty (hvisible w hw), List.filter_append, List.filter_append,
        hrest, List.filter_singleton, List.filter_singleton, decide_eq_true hw.unreserved,
        decide_eq_false (not_not.mpr hreserved)]
      rfl

theorem readsTerms : ReadsTerms ascii search parse where
  matches_iff hterms hparse n body := by
    obtain rfl := Except.ok.inj ((parse_words hterms).symm.trans hparse)
    simp [search, keyDoc]

def rows : List Row := [(1, "abcd"), (2, "wxyz")]

def body : IndexDef where
  column := "body"
  pkColumn := "id"
  kind := .trigram
  analyzer := .text .whitespace
  segment := ⟨[(1, "abc bcd"), (2, "wxy xyz")], ∅, {1, 2}⟩
  durable := none

def indexes (table : String) : List IndexDef := if table = "docs" then [body] else []

def like : Expr := .like false false (.column "body") (.string "%abc%")

def docs : List TableWithJoins := [⟨.table "docs", 0⟩]

theorem inSync : InSync ascii sql "body" rows body [] where
  ready := .empty body.schema
  bodies _ h := absurd h List.not_mem_nil
  keys := by decide
  covers := by decide
  analyzer := rfl
  numbered row _ := ⟨row.1, rfl⟩
  primary := by decide
  searchable := by
    have hfirst : trigramize ascii "abcd" = "abc bcd" := by decide
    have hsecond : trigramize ascii "wxyz" = "wxy xyz" := by decide
    intro n text
    constructor
    · rintro (⟨hdoc, -⟩ | ⟨-, hdoc⟩)
      · rcases List.mem_pair.mp hdoc with heq | heq
        · obtain ⟨rfl, rfl⟩ := Prod.mk.inj heq
          exact ⟨(1, "abcd"), List.mem_cons_self, rfl, "abcd", rfl, hfirst.symm⟩
        · obtain ⟨rfl, rfl⟩ := Prod.mk.inj heq
          exact ⟨(2, "wxyz"), List.mem_cons_of_mem _ List.mem_cons_self, rfl, "wxyz", rfl,
            hsecond.symm⟩
      · exact absurd hdoc List.not_mem_nil
    · rintro ⟨row, hrow, hn, text', htext, rfl⟩
      refine Or.inl ⟨?_, Finset.notMem_empty n⟩
      obtain rfl : row.1 = n := Option.some.inj hn
      obtain rfl : row.2 = text' := Option.some.inj htext
      rcases List.mem_pair.mp hrow with rfl | rfl
      · rw [hfirst]
        exact List.mem_cons_self
      · rw [hsecond]
        exact List.mem_cons_of_mem _ List.mem_cons_self

theorem found : trigramDef indexes ⟨"docs", "body", "abc"⟩ = some body := rfl

theorem searched : parse (queryText ascii "abc") = .ok ["abc".toList] := by
  have hquery : queryText ascii "abc" = "abc" := by decide
  rw [hquery]
  exact congrArg Except.ok (by decide)

theorem extracted {selection : Expr} (h : findLike selection = some ("body", "%abc%")) :
    extractLikePredicate [.select ⟨docs, some selection⟩] = some ⟨"docs", "body", "abc"⟩ := by
  have hcore : cleanInfixCore "%abc%" = some "abc" := by decide
  change (findLike selection).bind _ = _
  rw [h, Option.bind_some]
  dsimp only
  rw [hcore]
  rfl

theorem findsAbcd : Finds ascii search ["abc".toList] "abc" 1 "abcd" := by
  have hpart : ∀ {s : String} {p}, TrigramPart (cutsQuery ascii) (ascii.lower s.toList) p ↔
      p ∈ literalWords ascii (trigramize ascii s) := (mem_literalWords ascii_cased).symm
  have hwords : literalWords ascii (trigramize ascii "abc") = ["abc".toList] := by decide
  have htoken : "abc".toList ∈ whitespaceTokens ascii (trigramize ascii "abcd") := by decide
  refine ⟨⟨"abc".toList, hpart.mpr (by rw [hwords]; exact List.mem_singleton_self _)⟩, ?_⟩
  intro p hp
  rw [hpart, hwords, List.mem_singleton] at hp
  exact (mem_whitespaceTokens ascii_cased).mp (hp ▸ htoken)

theorem covers_like :
    Covers ascii sql "body" "abc" rows body [] search ["abc".toList] like where
  matched := by
    intro row hrow hkeeps
    rcases List.mem_pair.mp hrow with rfl | rfl
    · exact ⟨1, "abcd", rfl, rfl, findsAbcd⟩
    · exact absurd hkeeps (by decide)
  close _ _ _ x hx _ := by
    refine close_of_few ?_ hx
    have hlive : (liveTierHits search ["abc".toList] body.schema body.segment).length ≤ 2 :=
      (List.length_filter_le _ _).trans (by decide)
    change _ + 0 ≤ 100
    omega

end LikeExample

end BlueDB.Fts
