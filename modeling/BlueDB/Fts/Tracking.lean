import BlueDB.Fts.Engine
import BlueDB.Fts.LikeAnswers

/-!
# What an index finds

The live segment answers for the keys that it covers, the durable tier for the others. An
index tracks a column while both together have the text of every key. Indexing, sealing
and compacting keep that.
-/

namespace BlueDB.Fts

/-- The documents of an index whose splits can be opened. -/
def durableDocs (b : Blobs) : List TantivyDocument :=
  (openSplits b b.manifest).elim [] (liveDocs b)

/-- The durable documents are those of some keys and bodies. -/
def Stores (schema : Schema) (b : Blobs) (has : ℤ → String → Prop) : Prop :=
  ∃ opened, Ready schema b opened ∧
    ∀ doc, doc ∈ liveDocs b opened ↔ ∃ pk body, has pk body ∧ doc = keyDoc pk body

variable {schema : Schema} {analyzer : FieldKind} {b : Blobs} {has : ℤ → String → Prop} {pk : ℤ}
  {body : String}

theorem repr_inj : Function.Injective Int.repr := fun _ _ => Int.repr_injective

theorem keyDoc_inj {pk' : ℤ} {body' : String} :
    keyDoc pk body = keyDoc pk' body' ↔ pk = pk' ∧ body = body' := by
  unfold keyDoc
  constructor
  · intro heq
    injection heq with hid hvalues
    refine ⟨Int.repr_injective hid, ?_⟩
    injection hvalues with hvalue
    injection hvalue with _ hstr
    injection hstr
  · rintro ⟨rfl, rfl⟩
    rfl

theorem keyDoc_conforms (h : analyzer.takes (.str body) = true) :
    Conforms (bodySchema analyzer) (keyDoc pk body) where
  typed := by
    change (analyzer.takes (.str body) && true) = true
    rw [h]
    rfl
  projected := rfl

theorem Stores.empty (schema : Schema) : Stores schema Blobs.empty fun _ _ => False := by
  refine ⟨[], .empty schema, ?_⟩
  intro doc
  constructor
  · intro hdoc
    exact absurd hdoc List.not_mem_nil
  · rintro ⟨_, _, hfalse, -⟩
    exact hfalse.elim

theorem Stores.durable_iff (h : Stores schema b has) :
    keyDoc pk body ∈ durableDocs b ↔ has pk body := by
  obtain ⟨opened, hready, hdocs⟩ := h
  unfold durableDocs
  rw [hready.opens, Option.elim_some, hdocs]
  constructor
  · rintro ⟨pk', body', hhas, heq⟩
    obtain ⟨rfl, rfl⟩ := keyDoc_inj.mp heq
    exact hhas
  · intro hhas
    exact ⟨pk, body, hhas, rfl⟩

theorem Stores.reschema (h : Stores schema b has) (hempty : b.manifest = []) (schema' : Schema) :
    Stores schema' b has := by
  obtain ⟨opened, hready, hdocs⟩ := h
  have hopens := hready.opens
  rw [hempty] at hopens
  obtain rfl : [] = opened := Option.some.inj hopens
  refine ⟨[], ⟨hready.opens, ?_, ?_, ?_, hready.live, hready.bounded, hready.named⟩, hdocs⟩
  · exact fun _ ho => absurd ho List.not_mem_nil
  · exact fun _ ho => absurd ho List.not_mem_nil
  · exact fun _ ho => absurd ho List.not_mem_nil

/-- An update puts the documents in the place of those of their keys. -/
theorem Stores.update (h : Stores (bodySchema analyzer) b has)
    (hbody : ∀ text, analyzer.takes (.str text) = true) {docs : List (ℤ × String)}
    (hkeys : (docs.map Prod.fst).Nodup) :
    Stores (bodySchema analyzer) (b.writeAll (Fts.update (bodySchema analyzer)
        (docs.map fun d => d.1.repr) (docs.map fun d => keyDoc d.1 d.2) b))
      fun pk body => (pk, body) ∈ docs ∨ pk ∉ docs.map Prod.fst ∧ has pk body := by
  obtain ⟨opened, hready, hdocs⟩ := h
  have hids : (docs.map fun d => keyDoc d.1 d.2).map TantivyDocument.id =
      (docs.map Prod.fst).map Int.repr := by
    rw [List.map_map, List.map_map]
    rfl
  have hconforms : ∀ d ∈ docs.map fun d => keyDoc d.1 d.2, Conforms (bodySchema analyzer) d := by
    intro d hd
    obtain ⟨doc, -, rfl⟩ := List.mem_map.mp hd
    exact keyDoc_conforms (hbody doc.2)
  have hnodup : ((docs.map fun d => keyDoc d.1 d.2).map TantivyDocument.id).Nodup := by
    rw [hids]
    exact hkeys.map repr_inj
  have hnew : ∀ d ∈ liveDocs b opened,
      d.id ∈ (docs.map fun d => keyDoc d.1 d.2).map TantivyDocument.id →
        d.id ∈ docs.map fun d => d.1.repr := by
    intro d _ hid
    rw [List.map_map] at hid
    exact hid
  obtain ⟨opened', hready', hlive⟩ := hready.replace hconforms hnodup hnew
  refine ⟨opened', hready', ?_⟩
  intro doc
  rw [hlive, List.mem_append, List.mem_filter, hdocs, Bool.not_eq_true', decide_eq_false_iff_not]
  have hout : ∀ pk body, (keyDoc pk body).id ∈ docs.map (fun d => d.1.repr) ↔
      pk ∈ docs.map Prod.fst := by
    intro pk body
    rw [List.mem_map, List.mem_map]
    apply exists_congr
    intro d
    apply and_congr_right'
    exact repr_inj.eq_iff
  constructor
  · rintro (⟨⟨pk, body, hhas, rfl⟩, hnot⟩ | hdoc)
    · exact ⟨pk, body, Or.inr ⟨(hout pk body).not.mp hnot, hhas⟩, rfl⟩
    · obtain ⟨d, hd, rfl⟩ := List.mem_map.mp hdoc
      exact ⟨d.1, d.2, Or.inl hd, rfl⟩
  · rintro ⟨pk, body, hdoc | ⟨hnot, hhas⟩, rfl⟩
    · exact Or.inr (List.mem_map.mpr ⟨(pk, body), hdoc, rfl⟩)
    · exact Or.inl ⟨⟨pk, body, hhas, rfl⟩, (hout pk body).not.mpr hnot⟩

theorem Stores.delete (h : Stores schema b has) (dead : List ℤ) :
    Stores schema (b.writeAll (Fts.delete (dead.map Int.repr) b))
      fun pk body => pk ∉ dead ∧ has pk body := by
  obtain ⟨opened, hready, hdocs⟩ := h
  refine ⟨opened, hready.delete _, ?_⟩
  intro doc
  rw [liveDocs_delete hready, List.mem_filter, hdocs, Bool.not_eq_true', decide_eq_false_iff_not]
  have hout : ∀ pk body, (keyDoc pk body).id ∈ dead.map Int.repr ↔ pk ∈ dead := by
    intro pk body
    exact List.mem_map_of_injective repr_inj
  constructor
  · rintro ⟨⟨pk, body, hhas, rfl⟩, hnot⟩
    exact ⟨pk, body, ⟨(hout pk body).not.mp hnot, hhas⟩, rfl⟩
  · rintro ⟨pk, body, ⟨hnot, hhas⟩, rfl⟩
    exact ⟨⟨pk, body, hhas, rfl⟩, (hout pk body).not.mpr hnot⟩

theorem Stores.playUpdate (h : Stores (bodySchema analyzer) b has)
    (hbody : ∀ text, analyzer.takes (.str text) = true) {docs : List (ℤ × String)}
    (hkeys : (docs.map Prod.fst).Nodup) :
    ∃ has', Stores (bodySchema analyzer) (b.play (updateSteps (bodySchema analyzer) docs)) has' ∧
      ∀ pk body, has' pk body ↔ (pk, body) ∈ docs ∨ pk ∉ docs.map Prod.fst ∧ has pk body := by
  unfold updateSteps
  split_ifs with hempty
  · refine ⟨has, h, ?_⟩
    intro pk body
    rw [List.isEmpty_iff.mp hempty]
    simp
  · exact ⟨_, h.update hbody hkeys, fun _ _ => Iff.rfl⟩

theorem Stores.playDelete (h : Stores schema b has) (tombs : Finset ℤ) :
    ∃ has', Stores schema (b.play (deleteSteps tombs)) has' ∧
      ∀ pk body, has' pk body ↔ pk ∉ tombs ∧ has pk body := by
  unfold deleteSteps
  split_ifs with hempty
  · refine ⟨has, h, ?_⟩
    intro pk body
    rw [hempty]
    simp
  · refine ⟨_, h.delete _, ?_⟩
    intro pk body
    rw [Finset.mem_sort]

theorem Stores.compact (h : Stores schema b has) :
    Stores schema (b.writeAll ((maybeCompact schema b).getD [])) has := by
  obtain ⟨opened, hready, hdocs⟩ := h
  obtain ⟨writes, opened', hwrites, hready', hlive⟩ := hready.maybeCompact
  rw [hwrites, Option.getD_some]
  refine ⟨opened', hready', ?_⟩
  rw [hlive]
  exact hdocs

/-- The text under the key is in the live segment, or in the durable tier and the live
segment does not cover it. -/
def LiveTier.Finds (live : LiveTier) (b : Blobs) (pk : ℤ) (body : String) : Prop :=
  ((pk, body) ∈ live.docs ∧ pk ∉ live.tombstones) ∨
    (pk ∉ live.covered ∧ keyDoc pk body ∈ durableDocs b)

/-- What the live segment covers is in the durable tier as well. -/
def LiveTier.Flushed (live : LiveTier) (b : Blobs) : Prop :=
  ∀ pk ∈ live.covered, ∀ body, keyDoc pk body ∈ durableDocs b ↔
    (pk, body) ∈ live.docs ∧ pk ∉ live.tombstones

structure Tracks (schema : Schema) (want : ℤ → Option String) (live : LiveTier) (b : Blobs) :
    Prop where
  stores : ∃ has, Stores schema b has ∧
    ∀ pk ∉ live.covered, ∀ body, has pk body ↔ want pk = some body
  keys : (live.docs.map Prod.fst).Nodup
  covers : ∀ doc ∈ live.docs, doc.1 ∈ live.covered
  hides : live.tombstones ⊆ live.covered
  shown : ∀ doc ∈ live.docs, doc.1 ∉ live.tombstones
  newest : ∀ pk ∈ live.covered, pk ∉ live.tombstones →
    ∃ body, want pk = some body ∧ (pk, body) ∈ live.docs
  hidden : ∀ pk ∈ live.tombstones, want pk = none

variable {want want' : ℤ → Option String} {live : LiveTier}

namespace Tracks

theorem congr (h : Tracks schema want live b) (heq : want' = want) :
    Tracks schema want' live b := by
  rw [heq]
  exact h

theorem doc_unique (h : Tracks schema want live b) {body' : String} (hdoc : (pk, body) ∈ live.docs)
    (hdoc' : (pk, body') ∈ live.docs) : body = body' := by
  have heq := List.inj_on_of_nodup_map h.keys hdoc hdoc' rfl
  exact congrArg Prod.snd heq

theorem want_of_doc (h : Tracks schema want live b) (hdoc : (pk, body) ∈ live.docs) :
    want pk = some body := by
  obtain ⟨body', hwant, hdoc'⟩ := h.newest pk (h.covers _ hdoc) (h.shown _ hdoc)
  rw [h.doc_unique hdoc hdoc']
  exact hwant

theorem finds_iff (h : Tracks schema want live b) :
    live.Finds b pk body ↔ want pk = some body := by
  obtain ⟨has, hstores, hsealed⟩ := h.stores
  constructor
  · rintro (⟨hdoc, -⟩ | ⟨hcovered, hdoc⟩)
    · exact h.want_of_doc hdoc
    · exact (hsealed pk hcovered body).mp (hstores.durable_iff.mp hdoc)
  · intro hwant
    by_cases hcovered : pk ∈ live.covered
    · have htomb : pk ∉ live.tombstones := by
        intro htomb
        rw [h.hidden pk htomb] at hwant
        cases hwant
      obtain ⟨body', hwant', hdoc⟩ := h.newest pk hcovered htomb
      obtain rfl := Option.some.inj (hwant.symm.trans hwant')
      exact Or.inl ⟨hdoc, htomb⟩
    · exact Or.inr ⟨hcovered, hstores.durable_iff.mpr ((hsealed pk hcovered body).mpr hwant)⟩

theorem start (schema : Schema) : Tracks schema (fun _ => none) .empty Blobs.empty where
  stores := by
    refine ⟨_, Stores.empty schema, ?_⟩
    intro pk _ body
    exact ⟨False.elim, nofun⟩
  keys := List.Pairwise.nil
  covers _ h := absurd h List.not_mem_nil
  hides := Finset.Subset.refl _
  shown _ h := absurd h List.not_mem_nil
  newest _ h := absurd h (Finset.notMem_empty _)
  hidden _ h := absurd h (Finset.notMem_empty _)

theorem mem_others {docs : List (ℤ × String)} {doc : ℤ × String} :
    doc ∈ docs.filter (fun d => d.1 != pk) ↔ doc ∈ docs ∧ doc.1 ≠ pk := by
  rw [List.mem_filter, bne_iff_ne]

theorem index (h : Tracks schema want live b) (hpk : pk ∉ live.tombstones) (body : String) :
    Tracks schema (Function.update want pk (some body)) (live.index pk body) b where
  stores := by
    obtain ⟨has, hstores, hsealed⟩ := h.stores
    refine ⟨has, hstores, ?_⟩
    intro pk' hpk'
    obtain ⟨hne, hcovered⟩ := not_or.mp (Finset.mem_insert.not.mp hpk')
    rw [Function.update_of_ne hne]
    exact hsealed pk' hcovered
  keys := by
    change ((live.docs.filter (fun d => d.1 != pk) ++ [(pk, body)]).map Prod.fst).Nodup
    rw [List.map_append]
    apply (h.keys.sublist (List.filter_sublist.map _)).append (List.nodup_singleton _)
    intro pk' hothers hpk'
    obtain rfl := List.mem_singleton.mp hpk'
    obtain ⟨doc, hdoc, heq⟩ := List.mem_map.mp hothers
    exact (mem_others.mp hdoc).2 heq
  covers doc hdoc := by
    rcases List.mem_append.mp hdoc with hdoc | hdoc
    · exact Finset.mem_insert_of_mem (h.covers doc (mem_others.mp hdoc).1)
    · obtain rfl := List.mem_singleton.mp hdoc
      exact Finset.mem_insert_self ..
  hides := h.hides.trans (Finset.subset_insert ..)
  shown doc hdoc := by
    rcases List.mem_append.mp hdoc with hdoc | hdoc
    · exact h.shown doc (mem_others.mp hdoc).1
    · obtain rfl := List.mem_singleton.mp hdoc
      exact hpk
  newest pk' hcovered htomb := by
    by_cases hne : pk' = pk
    · subst hne
      exact ⟨body, Function.update_self .., List.mem_append_right _ List.mem_cons_self⟩
    · obtain ⟨body', hwant, hdoc⟩ :=
        h.newest pk' (Finset.mem_of_mem_insert_of_ne hcovered hne) htomb
      rw [Function.update_of_ne hne]
      exact ⟨body', hwant, List.mem_append_left _ (mem_others.mpr ⟨hdoc, hne⟩)⟩
  hidden pk' htomb := by
    have hne : pk' ≠ pk := by
      rintro rfl
      exact hpk htomb
    rw [Function.update_of_ne hne]
    exact h.hidden pk' htomb

theorem tombstone (h : Tracks schema want live b) (pk : ℤ) :
    Tracks schema (Function.update want pk none) (live.tombstone pk) b where
  stores := by
    obtain ⟨has, hstores, hsealed⟩ := h.stores
    refine ⟨has, hstores, ?_⟩
    intro pk' hpk'
    obtain ⟨hne, hcovered⟩ := not_or.mp (Finset.mem_insert.not.mp hpk')
    rw [Function.update_of_ne hne]
    exact hsealed pk' hcovered
  keys := h.keys.sublist (List.filter_sublist.map _)
  covers doc hdoc := Finset.mem_insert_of_mem (h.covers doc (mem_others.mp hdoc).1)
  hides := Finset.insert_subset_insert pk h.hides
  shown doc hdoc := by
    obtain ⟨hdoc, hne⟩ := mem_others.mp hdoc
    intro htomb
    exact h.shown doc hdoc (Finset.mem_of_mem_insert_of_ne htomb hne)
  newest pk' hcovered htomb := by
    obtain ⟨hne, htomb⟩ := not_or.mp (Finset.mem_insert.not.mp htomb)
    obtain ⟨body, hwant, hdoc⟩ :=
      h.newest pk' (Finset.mem_of_mem_insert_of_ne hcovered hne) htomb
    rw [Function.update_of_ne hne]
    exact ⟨body, hwant, mem_others.mpr ⟨hdoc, hne⟩⟩
  hidden pk' htomb := by
    by_cases hne : pk' = pk
    · rw [hne, Function.update_self]
    · rw [Function.update_of_ne hne]
      exact h.hidden pk' (Finset.mem_of_mem_insert_of_ne htomb hne)

theorem snapshot_docs (h : Tracks schema want live b) : live.snapshotForSeal.docs = live.docs := by
  apply List.filter_eq_self.mpr
  intro doc hdoc
  exact decide_eq_true (h.shown doc hdoc)

/-- A live segment over other blobs that have the same for the keys it does not cover. -/
theorem rebase (h : Tracks schema want live b) {schema' : Schema} {b' : Blobs}
    (hstores : ∃ has, Stores schema' b' has ∧
      ∀ pk ∉ live.covered, ∀ body, has pk body ↔ want pk = some body) :
    Tracks schema' want live b' where
  __ := h
  stores := hstores

theorem flushed (h : Tracks schema want live b) (hflushed : live.Flushed b) :
    Tracks schema want .empty b where
  stores := by
    obtain ⟨has, hstores, hsealed⟩ := h.stores
    refine ⟨has, hstores, ?_⟩
    intro pk _ body
    by_cases hcovered : pk ∈ live.covered
    · rw [← hstores.durable_iff, hflushed pk hcovered, ← h.finds_iff]
      constructor
      · exact Or.inl
      · rintro (hlive | ⟨hout, -⟩)
        · exact hlive
        · exact absurd hcovered hout
    · exact hsealed pk hcovered body
  keys := List.Pairwise.nil
  covers _ h := absurd h List.not_mem_nil
  hides := Finset.Subset.refl _
  shown _ h := absurd h List.not_mem_nil
  newest _ h := absurd h (Finset.notMem_empty _)
  hidden _ h := absurd h (Finset.notMem_empty _)

section Seal

variable (hbody : ∀ text, analyzer.takes (.str text) = true)

include hbody

/-- The durable steps change the keys that the live segment covers, and no others. -/
theorem play (h : Tracks (bodySchema analyzer) want live b) {steps : List (Blobs → List Write)}
    (hsteps : ∀ step ∈ steps, step ∈ live.snapshotForSeal.steps (bodySchema analyzer)) :
    Tracks (bodySchema analyzer) want live (b.play steps) := by
  induction steps generalizing b with
  | nil => exact h
  | cons step rest ih =>
    refine ih ?_ fun step' hstep' => hsteps step' (List.mem_cons_of_mem _ hstep')
    apply h.rebase
    obtain ⟨has, hstores, hsealed⟩ := h.stores
    have hstep := hsteps step List.mem_cons_self
    unfold SealSnapshot.steps updateSteps deleteSteps at hstep
    rw [h.snapshot_docs] at hstep
    rcases List.mem_append.mp hstep with hstep | hstep
    · split_ifs at hstep
      · exact absurd hstep List.not_mem_nil
      · obtain rfl := List.mem_singleton.mp hstep
        refine ⟨_, hstores.update hbody h.keys, ?_⟩
        intro pk hpk body
        have hout : pk ∉ live.docs.map Prod.fst := by
          intro hmem
          obtain ⟨doc, hdoc, rfl⟩ := List.mem_map.mp hmem
          exact hpk (h.covers doc hdoc)
        rw [← hsealed pk hpk body]
        constructor
        · rintro (hdoc | ⟨-, hhas⟩)
          · exact absurd (List.mem_map_of_mem hdoc) hout
          · exact hhas
        · intro hhas
          exact Or.inr ⟨hout, hhas⟩
    · split_ifs at hstep
      · exact absurd hstep List.not_mem_nil
      · obtain rfl := List.mem_singleton.mp hstep
        refine ⟨_, hstores.delete _, ?_⟩
        intro pk hpk body
        have hout : pk ∉ live.snapshotForSeal.tombs.sort (· ≤ ·) := by
          rw [Finset.mem_sort]
          exact fun htomb => hpk (h.hides htomb)
        rw [← hsealed pk hpk body, and_iff_right hout]

theorem play_flushed (h : Tracks (bodySchema analyzer) want live b) :
    live.Flushed (b.play (live.snapshotForSeal.steps (bodySchema analyzer))) := by
  obtain ⟨has, hstores, -⟩ := h.stores
  obtain ⟨has', hstores', hhas'⟩ := hstores.playUpdate hbody h.keys
  obtain ⟨has'', hstores'', hhas''⟩ := hstores'.playDelete live.tombstones
  have hplay : b.play (live.snapshotForSeal.steps (bodySchema analyzer)) =
      (b.play (updateSteps (bodySchema analyzer) live.docs)).play
        (deleteSteps live.tombstones) := by
    unfold SealSnapshot.steps Blobs.play
    rw [h.snapshot_docs, List.foldl_append]
    rfl
  rw [hplay]
  intro pk hcovered body
  rw [hstores''.durable_iff, hhas'', hhas']
  constructor
  · rintro ⟨htomb, hdoc | ⟨hout, -⟩⟩
    · exact ⟨hdoc, htomb⟩
    · obtain ⟨body', -, hdoc⟩ := h.newest pk hcovered htomb
      exact absurd (List.mem_map_of_mem hdoc) hout
  · rintro ⟨hdoc, htomb⟩
    exact ⟨htomb, Or.inl hdoc⟩

end Seal

theorem compact (h : Tracks schema want live b) :
    Tracks schema want live (b.writeAll ((maybeCompact schema b).getD [])) := by
  apply h.rebase
  obtain ⟨has, hstores, hsealed⟩ := h.stores
  exact ⟨has, hstores.compact, hsealed⟩

end Tracks

end BlueDB.Fts
