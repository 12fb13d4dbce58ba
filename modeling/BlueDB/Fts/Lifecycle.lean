import BlueDB.Fts.Upkeep

/-!
# Indexes through declarations, drops and failovers

An index may be declared late or again, its table may be dropped and created again, and
the engine may be opened again from what is persisted. What the index finds then decides
what `@@` and LIKE answer.
-/

namespace BlueDB.Fts

variable {Query Score Row : Type} {u : Unicode} {name : String} {s : Site}
  {T : Tantivy Query Score}

structure Reads (sql : Sql (ℤ × List GValue)) (t : Table) : Prop where
  number : ∀ row ∈ t.rows.entries, sql.number t.pkColumn row = some row.1
  text : ∀ row ∈ t.rows.entries, ∀ column, sql.text column row = t.cell column row.2

/-- The matches of a query in both tiers are no more than the union takes. -/
def Few (T : Tantivy Query Score) (q : Query) (d : IndexDef) : Prop :=
  ∃ opened, openSplits d.blobs d.blobs.manifest = some opened ∧
    (liveTierHits T q d.schema d.segment).length + (durableTierHits T q d opened).length ≤
      unionLimit

variable [LinearOrder Score]

/-- A query with few matches gives the keys of the rows whose texts match, and no others. -/
def Site.Matches (u : Unicode) (T : Tantivy Query Score) (s : Site) : Prop :=
  ∀ d ∈ s.engine.indexes, ∀ (parse : String → Except String Query) query q,
    parse query = .ok q → Few T q (s.engine.asIndexDef u d) →
    ∃ merged, unionHits T parse (s.engine.asIndexDef u d) query = .ok merged ∧
      ∀ pk, pk ∈ merged.map FtsHit.pk ↔ ∃ text, s.text d.column pk = some text ∧
        T.isMatch q (bodySchema (d.body u)) (keyDoc pk (indexedText u d.kind text)) = true

/-- A LIKE with few matches that is rewritten keeps the rows whose texts are found by what
the literal is searched as, of those that the WHERE keeps. -/
def Site.Likes (u : Unicode) (T : Tantivy Query Score) (s : Site) : Prop :=
  u.Cased → ∀ t, s.table = some t → ∀ sql, Reads sql t → ∀ (parse : String → Except String Query)
    stmts s', ReadsTerms u T parse → rewriteLike u T parse (s.engine.indexesOf u) stmts =
      .ok (some s') →
    ∃ stmt selection pred d q, stmts = [.select stmt] ∧ stmt.selection = some selection ∧
      extractLikePredicate stmts = some pred ∧ d ∈ s.engine.indexes ∧ d.column = pred.column ∧
      parse (queryText u pred.literal) = .ok q ∧
      (Few T q (s.engine.asIndexDef u d) →
        (∀ row ∈ selected sql t.rows.entries stmt, ∃ text, t.cell d.column row.2 = some text ∧
          Finds u T q pred.literal row.1 text) →
        selected sql t.rows.entries s' = selected sql t.rows.entries stmt)

theorem PersistedDef.body_trigram (hu : u.Cased) {d : PersistedDef} (hkind : d.kind = .trigram) :
    d.body u = .text .whitespace := by
  have hletters : ∀ c ∈ "whitespace".toList, 'a' ≤ c ∧ c ≤ 'z' := by simp
  have hlower : u.lower "whitespace".toList = "whitespace".toList :=
    hu.lower_fixed _ fun c hc => hu.lower_letter c (hletters c hc).1 (hletters c hc).2
  unfold body effectiveAnalyzer analyzerForConfig
  rw [hkind]
  dsimp only
  rw [hlower]
  rfl

theorem Site.Follows.keyed (h : s.Follows u name) {d : InstalledDef}
    (hd : d ∈ s.engine.indexes) :
    ∃ opened, Keyed (s.engine.asIndexDef u d) opened ∧ ∀ pk body,
      Searchable (s.engine.asIndexDef u d) opened pk body ↔
        s.want u d.toPersistedDef pk = some body := by
  have htracks := h.tracks d hd
  obtain ⟨has, ⟨opened, hready, hdocs⟩, -⟩ := htracks.stores
  refine ⟨opened, ⟨hready, ?_, htracks.keys, htracks.covers⟩, ?_⟩
  · intro doc hdoc
    obtain ⟨pk, body, -, heq⟩ := (hdocs doc).mp hdoc
    exact ⟨pk, body, heq⟩
  · intro pk body
    rw [← htracks.finds_iff]
    have hdurable : durableDocs (s.engine.blobs d.indexId) =
        liveDocs (s.engine.blobs d.indexId) opened := by
      unfold durableDocs
      rw [hready.opens]
      rfl
    unfold LiveTier.Finds
    rw [hdurable]
    rfl

theorem Site.Follows.want_iff {d : PersistedDef} {pk : ℤ} {body : String} :
    s.want u d pk = some body ↔
      ∃ text, s.text d.column pk = some text ∧ body = indexedText u d.kind text := by
  unfold Site.want
  rw [Option.map_eq_some_iff]
  simp only [eq_comm]

omit [LinearOrder Score] in
theorem Keyed.few {d : IndexDef} {opened : List Opened} (h : Keyed d opened) {q : Query}
    (hfew : Few T q d) : (liveTierHits T q d.schema d.segment).length +
      (durableTierHits T q d opened).length ≤ unionLimit := by
  obtain ⟨opened', hopens, hle⟩ := hfew
  obtain rfl := Option.some.inj (h.ready.opens.symm.trans hopens)
  exact hle

theorem Site.Follows.matches (h : s.Follows u name) (T : Tantivy Query Score) : s.Matches u T := by
  intro d hd parse query q hparse hfew
  obtain ⟨opened, hkeyed, hsearchable⟩ := h.keyed hd
  refine ⟨_, unionHits_eq hkeyed.keys hkeyed.ready hparse, ?_⟩
  intro pk
  rw [hkeyed.mem_candidates_of_few (hkeyed.few hfew)]
  constructor
  · rintro ⟨body, hdoc, hmatch⟩
    obtain ⟨text, htext, rfl⟩ := want_iff.mp ((hsearchable pk body).mp hdoc)
    exact ⟨text, htext, hmatch⟩
  · rintro ⟨text, htext, hmatch⟩
    exact ⟨_, (hsearchable pk _).mpr (want_iff.mpr ⟨text, htext, rfl⟩), hmatch⟩

theorem Site.Follows.inSync (h : s.Follows u name) (hu : u.Cased) {d : InstalledDef}
    (hd : d ∈ s.engine.indexes)
    (hkind : d.kind = .trigram) {t : Table} (ht : s.table = some t) {sql : Sql (ℤ × List GValue)}
    (hreads : Reads sql t) :
    ∃ opened, InSync u sql d.column t.rows.entries (s.engine.asIndexDef u d) opened := by
  obtain ⟨opened, hkeyed, hsearchable⟩ := h.keyed hd
  have hpk := h.primary t ht d hd
  refine ⟨opened, hkeyed, d.body_trigram hu hkind, ?_, ?_, ?_⟩
  · intro row hrow
    refine ⟨row.1, ?_⟩
    change sql.number d.pkColumn row = _
    rw [hpk]
    exact hreads.number row hrow
  · intro row hrow row' hrow' heq
    change sql.number d.pkColumn row = sql.number d.pkColumn row' at heq
    rw [hpk, hreads.number row hrow, hreads.number row' hrow'] at heq
    exact OrderedMap.entry_eq t.rows.ascending hrow hrow' (Option.some.inj heq)
  · intro pk body
    rw [hsearchable, want_iff]
    change _ ↔ ∃ row ∈ t.rows.entries, sql.number d.pkColumn row = some pk ∧ _
    unfold Site.text Table.text
    rw [ht, Option.bind_some, hkind]
    constructor
    · rintro ⟨text, htext, rfl⟩
      obtain ⟨values, hrow, hcell⟩ := Option.bind_eq_some_iff.mp htext
      have hmem := OrderedMap.mem_entries.mpr hrow
      refine ⟨(pk, values), hmem, ?_, text, ?_, rfl⟩
      · rw [hpk]
        exact hreads.number _ hmem
      · rw [hreads.text _ hmem]
        exact hcell
    · rintro ⟨row, hrow, hnumber, text, htext, rfl⟩
      rw [hpk, hreads.number row hrow] at hnumber
      obtain rfl := Option.some.inj hnumber
      rw [hreads.text row hrow] at htext
      refine ⟨text, ?_, rfl⟩
      rw [OrderedMap.mem_entries.mp hrow]
      exact htext

theorem Site.Follows.likes (h : s.Follows u name) (T : Tantivy Query Score) : s.Likes u T := by
  intro hu t ht sql hreads parse stmts s' hterms hrw
  obtain ⟨tables, selection, pred, d', q, merged, rfl, hpred, hdef, hparse, hhits, rfl⟩ :=
    rewriteLike_some hrw
  have hmem := List.mem_of_find?_eq_some hdef
  have hfound := List.find?_some hdef
  obtain ⟨d, hd, rfl⟩ := List.mem_map.mp hmem
  have hd := (List.mem_filter.mp hd).1
  rw [Bool.and_eq_true] at hfound
  have hkind : d.kind = .trigram := eq_of_beq hfound.2
  refine ⟨⟨tables, some selection⟩, selection, pred, d, q, rfl, rfl, hpred, hd,
    eq_of_beq hfound.1, hparse, ?_⟩
  intro hfew hmatches
  obtain ⟨opened, hsync⟩ := h.inSync hu hd hkind ht hreads
  rw [hsync.selected_iff hu hterms hparse hhits]
  constructor
  · intro row hrow hkeeps
    obtain ⟨text, htext, hmatch⟩ := hmatches row (List.mem_filter.mpr ⟨hrow, hkeeps⟩)
    refine ⟨row.1, text, ?_, ?_, hmatch⟩
    · change sql.number d.pkColumn row = _
      rw [h.primary t ht d hd]
      exact hreads.number row hrow
    · rw [hreads.text row hrow]
      exact htext
  · intro _ _ _ x hx _
    exact close_of_few (hsync.few hfew) hx

/-- In a history whose events are all careful, every index finds exactly the texts of its
column under their keys. Then a query gives the keys of the rows that match, and a
rewritten LIKE keeps them. -/
theorem Site.lifecycle_exact (u : Unicode) (T : Tantivy Query Score) (name : String)
    (events : List Event) (hcareful : Site.CarefulRun u name ⟨none, .new⟩ events) :
    (Site.play u name ⟨none, .new⟩ events).Exact u ∧
      (Site.play u name ⟨none, .new⟩ events).Matches u T ∧
      (Site.play u name ⟨none, .new⟩ events).Likes u T := by
  have hfollows := (Site.Follows.start u name).play hcareful
  exact ⟨hfollows.exact, hfollows.matches T, hfollows.likes T⟩

namespace LifecycleExample

open LikeExample

def create : Event := .table (.create ["id", "body"] "id")

def declare : Event := .table (.createIndex "body" "english" .fulltext)

def insert : Event := .table (.commit [(1, some [.other "1", .str "draft"])])

def fold : Event := .engine (.sealIndex ⟨"docs", "body", .fulltext⟩ .finished)

def reopen : Event := .engine .reopen

def history (events : List Event) : Site := Site.play ascii "docs" ⟨none, .new⟩ events

theorem folded_covers : ∀ d ∈ (history [create, declare, insert, fold]).engine.indexes,
    d.segment.covered = ∅ := by decide

theorem careful_reopen :
    Site.CarefulRun ascii "docs" ⟨none, .new⟩ [create, declare, insert, fold, reopen] := by
  refine ⟨?_, ?_, ?_, trivial, ?_, trivial⟩
  · exact fun _ _ hd => absurd hd List.not_mem_nil
  · rintro t ⟨⟩
    exact fun _ => rfl
  · rintro t ⟨⟩
    refine ⟨?_, fun _ _ => trivial⟩
    intro d hd
    obtain rfl := List.mem_singleton.mp hd
    exact ⟨Finset.notMem_empty 1, rfl⟩
  · intro d hd pk hcovered
    have hd' : d ∈ (history [create, declare, insert, fold]).engine.indexes := hd
    rw [folded_covers d hd'] at hcovered
    exact absurd hcovered (Finset.notMem_empty pk)

theorem lifecycle_exact_reopen :
    (history [create, declare, insert, fold, reopen]).Exact ascii ∧
      (history [create, declare, insert, fold, reopen]).Matches ascii search ∧
      (history [create, declare, insert, fold, reopen]).Likes ascii search :=
  Site.lifecycle_exact ascii search "docs" _ careful_reopen

/-- An index that is declared late does not find the rows that are there. -/
theorem declared_late : ¬ ∀ events, (history events).Exact ascii := by
  intro h
  have hexact := h [create, insert, declare] _ List.mem_cons_self 1 "draft"
  rcases hexact.mpr ⟨"draft", rfl, rfl⟩ with ⟨hdoc, -⟩ | ⟨-, hdoc⟩
  · exact absurd hdoc List.not_mem_nil
  · exact absurd hdoc List.not_mem_nil

end LifecycleExample

end BlueDB.Fts
