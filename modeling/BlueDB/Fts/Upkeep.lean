import BlueDB.Fts.Tracking

/-!
# Indexes of a table

What happens to a table and to the engine keeps every index in step with its column, as
long as the index takes over what the table takes, and what is forgotten had been sealed.
-/

namespace BlueDB.Fts

variable {u : Unicode} {name : String} {t t' : Table} {e : FtsEngine} {s : Site}

inductive Event
  | table (op : TableOp)
  | engine (op : EngineOp)

def Site.step (u : Unicode) (name : String) (s : Site) : Event → Site
  | .table op => s.run u name op
  | .engine op => { s with engine := s.engine.run u op }

def Site.play (u : Unicode) (name : String) (s : Site) (events : List Event) : Site :=
  events.foldl (Site.step u name) s

/-- The text of a column in the row of a key. Without the table there is none. -/
def Site.text (s : Site) (column : String) (pk : ℤ) : Option String :=
  s.table.bind fun t => t.text column pk

def Site.want (u : Unicode) (s : Site) (d : PersistedDef) (pk : ℤ) : Option String :=
  (s.text d.column pk).map (indexedText u d.kind)

/-- Every index finds the texts of its column under their keys, and nothing else. -/
def Site.Exact (u : Unicode) (s : Site) : Prop :=
  ∀ d ∈ s.engine.indexes, ∀ pk body, d.segment.Finds (s.engine.blobs d.indexId) pk body ↔
    ∃ text, s.text d.column pk = some text ∧ body = indexedText u d.kind text

/-- The index takes the text that the column gets, and its key has no tombstone. When the
index takes nothing, the column keeps its text. -/
def InstalledDef.Takes (t : Table) (d : InstalledDef) : ℤ × Option (List GValue) → Prop
  | (_, none) => True
  | (pk, some values) => match textAt values d.columnOrdinal with
    | some text => pk ∉ d.segment.tombstones ∧ t.cell d.column values = some text
    | none => t.cell d.column values = t.text d.column pk

def TakeAll (u : Unicode) (name : String) :
    Table → List InstalledDef → List (ℤ × Option (List GValue)) → Prop
  | _, _, [] => True
  | t, indexes, c :: rest => (∀ d ∈ indexes, d.Takes t c) ∧ ∀ t', t.change c = some t' →
    TakeAll u name t' (indexes.map fun d => d.observe u (rowChange name c)) rest

/-- What an index with an empty live segment has to find in the durable tier. -/
def Site.Declares (u : Unicode) (name : String) (s : Site) (t : Table) (column analyzer : String)
    (kind : IndexKind) : Prop :=
  match s.engine.find ⟨name, column, kind⟩ with
  -- an index is declared before its column has texts
  | none => ∀ pk, t.text column pk = none
  -- and declared again when all is sealed, with splits of the same analyzer
  | some d => d.segment.Flushed (s.engine.blobs d.indexId) ∧
    (d.body u = analyzerForConfig u (effectiveAnalyzer kind analyzer) ∨
      (s.engine.blobs d.indexId).manifest = [])

/-- Indexes take what a commit writes. The engine is opened again and an index is declared
when the durable tier has all texts, and a table is dropped when it has none and created
again with the same key column. An indexed column stays. -/
def Site.Careful (u : Unicode) (name : String) (s : Site) : Event → Prop
  | .table (.create _ pkColumn) =>
    s.table = none → ∀ d ∈ s.engine.indexes, d.pkColumn = pkColumn
  | .table (.drop) => ∀ d ∈ s.engine.indexes, ∀ pk, s.text d.column pk = none
  | .table (.dropColumn column) => ∀ d ∈ s.engine.indexes, d.column ≠ column
  | .table (.commit changes) => ∀ t, s.table = some t → TakeAll u name t s.engine.indexes changes
  | .table (.createIndex column analyzer kind) =>
    ∀ t, s.table = some t → s.Declares u name t column analyzer kind
  | .engine .reopen => ∀ d ∈ s.engine.indexes, d.segment.Flushed (s.engine.blobs d.indexId)
  | _ => True

def Site.CarefulRun (u : Unicode) (name : String) (s : Site) : List Event → Prop
  | [] => True
  | ev :: rest => s.Careful u name ev ∧ (s.step u name ev).CarefulRun u name rest

theorem PersistedDef.name_eq {d d' : PersistedDef} (htable : d.table = d'.table)
    (hid : d.indexId = d'.indexId) : d.name = d'.name := by
  obtain ⟨table, column, ordinal, pkColumn, analyzer, kind⟩ := d
  obtain ⟨table', column', ordinal', pkColumn', analyzer', kind'⟩ := d'
  obtain rfl : table = table' := htable
  have hcolumn : ∀ p : String, p ++ "/" ++ table ++ "/" ++ column =
      p ++ "/" ++ table ++ "/" ++ column' → column = column' :=
    fun p heq => (String.append_right_inj _).mp heq
  have hprefix : "fts" ++ "/" ++ table ++ "/" ++ column ≠ "trgm" ++ "/" ++ table ++ "/" ++ column' ∧
      "trgm" ++ "/" ++ table ++ "/" ++ column ≠ "fts" ++ "/" ++ table ++ "/" ++ column' := by
    constructor
    · intro heq
      have hlist := congrArg String.toList heq
      simp at hlist
    · intro heq
      have hlist := congrArg String.toList heq
      simp at hlist
  cases kind with
  | fulltext =>
    cases kind' with
    | fulltext =>
      rw [hcolumn "fts" hid]
      rfl
    | trigram => exact absurd hid hprefix.1
  | trigram =>
    cases kind' with
    | fulltext => exact absurd hid hprefix.2
    | trigram =>
      rw [hcolumn "trgm" hid]
      rfl

theorem analyzerForConfig_takes (u : Unicode) (config text : String) :
    (analyzerForConfig u config).takes (.str text) = true := by
  unfold analyzerForConfig
  split <;> rfl

theorem effectiveAnalyzer_idem (kind : IndexKind) (analyzer : String) :
    effectiveAnalyzer kind (effectiveAnalyzer kind analyzer) = effectiveAnalyzer kind analyzer := by
  cases kind <;> rfl

@[simp] theorem observe_def (d : InstalledDef) (ch : RowChange) :
    (d.observe u ch).toPersistedDef = d.toPersistedDef := by
  unfold InstalledDef.observe
  split_ifs with htable
  · split
    · rfl
    · split <;> rfl
    · rfl
    · rfl
  · rfl

theorem find_some {d : InstalledDef} {index : IndexName} (h : e.find index = some d) :
    d ∈ e.indexes ∧ d.name = index := by
  refine ⟨List.mem_of_find?_eq_some h, ?_⟩
  have hname := List.find?_some h
  exact eq_of_beq hname

theorem find_none {index : IndexName} (h : e.find index = none) :
    ∀ d ∈ e.indexes, d.name ≠ index := by
  intro d hd heq
  have hname := List.find?_eq_none.mp h d hd
  rw [heq] at hname
  exact hname (beq_self_eq_true index)

theorem mem_install {indexes : List InstalledDef} {d d' : InstalledDef} :
    d' ∈ install indexes d ↔ (d' ∈ indexes ∧ d'.name ≠ d.name) ∨ d' = d := by
  unfold install
  rw [List.mem_append, List.mem_filter, bne_iff_ne, List.mem_singleton]

theorem install_names {indexes : List InstalledDef} (d : InstalledDef)
    (h : (indexes.map fun d => d.name).Nodup) :
    ((install indexes d).map fun d => d.name).Nodup := by
  unfold install
  rw [List.map_append]
  apply (h.sublist (List.filter_sublist.map _)).append (List.nodup_singleton _)
  intro index hothers hindex
  obtain rfl := List.mem_singleton.mp hindex
  obtain ⟨d', hd', heq⟩ := List.mem_map.mp hothers
  obtain ⟨-, hne⟩ := List.mem_filter.mp hd'
  exact bne_iff_ne.mp hne heq

theorem foldl_install {defs : List PersistedDef} {indexes : List InstalledDef}
    (h : ((indexes.map fun d => d.name) ++ defs.map PersistedDef.name).Nodup) :
    defs.foldl (fun indexes d => install indexes d.build) indexes =
      indexes ++ defs.map PersistedDef.build := by
  induction defs generalizing indexes with
  | nil => exact (List.append_nil _).symm
  | cons d rest ih =>
    have hinstall : install indexes d.build = indexes ++ [d.build] := by
      unfold install
      rw [List.filter_eq_self.mpr]
      intro d' hd'
      rw [bne_iff_ne]
      intro heq
      have hdisjoint := (List.nodup_append.mp h).2.2 d'.name
        (List.mem_map_of_mem (f := fun d : InstalledDef => d.name) hd') d.name
        List.mem_cons_self
      exact hdisjoint heq
    rw [List.foldl_cons, hinstall, ih, List.append_assoc]
    · rfl
    · rw [List.map_append, List.append_assoc]
      exact h

/-- An engine whose registry has its indexes, opened again. -/
theorem reopen_eq (hdistinct : (e.indexes.map fun d => d.name).Nodup)
    (hregistry : e.registry = e.indexes.map InstalledDef.toPersistedDef) :
    e.reopen = ⟨e.indexes.map fun d => d.toPersistedDef.build, e.registry, e.blobs⟩ := by
  have hindexes : e.reopen.indexes = e.indexes.map fun d => d.toPersistedDef.build := by
    unfold FtsEngine.reopen
    dsimp only
    rw [foldl_install, hregistry, List.nil_append, List.map_map]
    · rfl
    · rw [List.map_nil, List.nil_append, hregistry, List.map_map]
      exact hdistinct
  rw [← hindexes]
  rfl

theorem change_columns {c : ℤ × Option (List GValue)} (h : t.change c = some t') :
    t'.columns = t.columns ∧ t'.pkColumn = t.pkColumn := by
  obtain ⟨pk, row⟩ := c
  cases row with
  | none =>
    obtain ⟨_, -, rfl⟩ := Option.map_eq_some_iff.mp h
    exact ⟨rfl, rfl⟩
  | some values =>
    unfold Table.change at h
    dsimp only at h
    split_ifs at h
    obtain rfl := Option.some.inj h
    exact ⟨rfl, rfl⟩

theorem text_insert {pk : ℤ} {values : List GValue} (h : t.change (pk, some values) = some t')
    (column : String) :
    t'.text column = Function.update (t.text column) pk (t.cell column values) := by
  unfold Table.change at h
  dsimp only at h
  split_ifs at h
  obtain rfl := Option.some.inj h
  funext pk'
  unfold Table.text
  rw [OrderedMap.get_insert]
  by_cases heq : pk' = pk
  · rw [if_pos heq, heq, Function.update_self]
    rfl
  · rw [if_neg heq, Function.update_of_ne heq]
    rfl

theorem text_delete {pk : ℤ} (h : t.change (pk, none) = some t') (column : String) :
    t'.text column = Function.update (t.text column) pk none := by
  obtain ⟨_, -, rfl⟩ := Option.map_eq_some_iff.mp h
  funext pk'
  unfold Table.text
  rw [OrderedMap.get_erase]
  by_cases heq : pk' = pk
  · rw [if_pos heq, heq, Function.update_self]
    rfl
  · rw [if_neg heq, Function.update_of_ne heq]
    rfl

theorem dropColumn_pkColumn {column : String} (h : t.dropColumn column = some t') :
    t'.pkColumn = t.pkColumn := by
  unfold Table.dropColumn at h
  split_ifs at h
  obtain ⟨i, -, rfl⟩ := Option.map_eq_some_iff.mp h
  rfl

theorem findIdx?_eraseIdx {columns : List String} {column dropped : String} {i : ℕ}
    (hne : column ≠ dropped) (hi : columns.findIdx? (· == dropped) = some i)
    (values : List GValue) :
    ((columns.eraseIdx i).findIdx? (· == column)).bind (textAt (values.eraseIdx i)) =
      (columns.findIdx? (· == column)).bind (textAt values) := by
  induction columns generalizing i values with
  | nil => cases hi
  | cons c rest ih =>
    rw [List.findIdx?_cons] at hi
    cases hc : c == dropped with
    | true =>
      rw [hc] at hi
      obtain rfl := Option.some.inj hi
      obtain rfl := eq_of_beq hc
      have hcolumn : (c == column) = false := beq_eq_false_iff_ne.mpr hne.symm
      rw [List.eraseIdx_cons_zero, List.findIdx?_cons, hcolumn]
      cases values with
      | nil => cases hfind : rest.findIdx? (· == column) <;> rfl
      | cons v vs => cases hfind : rest.findIdx? (· == column) <;> rfl
    | false =>
      rw [hc] at hi
      obtain ⟨j, hj, rfl⟩ := Option.map_eq_some_iff.mp hi
      rw [List.eraseIdx_cons_succ, List.findIdx?_cons, List.findIdx?_cons]
      cases hcolumn : c == column with
      | true => cases values <;> rfl
      | false =>
        have hrest := ih hj values.tail
        cases values with
        | nil =>
          dsimp only [List.tail_nil] at hrest
          cases hfind : rest.findIdx? (· == column) <;>
            cases hfind' : (rest.eraseIdx j).findIdx? (· == column) <;> rfl
        | cons v vs =>
          dsimp only [List.tail_cons] at hrest
          rw [List.eraseIdx_cons_succ]
          cases hfind : rest.findIdx? (· == column) <;>
            cases hfind' : (rest.eraseIdx j).findIdx? (· == column) <;>
            rw [hfind, hfind'] at hrest <;> exact hrest

theorem text_dropColumn {column dropped : String} (h : t.dropColumn dropped = some t')
    (hne : column ≠ dropped) : t'.text column = t.text column := by
  unfold Table.dropColumn at h
  split_ifs at h
  obtain ⟨i, hi, rfl⟩ := Option.map_eq_some_iff.mp h
  funext pk
  unfold Table.text
  dsimp only
  rw [OrderedMap.get_mapValues]
  cases hrow : t.rows.get pk with
  | none => rfl
  | some values => exact findIdx?_eraseIdx hne hi values

structure Site.Follows (u : Unicode) (name : String) (s : Site) : Prop where
  named : ∀ d ∈ s.engine.indexes, d.table = name
  distinct : (s.engine.indexes.map fun d => d.name).Nodup
  registered : s.engine.registry = s.engine.indexes.map InstalledDef.toPersistedDef
  primary : ∀ t, s.table = some t → ∀ d ∈ s.engine.indexes, d.pkColumn = t.pkColumn
  tracks : ∀ d ∈ s.engine.indexes, Tracks (bodySchema (d.body u))
    (s.want u d.toPersistedDef) d.segment (s.engine.blobs d.indexId)
  unused : ∀ id, (∀ d ∈ s.engine.indexes, d.indexId ≠ id) → s.engine.blobs id = Blobs.empty

namespace Site.Follows

theorem start (u : Unicode) (name : String) : Follows u name ⟨none, .new⟩ where
  named _ h := absurd h List.not_mem_nil
  distinct := List.Pairwise.nil
  registered := rfl
  primary _ _ _ h := absurd h List.not_mem_nil
  tracks _ h := absurd h List.not_mem_nil
  unused _ _ := rfl

theorem exact (h : s.Follows u name) : s.Exact u := by
  intro d hd pk body
  rw [(h.tracks d hd).finds_iff]
  unfold Site.want
  rw [Option.map_eq_some_iff]
  simp only [eq_comm]

theorem index_eq (h : s.Follows u name) {d d' : InstalledDef} (hd : d ∈ s.engine.indexes)
    (hd' : d' ∈ s.engine.indexes) (hname : d.name = d'.name) : d = d' :=
  List.inj_on_of_nodup_map h.distinct hd hd' hname

theorem indexId_ne (h : s.Follows u name) {d d' : InstalledDef} (hd : d ∈ s.engine.indexes)
    (hd' : d' ∈ s.engine.indexes) (hname : d.name ≠ d'.name) : d.indexId ≠ d'.indexId := by
  intro hid
  exact hname (PersistedDef.name_eq ((h.named d hd).trans (h.named d' hd').symm) hid)

theorem retable (h : s.Follows u name) {table : Option Table}
    (hprimary : ∀ t, table = some t → ∀ d ∈ s.engine.indexes, d.pkColumn = t.pkColumn)
    (htext : ∀ d ∈ s.engine.indexes, ∀ pk,
      Site.text ⟨table, s.engine⟩ d.column pk = s.text d.column pk) :
    Follows u name ⟨table, s.engine⟩ where
  __ := h
  primary := hprimary
  tracks d hd := by
    apply (h.tracks d hd).congr
    funext pk
    exact congrArg (Option.map _) (htext d hd pk)

/-- Indexes and blobs that change under their declarations. -/
theorem remap (h : s.Follows u name) {table : Option Table} {f : InstalledDef → InstalledDef}
    {blobs : String → Blobs} (hdef : ∀ d, (f d).toPersistedDef = d.toPersistedDef)
    (hprimary : ∀ t, table = some t → ∀ d ∈ s.engine.indexes, d.pkColumn = t.pkColumn)
    (htracks : ∀ d ∈ s.engine.indexes, Tracks (bodySchema (d.body u))
      (Site.want u ⟨table, s.engine⟩ d.toPersistedDef) (f d).segment (blobs d.indexId))
    (hunused : ∀ id, (∀ d ∈ s.engine.indexes, d.indexId ≠ id) → blobs id = s.engine.blobs id) :
    Follows u name ⟨table, ⟨s.engine.indexes.map f, s.engine.registry, blobs⟩⟩ where
  named d hd := by
    obtain ⟨d, hmem, rfl⟩ := List.mem_map.mp hd
    rw [hdef]
    exact h.named d hmem
  distinct := by
    have heq : ((s.engine.indexes.map f).map fun d => d.name) =
        s.engine.indexes.map fun d => d.name := by
      rw [List.map_map]
      apply List.map_congr_left
      intro d _
      exact congrArg PersistedDef.name (hdef d)
    rw [heq]
    exact h.distinct
  registered := by
    rw [List.map_map, h.registered]
    apply List.map_congr_left
    intro d _
    exact (hdef d).symm
  primary t ht d hd := by
    obtain ⟨d, hmem, rfl⟩ := List.mem_map.mp hd
    rw [hdef]
    exact hprimary t ht d hmem
  tracks d hd := by
    obtain ⟨d, hmem, rfl⟩ := List.mem_map.mp hd
    rw [hdef]
    exact htracks d hmem
  unused id hid := by
    have hold : ∀ d ∈ s.engine.indexes, d.indexId ≠ id := by
      intro d hd
      have hne := hid (f d) (List.mem_map_of_mem hd)
      rw [hdef] at hne
      exact hne
    exact (hunused id hold).trans (h.unused id hold)

theorem observe_tracks {d : InstalledDef} {b : Blobs} {c : ℤ × Option (List GValue)}
    (hname : d.table = name) (hchange : t.change c = some t') (htakes : d.Takes t c)
    (h : Tracks (bodySchema (d.body u)) (Site.want u ⟨some t, e⟩ d.toPersistedDef) d.segment b) :
    Tracks (bodySchema (d.body u)) (Site.want u ⟨some t', e⟩ d.toPersistedDef)
      (d.observe u (rowChange name c)).segment b := by
  have htable : (rowChange name c).table = d.table := hname.symm
  unfold InstalledDef.observe
  rw [if_pos htable]
  obtain ⟨pk, row⟩ := c
  cases row with
  | none =>
    apply (h.tombstone pk).congr
    funext pk'
    change Option.map _ (t'.text d.column pk') = _
    rw [text_delete hchange]
    by_cases heq : pk' = pk
    · rw [heq, Function.update_self, Function.update_self]
      rfl
    · rw [Function.update_of_ne heq, Function.update_of_ne heq]
      rfl
  | some values =>
    have hwant : ∀ pk', Site.want u ⟨some t', e⟩ d.toPersistedDef pk' =
        if pk' = pk then (t.cell d.column values).map (indexedText u d.kind)
        else Site.want u ⟨some t, e⟩ d.toPersistedDef pk' := by
      intro pk'
      change Option.map _ (t'.text d.column pk') = _
      rw [text_insert hchange]
      by_cases heq : pk' = pk
      · rw [heq, Function.update_self, if_pos rfl]
      · rw [Function.update_of_ne heq, if_neg heq]
        rfl
    unfold InstalledDef.Takes at htakes
    dsimp only at htakes
    change Tracks _ _ (match textAt values d.columnOrdinal with
      | some text => { d with segment := d.segment.index pk (indexedText u d.kind text) }
      | none => d).segment b
    cases htext : textAt values d.columnOrdinal with
    | none =>
      rw [htext] at htakes
      apply h.congr
      funext pk'
      rw [hwant]
      split_ifs with heq
      · rw [heq]
        exact congrArg (Option.map _) htakes
      · rfl
    | some text =>
      rw [htext] at htakes
      apply (h.index htakes.1 (indexedText u d.kind text)).congr
      funext pk'
      rw [hwant]
      split_ifs with heq
      · rw [heq, Function.update_self, htakes.2]
        rfl
      · rw [Function.update_of_ne heq]

theorem commit (h : Follows u name ⟨some t, e⟩) {changes : List (ℤ × Option (List GValue))}
    (hcommit : t.commit changes = some t') (htake : TakeAll u name t e.indexes changes) :
    Follows u name ⟨some t', e.onCommit u (changes.map (rowChange name))⟩ := by
  induction changes generalizing t e with
  | nil =>
    obtain rfl := Option.some.inj hcommit
    exact h
  | cons c rest ih =>
    unfold Table.commit at hcommit
    rw [List.foldlM_cons] at hcommit
    obtain ⟨t₁, hchange, hrest⟩ := Option.bind_eq_some_iff.mp hcommit
    have hstep : Follows u name ⟨some t₁,
        { e with indexes := e.indexes.map fun d => d.observe u (rowChange name c) }⟩ := by
      apply h.remap fun d => observe_def d _
      · rintro t ⟨⟩ d hd
        exact (h.primary t rfl d hd).trans (change_columns hchange).2.symm
      · intro d hd
        exact observe_tracks (h.named d hd) hchange (htake.1 d hd) (h.tracks d hd)
      · exact fun _ _ => rfl
    exact ih hstep hrest (htake.2 t₁ hchange)

/-- A declared index finds in the durable tier what its column has. -/
theorem declared (h : s.Follows u name) (ht : s.table = some t) {column analyzer : String}
    {kind : IndexKind} {ordinal : ℕ} (hdeclares : s.Declares u name t column analyzer kind)
    {d : PersistedDef}
    (hd : d = ⟨name, column, ordinal, t.pkColumn, effectiveAnalyzer kind analyzer, kind⟩) :
    Tracks (bodySchema (d.body u)) (s.want u d) .empty (s.engine.blobs d.indexId) := by
  have hbody : d.body u = analyzerForConfig u (effectiveAnalyzer kind analyzer) := by
    rw [hd]
    exact congrArg (analyzerForConfig u) (effectiveAnalyzer_idem kind analyzer)
  unfold Site.Declares at hdeclares
  cases hfind : s.engine.find ⟨name, column, kind⟩ with
  | none =>
    rw [hfind] at hdeclares
    have hunused : s.engine.blobs d.indexId = Blobs.empty := by
      apply h.unused
      intro d' hd' hid
      apply find_none hfind d' hd'
      have htable : d'.table = d.table := by
        rw [hd]
        exact h.named d' hd'
      rw [PersistedDef.name_eq htable hid, hd]
      rfl
    rw [hunused]
    apply (Tracks.start (bodySchema (d.body u))).congr
    funext pk
    unfold Site.want Site.text
    rw [ht, Option.bind_some, hd, hdeclares pk]
    rfl
  | some d' =>
    rw [hfind] at hdeclares
    obtain ⟨hmem, hname⟩ := find_some hfind
    have htracks := (h.tracks d' hmem).flushed hdeclares.1
    have hfields : d'.table = name ∧ d'.column = column ∧ d'.kind = kind :=
      IndexName.mk.inj hname
    have hid : d.indexId = d'.indexId := by
      unfold PersistedDef.indexId
      rw [hfields.1, hfields.2.1, hfields.2.2, hd]
    have hwant : s.want u d = s.want u d'.toPersistedDef := by
      unfold Site.want
      rw [hfields.2.1, hfields.2.2, hd]
    rw [hid, hwant, hbody]
    rcases hdeclares.2 with heq | hempty
    · rw [← heq]
      exact htracks
    · apply htracks.rebase
      obtain ⟨has, hstores, hsealed⟩ := htracks.stores
      exact ⟨has, hstores.reschema hempty _, hsealed⟩

theorem createIndex (h : s.Follows u name) (ht : s.table = some t) {column analyzer : String}
    {kind : IndexKind} (hdeclares : s.Declares u name t column analyzer kind) {e : FtsEngine}
    (he : s.engine.createIndex t name column analyzer kind = some e) :
    Follows u name ⟨s.table, e⟩ := by
  obtain ⟨ordinal, -, rfl⟩ := Option.map_eq_some_iff.mp he
  constructor
  · intro d hd
    rcases mem_install.mp hd with ⟨hd, -⟩ | rfl
    · exact h.named d hd
    · rfl
  · exact install_names _ h.distinct
  · rfl
  · intro t' ht' d hd
    rcases mem_install.mp hd with ⟨hd, -⟩ | rfl
    · exact h.primary t' ht' d hd
    · exact congrArg Table.pkColumn (Option.some.inj (ht.symm.trans ht'))
  · intro d hd
    rcases mem_install.mp hd with ⟨hd, -⟩ | rfl
    · exact h.tracks d hd
    · exact h.declared ht hdeclares rfl
  · intro id hid
    apply h.unused
    intro d hd heq
    by_cases hname : d.name = ⟨name, column, kind⟩
    · -- the index that was replaced had the id of the new one
      have hfields := IndexName.mk.inj hname
      apply hid _ (mem_install.mpr (Or.inr rfl))
      rw [← heq]
      unfold PersistedDef.indexId
      rw [hfields.1, hfields.2.1, hfields.2.2]
      rfl
    · exact hid d (mem_install.mpr (Or.inl ⟨hd, hname⟩)) heq

theorem reopen (h : s.Follows u name)
    (hflushed : ∀ d ∈ s.engine.indexes, d.segment.Flushed (s.engine.blobs d.indexId)) :
    Follows u name ⟨s.table, s.engine.reopen⟩ := by
  rw [reopen_eq h.distinct h.registered]
  apply h.remap (f := fun d => d.toPersistedDef.build) fun _ => rfl
  · exact h.primary
  · intro d hd
    exact (h.tracks d hd).flushed (hflushed d hd)
  · exact fun _ _ => rfl

/-- Only the blobs of one index change, and perhaps its live segment. -/
theorem reindex (h : s.Follows u name) {d : InstalledDef} (hd : d ∈ s.engine.indexes) {b : Blobs}
    {live : LiveTier} (htracks : Tracks (bodySchema (d.body u))
      (s.want u d.toPersistedDef) live b) :
    Follows u name ⟨s.table, (s.engine.setBlobs d.indexId b).setSegment d.name live⟩ := by
  apply h.remap
  · intro d'
    split_ifs <;> rfl
  · exact h.primary
  · intro d' hd'
    by_cases hname : d'.name = d.name
    · obtain rfl := h.index_eq hd' hd hname
      have hblobs : (s.engine.setBlobs d'.indexId b).blobs d'.indexId = b :=
        Function.update_self ..
      rw [if_pos rfl, hblobs]
      exact htracks
    · have hblobs : (s.engine.setBlobs d.indexId b).blobs d'.indexId = s.engine.blobs d'.indexId :=
        Function.update_of_ne (h.indexId_ne hd' hd hname) ..
      rw [if_neg hname, hblobs]
      exact h.tracks d' hd'
  · intro id hid
    exact Function.update_of_ne (hid d hd).symm _ _

theorem reblob (h : s.Follows u name) {d : InstalledDef} (hd : d ∈ s.engine.indexes) {b : Blobs}
    (htracks : Tracks (bodySchema (d.body u)) (s.want u d.toPersistedDef) d.segment b) :
    Follows u name ⟨s.table, s.engine.setBlobs d.indexId b⟩ := by
  have hsame := h.reindex hd htracks
  have heq : (s.engine.setBlobs d.indexId b).setSegment d.name d.segment =
      s.engine.setBlobs d.indexId b := by
    unfold FtsEngine.setSegment FtsEngine.setBlobs
    dsimp only
    congr 1
    conv_rhs => rw [← List.map_id s.engine.indexes]
    apply List.map_congr_left
    intro d' hd'
    split_ifs with hname
    · rw [h.index_eq hd' hd hname]
      rfl
    · rfl
  rw [heq] at hsame
  exact hsame

theorem sealIndex (h : s.Follows u name) {d : InstalledDef} (hd : d ∈ s.engine.indexes)
    (outcome : SealOutcome) : Follows u name ⟨s.table, s.engine.sealIndex u d outcome⟩ := by
  have hbody := analyzerForConfig_takes u (effectiveAnalyzer d.kind d.analyzer)
  have htracks := h.tracks d hd
  cases outcome with
  | finished =>
    apply h.reindex hd
    have hplay := htracks.play hbody fun step hstep => hstep
    exact hplay.flushed (htracks.play_flushed hbody)
  | aborted after =>
    apply h.reblob hd
    exact htracks.play hbody fun step hstep => List.mem_of_mem_take hstep

theorem compactIndex (h : s.Follows u name) {d : InstalledDef} (hd : d ∈ s.engine.indexes) :
    Follows u name ⟨s.table, s.engine.compactIndex u d⟩ :=
  h.reblob hd (h.tracks d hd).compact

theorem table (h : s.Follows u name) {op : TableOp} (hcareful : s.Careful u name (.table op)) :
    (s.run u name op).Follows u name := by
  cases op with
  | create columns pkColumn =>
    unfold Site.run
    dsimp only
    split_ifs with hcreate
    · have hnone := Option.isNone_iff_eq_none.mp hcreate.1
      apply h.retable
      · rintro t ⟨⟩ d hd
        exact hcareful hnone d hd
      · intro d _ pk
        unfold Site.text
        rw [hnone]
        rfl
    · exact h
  | drop =>
    apply h.retable
    · exact fun _ ht => absurd ht nofun
    · intro d hd pk
      exact (hcareful d hd pk).symm
  | dropColumn column =>
    apply h.retable
    · intro t' ht' d hd
      obtain ⟨t, ht, rfl⟩ := Option.map_eq_some_iff.mp ht'
      rw [h.primary t ht d hd]
      cases hdrop : t.dropColumn column with
      | none => rfl
      | some t' => exact (dropColumn_pkColumn hdrop).symm
    · intro d hd pk
      unfold Site.text
      cases ht : s.table with
      | none => rfl
      | some t =>
        rw [Option.map_some, Option.bind_some, Option.bind_some]
        cases hdrop : t.dropColumn column with
        | none => rfl
        | some t' =>
          rw [Option.getD_some, text_dropColumn hdrop (hcareful d hd)]
  | commit changes =>
    unfold Site.run
    dsimp only
    cases hcommit : s.table.bind fun t => t.commit changes with
    | none => exact h
    | some t' =>
      obtain ⟨t, ht, hcommit⟩ := Option.bind_eq_some_iff.mp hcommit
      have hsite : Follows u name ⟨some t, s.engine⟩ := ht ▸ h
      exact hsite.commit hcommit (hcareful t ht)
  | createIndex column analyzer kind =>
    unfold Site.run
    dsimp only
    cases hcreate : s.table.bind fun t => s.engine.createIndex t name column analyzer kind with
    | none => exact h
    | some e =>
      obtain ⟨t, ht, hcreate⟩ := Option.bind_eq_some_iff.mp hcreate
      exact h.createIndex ht (hcareful t ht) hcreate

theorem engine (h : s.Follows u name) {op : EngineOp} (hcareful : s.Careful u name (.engine op)) :
    Follows u name ⟨s.table, s.engine.run u op⟩ := by
  cases op with
  | sealIndex index outcome =>
    unfold FtsEngine.run
    dsimp only
    cases hfind : s.engine.find index with
    | none => exact h
    | some d => exact h.sealIndex (find_some hfind).1 outcome
  | compactIndex index =>
    unfold FtsEngine.run
    dsimp only
    cases hfind : s.engine.find index with
    | none => exact h
    | some d => exact h.compactIndex (find_some hfind).1
  | reopen => exact h.reopen hcareful

theorem step (h : s.Follows u name) {ev : Event} (hcareful : s.Careful u name ev) :
    (s.step u name ev).Follows u name := by
  cases ev with
  | table op => exact h.table hcareful
  | engine op => exact h.engine hcareful

theorem play (h : s.Follows u name) {events : List Event} (hcareful : s.CarefulRun u name events) :
    (s.play u name events).Follows u name := by
  induction events generalizing s with
  | nil => exact h
  | cons ev rest ih => exact ih (h.step hcareful.1) hcareful.2

end Site.Follows

end BlueDB.Fts
