import BlueDB.Lakehouse.Compaction
import BlueDB.Lib.Changelog
import BlueDB.Lib.Sequencer

/-!
# Seals and compactions of one table

A seal and a compaction each open the metadata version that the hint names, write the
next version and then point the hint at it. Nothing keeps one from doing so between
the steps of the other. What a seal has published stays as long as a compaction puts
no version in the place of another one with other rows.
-/

namespace BlueDB.Lakehouse.Overlap

open Sql (DataType)
open Changelog (Change last replay)
open MergeOnRead (Shows Changes)

/-- The primary-key column of a mirrored table. -/
structure KeyColumn where
  dataType : DataType
  fieldId : ℕ
  rescale : Decimal → ℕ → Decimal
  isKey : IsKeyType dataType = true

/-- A value of the key column. -/
structure KeyValue (dt : DataType) where
  value : Value
  typed : HasType dt value = true
  notNull : value ≠ .null
  deriving DecidableEq

def KeyColumn.cell (col : KeyColumn) (k : KeyValue col.dataType) : Option Cell :=
  arrowCell col.rescale (arrowType (icebergType col.dataType)) k.value

theorem KeyColumn.cell_injective (col : KeyColumn) : Function.Injective col.cell := by
  intro k k' h
  have hvalue := arrowCell_inj col.isKey k.typed k'.typed k.notNull k'.notNull h
  cases k
  cases k'
  obtain rfl := hvalue
  rfl

/-- The new row of a key, which has the key in the key column; none when it is deleted. -/
structure KeyedChange (col : KeyColumn) where
  key : KeyValue col.dataType
  row : Option FileRow
  placed : ∀ r, row = some r → cellOf col.fieldId r = col.cell key

/-- An entry of the change log with its number. -/
abbrev KeyedEntry (col : KeyColumn) := ℕ × KeyedChange col

variable {col : KeyColumn}

def loggedChanges (entries : List (KeyedEntry col)) :
    List (Change (KeyValue col.dataType) FileRow) :=
  entries.map fun e => ⟨e.2.key, e.2.row⟩

/-- The last change of every key. -/
def collapse (entries : List (KeyedEntry col)) : List (KeyedChange col) :=
  entries.foldl (fun out e => out.filter (fun c => c.key ≠ e.2.key) ++ [e.2]) []

def sealedThrough (entries : List (KeyedEntry col)) : ℕ := (entries.map Prod.fst).foldl max 0

/-- The rows that are put, for the data file. -/
def upsertRows (changes : List (KeyedChange col)) : List FileRow :=
  changes.filterMap fun c => c.row

def cellsWhere (p : KeyedChange col → Bool) (changes : List (KeyedChange col)) :
    List (Option Cell) :=
  (changes.filter p).map fun c => col.cell c.key

def stagedData (changes : List (KeyedChange col)) : List (List FileRow) :=
  if upsertRows changes = [] then [] else [upsertRows changes]

def stagedDeletes (changes : List (KeyedChange col)) : List EqualityDelete :=
  let upserted := cellsWhere (fun c => c.row.isSome) changes
  let deleted := cellsWhere (fun c => c.row.isNone) changes
  (if upserted = [] then [] else [⟨col.fieldId, upserted⟩]) ++
    if deleted = [] then [] else [⟨col.fieldId, deleted⟩]

def sealVersion (v : TableVersion) (entries : List (KeyedEntry col)) : TableVersion :=
  v.commitInternal (stagedData (collapse entries)) (stagedDeletes (collapse entries))
    (sealedThrough entries) false

/-- A seal has scanned the log, opened the table, written the next metadata version, or
pointed the hint at it. -/
inductive SealTask (col : KeyColumn)
  | idle
  | scanned (entries : List (KeyedEntry col))
  | opened (entries : List (KeyedEntry col)) (base : ℕ) (v : TableVersion)
  | written (entries : List (KeyedEntry col)) (version : ℕ)
  | published (entries : List (KeyedEntry col))

inductive CompactionTask
  | idle
  | opened (base : ℕ) (v : TableVersion)
  | written (version : ℕ)

inductive CompactionKind
  | major
  | minor (bytes : ManifestFile → ℕ) (target : ℕ)

/-- The hint and the metadata files of a table, its change log, and the tasks. No step
reads the last three: the entries that have ever been committed, those that have been
collected, and those that the version in force has been made from. -/
structure SharedTable (col : KeyColumn) where
  hint : ℕ
  versions : ℕ → Option TableVersion
  log : List (KeyedEntry col)
  cdcSeq : ℕ
  seal_ : SealTask col
  compaction : CompactionTask
  committed : List (KeyedEntry col)
  collected : List (KeyedEntry col)
  shown : List (KeyedEntry col)

inductive TaskEvent (col : KeyColumn)
  | commit (c : KeyedChange col)
  | sealScan
  | sealOpen
  | sealWrite
  | sealHint
  | sealCollect
  | compactOpen
  | compactWrite (kind : CompactionKind)
  | compactHint

def compactBy (roll : Rolling) : CompactionKind → TableVersion → Option TableVersion
  | .major, v => v.compact roll
  | .minor bytes target, v => v.compactIncremental roll bytes target

namespace SharedTable

/-- A table that has just been created. -/
def created (col : KeyColumn) : SharedTable col where
  hint := 0
  versions := Function.update (fun _ => none) 0 (some .created)
  log := []
  cdcSeq := 0
  seal_ := .idle
  compaction := .idle
  committed := []
  collected := []
  shown := []

def commit (s : SharedTable col) (c : KeyedChange col) : SharedTable col :=
  { s with
    log := s.log ++ [(s.cdcSeq + 1, c)]
    cdcSeq := s.cdcSeq + 1
    committed := s.committed ++ [(s.cdcSeq + 1, c)] }

def sealScan (s : SharedTable col) : SharedTable col :=
  match s.seal_ with
  | .idle => if s.log = [] then s else { s with seal_ := .scanned s.log }
  | _ => s

def sealOpen (s : SharedTable col) : SharedTable col :=
  match s.seal_, s.versions s.hint with
  | .scanned entries, some v => { s with seal_ := .opened entries s.hint v }
  | _, _ => s

/-- The next metadata file is written, whether one stands there or not. -/
def sealWrite (s : SharedTable col) : SharedTable col :=
  match s.seal_ with
  | .opened entries base v =>
    { s with
      versions := Function.update s.versions (base + 1) (some (sealVersion v entries))
      seal_ := .written entries (base + 1)
      shown := if s.hint = base + 1 then s.collected ++ entries else s.shown }
  | _ => s

def sealHint (s : SharedTable col) : SharedTable col :=
  match s.seal_ with
  | .written entries version =>
    { s with
      hint := version
      seal_ := .published entries
      shown := s.collected ++ entries }
  | _ => s

/-- The entries up to the watermark are removed. -/
def sealCollect (s : SharedTable col) : SharedTable col :=
  match s.seal_ with
  | .published entries =>
    { s with
      log := s.log.filter fun e => sealedThrough entries < e.1
      seal_ := .idle
      collected := s.collected ++ entries }
  | _ => s

def compactOpen (s : SharedTable col) : SharedTable col :=
  match s.compaction, s.versions s.hint with
  | .idle, some v => { s with compaction := .opened s.hint v }
  | _, _ => s

def compactWrite (roll : Rolling) (s : SharedTable col) (kind : CompactionKind) :
    SharedTable col :=
  match s.compaction with
  | .opened base v =>
    match compactBy roll kind v with
    | some v' =>
      { s with
        versions := Function.update s.versions (base + 1) (some v')
        compaction := .written (base + 1) }
    | none => { s with compaction := .idle }
  | _ => s

def writtenAt (s : SharedTable col) (version : ℕ) : Option (List (KeyedEntry col)) :=
  match s.seal_ with
  | .written entries version' => if version' = version then some entries else none
  | _ => none

def compactHint (s : SharedTable col) : SharedTable col :=
  match s.compaction with
  | .written version =>
    { s with
      hint := version
      compaction := .idle
      shown := ((s.writtenAt version).map fun entries => s.collected ++ entries).getD s.shown }
  | _ => s

def step (roll : Rolling) (s : SharedTable col) : TaskEvent col → SharedTable col
  | .commit c => s.commit c
  | .sealScan => s.sealScan
  | .sealOpen => s.sealOpen
  | .sealWrite => s.sealWrite
  | .sealHint => s.sealHint
  | .sealCollect => s.sealCollect
  | .compactOpen => s.compactOpen
  | .compactWrite kind => s.compactWrite roll kind
  | .compactHint => s.compactHint

def run (roll : Rolling) (s : SharedTable col) (events : List (TaskEvent col)) : SharedTable col :=
  events.foldl (step roll) s

/-- A compaction puts no version in the place of one with other rows: when it writes the
file of the version in force, or of the one that a seal has written, the version it
has read has the same rows, and so has the version it points the hint at, unless that
is the one of the seal. -/
def Harmless (s : SharedTable col) : TaskEvent col → Prop
  | .compactWrite _ => ∀ base v w, s.compaction = .opened base v → s.versions (base + 1) = some w →
      (s.hint = base + 1 ∨ (s.writtenAt (base + 1)).isSome = true) → v.rows.Perm w.rows
  | .compactHint => ∀ version v w, s.compaction = .written version → s.versions version = some v →
      s.versions s.hint = some w → s.writtenAt version = none → v.rows.Perm w.rows
  | _ => True

def HarmlessRun (roll : Rolling) (s : SharedTable col) : List (TaskEvent col) → Prop
  | [] => True
  | ev :: events => s.Harmless ev ∧ HarmlessRun roll (s.step roll ev) events

def mirrored (entries : List (KeyedEntry col)) : KeyValue col.dataType → Option FileRow :=
  replay (fun _ => none) (loggedChanges entries)

def ShowsEntries (v : TableVersion) (entries : List (KeyedEntry col)) : Prop :=
  Shows col.cell (cellOf col.fieldId) v.rows (mirrored entries)

end SharedTable

theorem loggedChanges_append (entries entries' : List (KeyedEntry col)) :
    loggedChanges (entries ++ entries') = loggedChanges entries ++ loggedChanges entries' :=
  List.map_append

theorem collapse_concat (entries : List (KeyedEntry col)) (e : KeyedEntry col) :
    collapse (entries ++ [e]) =
      (collapse entries).filter (fun c => c.key ≠ e.2.key) ++ [e.2] := by
  unfold collapse
  rw [List.foldl_append]
  rfl

theorem mem_collapse {entries : List (KeyedEntry col)} {c : KeyedChange col}
    (hc : c ∈ collapse entries) : last (loggedChanges entries) c.key = some c.row := by
  induction entries using List.reverseRecOn with
  | nil => exact absurd hc List.not_mem_nil
  | append_singleton entries e ih =>
    rw [collapse_concat] at hc
    rw [loggedChanges_append, Changelog.last_append]
    change (last [⟨e.2.key, e.2.row⟩] c.key).or _ = _
    rw [Changelog.last_singleton]
    rcases List.mem_append.mp hc with hc | hc
    · obtain ⟨hmem, hne⟩ := List.mem_filter.mp hc
      have hne' : ¬e.2.key = c.key := fun heq => (of_decide_eq_true hne) heq.symm
      rw [if_neg hne', Option.none_or]
      exact ih hmem
    · rw [List.mem_singleton.mp hc]
      simp

theorem exists_collapse {entries : List (KeyedEntry col)} {k : KeyValue col.dataType}
    {row : Option FileRow} (h : last (loggedChanges entries) k = some row) :
    ∃ c ∈ collapse entries, c.key = k ∧ c.row = row := by
  induction entries using List.reverseRecOn with
  | nil => exact absurd h nofun
  | append_singleton entries e ih =>
    rw [loggedChanges_append, Changelog.last_append] at h
    change (last [⟨e.2.key, e.2.row⟩] k).or _ = _ at h
    rw [Changelog.last_singleton] at h
    rw [collapse_concat]
    by_cases hk : e.2.key = k
    · rw [if_pos hk, Option.some_or, Option.some.injEq] at h
      exact ⟨e.2, by simp, hk, h⟩
    · rw [if_neg hk, Option.none_or] at h
      obtain ⟨c, hc, hkey, hrow⟩ := ih h
      refine ⟨c, List.mem_append_left _ (List.mem_filter.mpr ⟨hc, ?_⟩), hkey, hrow⟩
      exact decide_eq_true fun heq => hk (heq.symm.trans hkey)

theorem collapse_keys_nodup (entries : List (KeyedEntry col)) :
    ((collapse entries).map KeyedChange.key).Nodup := by
  induction entries using List.reverseRecOn with
  | nil => exact List.nodup_nil
  | append_singleton entries e ih =>
    rw [collapse_concat, List.map_append, List.nodup_append]
    refine ⟨ih.sublist (List.filter_sublist.map _), List.nodup_singleton _, ?_⟩
    intro k hk k' hk' heq
    obtain ⟨c, hc, rfl⟩ := List.mem_map.mp hk
    obtain rfl := List.mem_singleton.mp hk'
    exact of_decide_eq_true (List.mem_filter.mp hc).2 heq

theorem mem_upsertRows {changes : List (KeyedChange col)} {row : FileRow} :
    row ∈ upsertRows changes ↔ ∃ c ∈ changes, c.row = some row :=
  List.mem_filterMap

theorem flatten_stagedData (changes : List (KeyedChange col)) :
    (stagedData changes).flatten = upsertRows changes := by
  unfold stagedData
  split_ifs with hnil
  · simp [hnil]
  · simp

theorem deletesRow_stagedDeletes (changes : List (KeyedChange col)) (row : FileRow) :
    TableVersion.deletesRow (stagedDeletes changes) row = true ↔
      ∃ c ∈ changes, cellOf col.fieldId row = col.cell c.key := by
  have hcells : ∀ p : KeyedChange col → Bool, cellOf col.fieldId row ∈ cellsWhere p changes ↔
      ∃ c ∈ changes, p c = true ∧ cellOf col.fieldId row = col.cell c.key := by
    intro p
    unfold cellsWhere
    rw [List.mem_map]
    constructor
    · rintro ⟨c, hc, hcell⟩
      obtain ⟨hmem, hp⟩ := List.mem_filter.mp hc
      exact ⟨c, hmem, hp, hcell.symm⟩
    · rintro ⟨c, hmem, hp, hcell⟩
      exact ⟨c, List.mem_filter.mpr ⟨hmem, hp⟩, hcell.symm⟩
  have hfile : ∀ cells : List (Option Cell),
      (if cells = [] then [] else [⟨col.fieldId, cells⟩] : List EqualityDelete).any
        (fun d => decide (cellOf d.fieldId row ∈ d.cells)) = true ↔
          cellOf col.fieldId row ∈ cells := by
    intro cells
    split_ifs with hnil
    · simp [hnil]
    · simp
  unfold TableVersion.deletesRow stagedDeletes
  rw [List.any_append, Bool.or_eq_true, hfile, hfile, hcells, hcells]
  constructor
  · rintro (⟨c, hc, -, hcell⟩ | ⟨c, hc, -, hcell⟩)
    · exact ⟨c, hc, hcell⟩
    · exact ⟨c, hc, hcell⟩
  · rintro ⟨c, hc, hcell⟩
    cases hrow : c.row with
    | some _ => exact Or.inl ⟨c, hc, by simp [hrow], hcell⟩
    | none => exact Or.inr ⟨c, hc, by simp [hrow], hcell⟩

theorem changes_staged (entries : List (KeyedEntry col)) :
    Changes col.cell (cellOf col.fieldId)
      ⟨upsertRows (collapse entries), TableVersion.deletesRow (stagedDeletes (collapse entries))⟩
      (last (loggedChanges entries)) := by
  constructor
  · have hkeys : ∀ changes : List (KeyedChange col), (changes.map KeyedChange.key).Nodup →
        ((upsertRows changes).map (cellOf col.fieldId)).Nodup := by
      intro changes hnodup
      induction changes with
      | nil => exact List.nodup_nil
      | cons c changes ih =>
        obtain ⟨hfresh, hrest⟩ := List.nodup_cons.mp hnodup
        cases hrow : c.row with
        | none => simpa [upsertRows, hrow] using ih hrest
        | some row =>
          have hrows : upsertRows (c :: changes) = row :: upsertRows changes := by
            simp [upsertRows, hrow]
          rw [hrows, List.map_cons, List.nodup_cons]
          refine ⟨fun hmem => ?_, ih hrest⟩
          obtain ⟨row', hrow', hcell⟩ := List.mem_map.mp hmem
          obtain ⟨c', hc', hplaced⟩ := mem_upsertRows.mp hrow'
          rw [c.placed row hrow, c'.placed row' hplaced] at hcell
          exact hfresh (List.mem_map.mpr ⟨c', hc', col.cell_injective hcell⟩)
    exact hkeys _ (collapse_keys_nodup entries)
  · intro row
    rw [mem_upsertRows]
    constructor
    · rintro ⟨c, hc, hrow⟩
      exact ⟨c.key, hrow ▸ mem_collapse hc⟩
    · rintro ⟨k, hlast⟩
      obtain ⟨c, hc, -, hrow⟩ := exists_collapse hlast
      exact ⟨c, hc, hrow⟩
  · intro k row hlast
    obtain ⟨c, -, rfl, hrow⟩ := exists_collapse hlast
    exact c.placed row hrow
  · intro row
    rw [deletesRow_stagedDeletes]
    constructor
    · rintro ⟨c, hc, hcell⟩
      exact ⟨c.key, by simp [mem_collapse hc], hcell⟩
    · rintro ⟨k, hsome, hcell⟩
      obtain ⟨image, hlast⟩ := Option.isSome_iff_exists.mp hsome
      obtain ⟨c, hc, rfl, -⟩ := exists_collapse hlast
      exact ⟨c, hc, hcell⟩

namespace SharedTable

theorem mirrored_append (entries entries' : List (KeyedEntry col)) :
    mirrored (entries ++ entries') =
      fun k => (last (loggedChanges entries') k).getD (mirrored entries k) := by
  funext k
  unfold mirrored
  rw [loggedChanges_append, Changelog.replay_append, Changelog.replay_apply]

theorem ShowsEntries.sealVersion {v : TableVersion} {shown entries : List (KeyedEntry col)}
    (h : ShowsEntries v shown) (hv : v.Numbered) :
    ShowsEntries (sealVersion v entries) (shown ++ entries) := by
  unfold ShowsEntries
  rw [mirrored_append]
  have hrows : (Overlap.sealVersion v entries).rows = _ := TableVersion.rows_commitInternal hv
  rw [hrows, flatten_stagedData]
  exact Shows.over h (changes_staged entries) (D := Set.univ) (col.cell_injective.injOn)
    (fun _ _ => Set.mem_univ _) fun _ _ => Set.mem_univ _

theorem ShowsEntries.perm {v v' : TableVersion} {shown : List (KeyedEntry col)}
    (h : ShowsEntries v shown) (hperm : v.rows.Perm v'.rows) : ShowsEntries v' shown :=
  Shows.perm h hperm

/-- The version a seal stands at. -/
def SealOk (s : SharedTable col) : Prop :=
  match s.seal_ with
  | .idle => s.shown = s.collected
  | .scanned entries => entries <+: s.log ∧ s.shown = s.collected
  | .opened entries _ v => entries <+: s.log ∧ s.shown = s.collected ∧ v.Numbered ∧
      ShowsEntries v s.shown
  | .written entries version => entries <+: s.log ∧
      (s.shown = s.collected ∨ s.shown = s.collected ++ entries) ∧
      ∃ v, s.versions version = some v ∧ ShowsEntries v (s.collected ++ entries)
  | .published entries => entries <+: s.log ∧ s.shown = s.collected ++ entries

def CompactionOk (s : SharedTable col) : Prop :=
  match s.compaction with
  | .idle => True
  | .opened _ v => v.Numbered
  | .written version => ∃ v, s.versions version = some v

/-- The version in force shows the entries in `shown`. -/
structure Sound (s : SharedTable col) : Prop where
  current : ∃ v, s.versions s.hint = some v ∧ ShowsEntries v s.shown
  numbered : ∀ n v, s.versions n = some v → v.Numbered
  ascending : s.log.Pairwise fun e e' => e.1 < e'.1
  counted : ∀ e ∈ s.log, 0 < e.1 ∧ e.1 ≤ s.cdcSeq
  complete : s.collected ++ s.log = s.committed
  sealing : s.SealOk
  compacting : s.CompactionOk

theorem sound_created (col : KeyColumn) : (created col).Sound where
  current := ⟨.created, by simp [created], Shows.nil⟩
  numbered := by
    intro n v hv
    unfold created at hv
    dsimp only at hv
    by_cases hn : n = 0
    · subst n
      rw [Function.update_self, Option.some.injEq] at hv
      rw [← hv]
      exact fun m hm => absurd hm List.not_mem_nil
    · rw [Function.update_of_ne hn] at hv
      exact absurd hv nofun
  ascending := List.Pairwise.nil
  counted := fun e he => absurd he List.not_mem_nil
  complete := rfl
  sealing := rfl
  compacting := trivial

variable {s : SharedTable col}

theorem Sound.commit (h : s.Sound) (c : KeyedChange col) : (s.commit c).Sound where
  __ := h
  ascending := by
    apply List.pairwise_append.mpr
    refine ⟨h.ascending, List.pairwise_singleton _ _, fun e he e' he' => ?_⟩
    rw [List.mem_singleton.mp he']
    exact Nat.lt_succ_of_le (h.counted e he).2
  counted := by
    intro e he
    rcases List.mem_append.mp he with he | he
    · exact ⟨(h.counted e he).1, (h.counted e he).2.trans (Nat.le_succ _)⟩
    · rw [List.mem_singleton.mp he]
      exact ⟨Nat.succ_pos _, le_rfl⟩
  complete := by
    unfold SharedTable.commit
    dsimp only
    rw [← List.append_assoc, h.complete]
  sealing := by
    have hsealing := h.sealing
    unfold SealOk SharedTable.commit at *
    dsimp only at *
    have hbegins : ∀ entries : List (KeyedEntry col), entries <+: s.log →
        entries <+: s.log ++ [(s.cdcSeq + 1, c)] := fun entries hentries =>
      hentries.trans (List.prefix_append _ _)
    split
    · next heq => rwa [heq] at hsealing
    · next heq =>
      rw [heq] at hsealing
      exact ⟨hbegins _ hsealing.1, hsealing.2⟩
    · next heq =>
      rw [heq] at hsealing
      exact ⟨hbegins _ hsealing.1, hsealing.2⟩
    · next heq =>
      rw [heq] at hsealing
      exact ⟨hbegins _ hsealing.1, hsealing.2⟩
    · next heq =>
      rw [heq] at hsealing
      exact ⟨hbegins _ hsealing.1, hsealing.2⟩

theorem Sound.sealScan (h : s.Sound) : s.sealScan.Sound := by
  unfold SharedTable.sealScan
  cases hseal : s.seal_ with
  | idle =>
    dsimp only
    split_ifs
    · exact h
    · have hshown : s.shown = s.collected := by
        have hsealing := h.sealing
        unfold SealOk at hsealing
        rwa [hseal] at hsealing
      exact { h with sealing := ⟨List.prefix_rfl, hshown⟩ }
  | _ => exact h

theorem Sound.sealOpen (h : s.Sound) : s.sealOpen.Sound := by
  obtain ⟨v, hv, hshows⟩ := h.current
  unfold SharedTable.sealOpen
  rw [hv]
  cases hseal : s.seal_ with
  | scanned entries =>
    have hsealing := h.sealing
    unfold SealOk at hsealing
    rw [hseal] at hsealing
    refine { h with current := ⟨v, hv, hshows⟩, sealing := ?_ }
    exact ⟨hsealing.1, hsealing.2, h.numbered _ v hv, hshows⟩
  | _ => exact h

theorem numbered_update (h : s.Sound) {n : ℕ} {v : TableVersion} (hv : v.Numbered) :
    ∀ n' v', Function.update s.versions n (some v) n' = some v' → v'.Numbered := by
  intro n' v' hv'
  by_cases hn : n' = n
  · subst n'
    rw [Function.update_self, Option.some.injEq] at hv'
    exact hv' ▸ hv
  · rw [Function.update_of_ne hn] at hv'
    exact h.numbered n' v' hv'

theorem compactionOk_update (h : s.Sound) (n : ℕ) (v : TableVersion) (seal_ : SealTask col)
    (shown : List (KeyedEntry col)) :
    CompactionOk { s with
      versions := Function.update s.versions n (some v), seal_ := seal_, shown := shown } := by
  have hcompacting := h.compacting
  unfold CompactionOk at *
  dsimp only
  cases hphase : s.compaction with
  | idle => trivial
  | opened base w =>
    rw [hphase] at hcompacting
    exact hcompacting
  | written version =>
    rw [hphase] at hcompacting
    by_cases hn : version = n
    · exact ⟨v, by rw [hn, Function.update_self]⟩
    · obtain ⟨w, hw⟩ := hcompacting
      exact ⟨w, by rw [Function.update_of_ne hn, hw]⟩

theorem Sound.sealWrite (h : s.Sound) : s.sealWrite.Sound := by
  unfold SharedTable.sealWrite
  cases hseal : s.seal_ with
  | opened entries base v =>
    have hsealing := h.sealing
    unfold SealOk at hsealing
    rw [hseal] at hsealing
    obtain ⟨hbegins, hshown, hnumbered, hshows⟩ := hsealing
    have hsealed : ShowsEntries (sealVersion v entries) (s.collected ++ entries) :=
      hshown ▸ hshows.sealVersion hnumbered
    dsimp only
    constructor
    · dsimp only
      by_cases hhint : s.hint = base + 1
      · rw [if_pos hhint, hhint, Function.update_self]
        exact ⟨_, rfl, hsealed⟩
      · rw [if_neg hhint, Function.update_of_ne hhint]
        exact h.current
    · exact numbered_update h (TableVersion.numbered_commitInternal hnumbered false)
    · exact h.ascending
    · exact h.counted
    · exact h.complete
    · refine ⟨hbegins, ?_, _, Function.update_self .., hsealed⟩
      split_ifs
      · exact Or.inr rfl
      · exact Or.inl hshown
    · exact compactionOk_update h ..
  | _ => exact h

theorem Sound.sealHint (h : s.Sound) : s.sealHint.Sound := by
  unfold SharedTable.sealHint
  cases hseal : s.seal_ with
  | written entries version =>
    have hsealing := h.sealing
    unfold SealOk at hsealing
    rw [hseal] at hsealing
    obtain ⟨hbegins, -, v, hv, hshows⟩ := hsealing
    exact { h with current := ⟨v, hv, hshows⟩, sealing := ⟨hbegins, rfl⟩ }
  | _ => exact h

theorem foldl_max_lt {l : List ℕ} {a x : ℕ} (ha : a < x) (h : ∀ b ∈ l, b < x) :
    l.foldl max a < x := by
  induction l generalizing a with
  | nil => exact ha
  | cons b l ih =>
    exact ih (max_lt ha (h b List.mem_cons_self)) fun c hc => h c (List.mem_cons_of_mem b hc)

/-- The entries up to the watermark of the first ones are these. -/
theorem filter_sealedThrough {entries rest : List (KeyedEntry col)}
    (h : (entries ++ rest).Pairwise fun e e' => e.1 < e'.1) (hpos : ∀ e ∈ rest, 0 < e.1) :
    (entries ++ rest).filter (fun e => decide (sealedThrough entries < e.1)) = rest := by
  obtain ⟨-, -, hlt⟩ := List.pairwise_append.mp h
  rw [List.filter_append]
  have hold : entries.filter (fun e => decide (sealedThrough entries < e.1)) = [] := by
    apply List.filter_eq_nil_iff.mpr
    intro e he
    have hle : e.1 ≤ sealedThrough entries := Sequencer.le_foldl_max (List.mem_map_of_mem he)
    simpa using hle
  have hnew : rest.filter (fun e => decide (sealedThrough entries < e.1)) = rest := by
    apply List.filter_eq_self.mpr
    intro e he
    apply decide_eq_true
    apply foldl_max_lt (hpos e he)
    intro n hn
    obtain ⟨e', he', rfl⟩ := List.mem_map.mp hn
    exact hlt e' he' e he
  rw [hold, hnew, List.nil_append]

theorem Sound.sealCollect (h : s.Sound) : s.sealCollect.Sound := by
  unfold SharedTable.sealCollect
  cases hseal : s.seal_ with
  | published entries =>
    have hsealing := h.sealing
    unfold SealOk at hsealing
    rw [hseal] at hsealing
    obtain ⟨⟨rest, hlog⟩, hshown⟩ := hsealing
    have hrest : s.log.filter (fun e => decide (sealedThrough entries < e.1)) = rest := by
      have hascending := h.ascending
      rw [← hlog] at hascending ⊢
      exact filter_sealedThrough hascending fun e he =>
        (h.counted e (hlog ▸ List.mem_append_right entries he)).1
    refine ⟨h.current, h.numbered, h.ascending.filter _, ?_, ?_, hshown, h.compacting⟩
    · exact fun e he => h.counted e (List.mem_of_mem_filter he)
    · dsimp only
      rw [hrest, List.append_assoc, hlog]
      exact h.complete
  | _ => exact h

theorem Sound.compactOpen (h : s.Sound) : s.compactOpen.Sound := by
  obtain ⟨v, hv, hshows⟩ := h.current
  unfold SharedTable.compactOpen
  rw [hv]
  cases hphase : s.compaction with
  | idle =>
    refine { h with current := ⟨v, hv, hshows⟩, compacting := ?_ }
    exact h.numbered _ v hv
  | _ => exact h

theorem compactBy_rows {roll : Rolling} {kind : CompactionKind} {v v' : TableVersion}
    (hv : v.Numbered) (h : compactBy roll kind v = some v') :
    v'.rows.Perm v.rows ∧ v'.Numbered := by
  cases kind with
  | major => exact TableVersion.compact_rows h
  | minor bytes target => exact TableVersion.compactIncremental_rows hv h

theorem writtenAt_eq {version : ℕ} {entries : List (KeyedEntry col)} :
    s.writtenAt version = some entries ↔ s.seal_ = .written entries version := by
  unfold writtenAt
  cases s.seal_ with
  | written entries' version' =>
    by_cases hversion : version' = version
    · subst version'
      simp
    · simp [hversion]
  | _ => simp

theorem Sound.compactWrite (h : s.Sound) (roll : Rolling) {kind : CompactionKind}
    (hharmless : s.Harmless (.compactWrite kind)) : (s.compactWrite roll kind).Sound := by
  unfold SharedTable.compactWrite
  cases hphase : s.compaction with
  | opened base v =>
    have hnumbered : v.Numbered := by
      have hcompacting := h.compacting
      unfold CompactionOk at hcompacting
      rwa [hphase] at hcompacting
    dsimp only
    cases hcompact : compactBy roll kind v with
    | none => exact { h with compacting := trivial }
    | some v' =>
      obtain ⟨hrows, hnumbered'⟩ := compactBy_rows hnumbered hcompact
      -- what is shown under the version before is shown after
      have hkept : ∀ (w : TableVersion) (entries : List (KeyedEntry col)), s.versions (base + 1) =
          some w →
          (s.hint = base + 1 ∨ (s.writtenAt (base + 1)).isSome = true) →
            ShowsEntries w entries → ShowsEntries v' entries := by
        intro w entries hw hused hshows
        exact hshows.perm ((hharmless base v w hphase hw hused).symm.trans hrows.symm)
      constructor
      · dsimp only
        by_cases hhint : s.hint = base + 1
        · obtain ⟨w, hw, hshows⟩ := h.current
          rw [hhint, Function.update_self]
          exact ⟨v', rfl, hkept w _ (hhint ▸ hw) (Or.inl hhint) hshows⟩
        · rw [Function.update_of_ne hhint]
          exact h.current
      · exact numbered_update h hnumbered'
      · exact h.ascending
      · exact h.counted
      · exact h.complete
      · have hsealing := h.sealing
        unfold SealOk at hsealing ⊢
        dsimp only
        cases hseal : s.seal_ with
        | written entries version =>
          rw [hseal] at hsealing
          obtain ⟨hbegins, hshown, w, hw, hshows⟩ := hsealing
          refine ⟨hbegins, hshown, ?_⟩
          by_cases hversion : version = base + 1
          · subst version
            refine ⟨v', Function.update_self .., hkept w _ hw (Or.inr ?_) hshows⟩
            rw [writtenAt_eq.mpr hseal]
            rfl
          · exact ⟨w, by rw [Function.update_of_ne hversion, hw], hshows⟩
        | _ =>
          rw [hseal] at hsealing
          exact hsealing
      · exact ⟨v', Function.update_self ..⟩
  | _ => exact h

theorem Sound.compactHint (h : s.Sound) (hharmless : s.Harmless .compactHint) :
    s.compactHint.Sound := by
  unfold SharedTable.compactHint
  cases hphase : s.compaction with
  | written version =>
    obtain ⟨v, hv⟩ : ∃ v, s.versions version = some v := by
      have hcompacting := h.compacting
      unfold CompactionOk at hcompacting
      rwa [hphase] at hcompacting
    dsimp only
    cases hwritten : s.writtenAt version with
    | none =>
      obtain ⟨w, hw, hshows⟩ := h.current
      have hrows := hharmless version v w hphase hv hw hwritten
      exact { h with current := ⟨v, hv, hshows.perm hrows.symm⟩, compacting := trivial }
    | some entries =>
      have hseal := writtenAt_eq.mp hwritten
      have hsealing := h.sealing
      unfold SealOk at hsealing
      rw [hseal] at hsealing
      obtain ⟨hbegins, -, w, hw, hshows⟩ := hsealing
      obtain rfl : w = v := Option.some.inj (hw.symm.trans hv)
      refine { h with current := ⟨w, hv, hshows⟩, sealing := ?_, compacting := trivial }
      unfold SealOk
      dsimp only
      rw [hseal]
      exact ⟨hbegins, Or.inr rfl, w, hw, hshows⟩
  | _ => exact h

theorem Sound.step (h : s.Sound) (roll : Rolling) {ev : TaskEvent col} (hharmless : s.Harmless ev) :
    (s.step roll ev).Sound := by
  cases ev with
  | commit c => exact h.commit c
  | sealScan => exact h.sealScan
  | sealOpen => exact h.sealOpen
  | sealWrite => exact h.sealWrite
  | sealHint => exact h.sealHint
  | sealCollect => exact h.sealCollect
  | compactOpen => exact h.compactOpen
  | compactWrite kind => exact h.compactWrite roll hharmless
  | compactHint => exact h.compactHint hharmless

theorem Sound.run (h : s.Sound) (roll : Rolling) {events : List (TaskEvent col)}
    (hharmless : s.HarmlessRun roll events) : (s.run roll events).Sound := by
  induction events generalizing s with
  | nil => exact h
  | cons ev events ih => exact ih (h.step roll hharmless.1) hharmless.2

/-- What the version in force has been made from: all that is collected, and nothing
that was not committed. -/
theorem Sound.shown_between (h : s.Sound) :
    s.collected <+: s.shown ∧ s.shown <+: s.collected ++ s.log := by
  have hsealing := h.sealing
  unfold SealOk at hsealing
  have hown : s.shown = s.collected →
      s.collected <+: s.shown ∧ s.shown <+: s.collected ++ s.log := by
    intro hshown
    rw [hshown]
    exact ⟨List.prefix_rfl, List.prefix_append _ _⟩
  have hmore : ∀ entries, entries <+: s.log → s.shown = s.collected ++ entries →
      s.collected <+: s.shown ∧ s.shown <+: s.collected ++ s.log := by
    intro entries hbegins hshown
    rw [hshown]
    exact ⟨List.prefix_append _ _, (List.prefix_append_right_inj _).mpr hbegins⟩
  cases hseal : s.seal_ with
  | idle =>
    rw [hseal] at hsealing
    exact hown hsealing
  | scanned entries =>
    rw [hseal] at hsealing
    exact hown hsealing.2
  | opened entries base v =>
    rw [hseal] at hsealing
    exact hown hsealing.2.1
  | written entries version =>
    rw [hseal] at hsealing
    obtain ⟨hbegins, hshown | hshown, -⟩ := hsealing
    · exact hown hshown
    · exact hmore entries hbegins hshown
  | published entries =>
    rw [hseal] at hsealing
    exact hmore entries hsealing.1 hsealing.2

/-- Whatever the order of the steps, when no compaction puts a version in the place of
one with other rows, the version in force shows what the seals have collected, with
no more than entries that a seal is about to collect; a committed entry is collected
or still in the log. Between the seals it shows just what they have collected. -/
theorem seals_kept (roll : Rolling) (events : List (TaskEvent col))
    (h : (created col).HarmlessRun roll events) :
    (∃ v, ((created col).run roll events).versions ((created col).run roll events).hint = some v ∧
      ShowsEntries v ((created col).run roll events).shown) ∧
    ((created col).run roll events).collected <+: ((created col).run roll events).shown ∧
    ((created col).run roll events).shown <+: ((created col).run roll events).committed ∧
    ((created col).run roll events).collected ++ ((created col).run roll events).log =
      ((created col).run roll events).committed ∧
    (((created col).run roll events).seal_ = .idle →
      ((created col).run roll events).shown = ((created col).run roll events).collected) := by
  have hsound := (sound_created col).run roll h
  obtain ⟨hcollected, hlogged⟩ := hsound.shown_between
  refine ⟨hsound.current, hcollected, hsound.complete ▸ hlogged, hsound.complete, fun hidle => ?_⟩
  have hsealing := hsound.sealing
  unfold SealOk at hsealing
  rwa [hidle] at hsealing

end SharedTable

namespace Example

def column : KeyColumn := ⟨.int, 1, fun d _ => d, rfl⟩

def key : KeyValue column.dataType := ⟨.i64 5, by decide, by decide⟩

def row : FileRow := [(1, some (.int 5)), (2, some (.int 7))]

def insert : KeyedChange column :=
  ⟨key, some row, by
    intro r hr
    obtain rfl := Option.some.inj hr
    decide⟩

def delete : KeyedChange column := ⟨key, none, nofun⟩

def roll : Rolling := ⟨fun rows => [rows], fun rows => by simp⟩

def seal_ : List (TaskEvent column) := [.sealScan, .sealOpen, .sealWrite, .sealHint, .sealCollect]

def compaction : List (TaskEvent column) := [.compactOpen, .compactWrite .major, .compactHint]

/-- A compaction between two seals. -/
def apart : List (TaskEvent column) :=
  .commit insert :: seal_ ++ compaction ++ .commit delete :: seal_

/-- A seal between the steps of a compaction. -/
def overlapping : List (TaskEvent column) :=
  .commit insert :: seal_ ++ .compactOpen :: .commit delete :: seal_ ++
    [.compactWrite .major, .compactHint]

theorem apart_harmless : (SharedTable.created column).HarmlessRun roll apart := by
  refine ⟨trivial, trivial, trivial, trivial, trivial, trivial, trivial, ?_, ?_, trivial, trivial,
    trivial, trivial, trivial, trivial, trivial⟩
  · intro base v w hopened hnext
    cases hopened
    cases hnext
  · intro version v w hwritten hversion hforce _
    cases hwritten
    cases hversion
    cases hforce
    decide

/-- The row is gone after the seals, with a compaction between them. -/
theorem apart_kept : (∃ v,
    ((SharedTable.created column).run roll apart).versions
      ((SharedTable.created column).run roll apart).hint = some v ∧
    SharedTable.ShowsEntries v ((SharedTable.created column).run roll apart).shown) ∧
    ((SharedTable.created column).run roll apart).collected = [(1, insert), (2, delete)] := by
  have h := SharedTable.seals_kept roll apart apart_harmless
  exact ⟨h.1, rfl⟩

/-- A row that a collected entry has deleted is back after a compaction that read the
table before. -/
theorem overlapping_not_kept :
    ¬∀ events : List (TaskEvent column),
      ((SharedTable.created column).run roll events).seal_ = .idle →
      ((SharedTable.created column).run roll events).compaction = .idle → ∃ v,
        ((SharedTable.created column).run roll events).versions
          ((SharedTable.created column).run roll events).hint = some v ∧
        SharedTable.ShowsEntries v ((SharedTable.created column).run roll events).collected := by
  intro hkept
  obtain ⟨v, hv, hshows⟩ := hkept overlapping rfl rfl
  have hrows : row ∈ v.rows := by
    cases hv
    decide +kernel
  obtain ⟨k, hk⟩ := (hshows.mem row).mp hrows
  obtain rfl : key = k := column.cell_injective (hshows.keyed k row hk)
  have hgone : SharedTable.mirrored ((SharedTable.created column).run roll overlapping).collected
      key = none := by
    decide +kernel
  exact absurd (hgone.symm.trans hk) nofun

end Example

end BlueDB.Lakehouse.Overlap
