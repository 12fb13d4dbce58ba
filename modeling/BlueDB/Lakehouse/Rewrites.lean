import BlueDB.Lakehouse.Overlap
import BlueDB.Lakehouse.Publish

/-!
# Compactions among the snapshots of a table

The writer stages upserts and deletes and commits them as a snapshot. A compaction at any
point of a run leaves the rows as they were, and so does it for what later snapshots
leave. The writer takes a key twice; a seal gives it every key once.
-/

namespace BlueDB.Lakehouse.Rewrites

open Sql (DataRow Engine)
open Overlap (CompactionKind compactBy KeyColumn KeyedChange KeyedEntry collapse upsertRows
  cellsWhere stagedData stagedDeletes sealVersion sealedThrough)

/-- One call before a commit: rows to put under their keys, or keys to delete. -/
inductive Staging
  | upsert (rows : List (Option Cell × FileRow))
  | delete (keys : List (Option Cell))
  deriving DecidableEq

/-- The files that are staged. -/
structure Pending where
  data : List (List FileRow)
  deletes : List EqualityDelete
  deriving DecidableEq

def Pending.none : Pending := ⟨[], []⟩

def stageDeletes (pk : ℕ) (p : Pending) (keys : List (Option Cell)) : Pending :=
  if keys = [] then p else { p with deletes := p.deletes ++ [⟨pk, keys⟩] }

/-- The rows go to a data file, and their keys to a delete file. -/
def stage (pk : ℕ) (p : Pending) : Staging → Pending
  | .upsert rows =>
    if rows = [] then p
    else stageDeletes pk { p with data := p.data ++ [rows.map Prod.snd] } (rows.map Prod.fst)
  | .delete keys => stageDeletes pk p keys

/-- What is staged becomes a snapshot; nothing staged, none. -/
def commitSnapshot (v : TableVersion) (p : Pending) (watermark : ℕ) : TableVersion :=
  if p.data = [] ∧ p.deletes = [] then v else v.commitInternal p.data p.deletes watermark false

def Staging.puts : Staging → List (Option Cell × FileRow)
  | .upsert rows => rows
  | .delete _ => []

/-- The keys that a call retires. -/
def Staging.keys : Staging → List (Option Cell)
  | .upsert rows => rows.map Prod.fst
  | .delete keys => keys

/-- The calls put every row under its own key, and one row for each key. -/
def Keyed (pk : ℕ) (calls : List Staging) : Prop :=
  (∀ p ∈ calls.flatMap Staging.puts, cellOf pk p.2 = p.1) ∧
    ((calls.flatMap Staging.puts).map Prod.fst).Nodup

instance (pk : ℕ) (calls : List Staging) : Decidable (Keyed pk calls) :=
  inferInstanceAs (Decidable (_ ∧ _))

inductive TableStep
  | snapshot (calls : List Staging) (watermark : ℕ)
  | compaction (roll : Rolling) (kind : CompactionKind)

def TableStep.Keyed (pk : ℕ) : TableStep → Prop
  | .snapshot calls _ => Rewrites.Keyed pk calls
  | .compaction _ _ => True

def step (pk : ℕ) (v : TableVersion) : TableStep → TableVersion
  | .snapshot calls watermark => commitSnapshot v (calls.foldl (stage pk) .none) watermark
  | .compaction roll kind => (compactBy roll kind v).getD v

def run (pk : ℕ) (v : TableVersion) (steps : List TableStep) : TableVersion :=
  steps.foldl (step pk) v

/-- The row of a key. -/
def rowAt (pk : ℕ) (v : TableVersion) (key : Option Cell) : Option FileRow :=
  v.rows.find? fun row => decide (cellOf pk row = key)

/-- No key has two rows. -/
def Unique (pk : ℕ) (v : TableVersion) : Prop := (v.rows.map (cellOf pk)).Nodup

variable {pk : ℕ}

theorem stageDeletes_data (p : Pending) (keys : List (Option Cell)) :
    (stageDeletes pk p keys).data = p.data := by
  unfold stageDeletes
  split_ifs
  · rfl
  · rfl

theorem deletesRow_stageDeletes (p : Pending) (keys : List (Option Cell)) (row : FileRow) :
    TableVersion.deletesRow (stageDeletes pk p keys).deletes row = true ↔
      TableVersion.deletesRow p.deletes row = true ∨ cellOf pk row ∈ keys := by
  unfold stageDeletes TableVersion.deletesRow
  split_ifs with hnil
  · simp [hnil]
  · simp

theorem stage_spec (p : Pending) (call : Staging) :
    (stage pk p call).data.flatten = p.data.flatten ++ call.puts.map Prod.snd ∧
      ∀ row, TableVersion.deletesRow (stage pk p call).deletes row = true ↔
        TableVersion.deletesRow p.deletes row = true ∨ cellOf pk row ∈ call.keys := by
  cases call with
  | delete keys =>
    constructor
    · change (stageDeletes pk p keys).data.flatten = p.data.flatten ++ []
      rw [stageDeletes_data, List.append_nil]
    · exact deletesRow_stageDeletes p keys
  | upsert rows =>
    unfold stage Staging.puts Staging.keys
    dsimp only
    split_ifs with hnil
    · subst hnil
      simp
    · constructor
      · rw [stageDeletes_data, List.flatten_append, List.flatten_singleton]
      · exact deletesRow_stageDeletes _ _

theorem staged_spec (calls : List Staging) (p : Pending) :
    (calls.foldl (stage pk) p).data.flatten =
        p.data.flatten ++ (calls.flatMap Staging.puts).map Prod.snd ∧
      ∀ row, TableVersion.deletesRow (calls.foldl (stage pk) p).deletes row = true ↔
        TableVersion.deletesRow p.deletes row = true ∨
          ∃ call ∈ calls, cellOf pk row ∈ call.keys := by
  induction calls generalizing p with
  | nil => simp
  | cons call calls ih =>
    obtain ⟨hdata, hdeletes⟩ := ih (stage pk p call)
    obtain ⟨hdata', hdeletes'⟩ := @stage_spec pk p call
    constructor
    · rw [List.foldl_cons, hdata, hdata', List.flatMap_cons, List.map_append, List.append_assoc]
    · intro row
      rw [List.foldl_cons, hdeletes, hdeletes', List.exists_mem_cons_iff, or_assoc]

theorem keys_of_puts {calls : List Staging} {put : Option Cell × FileRow}
    (h : put ∈ calls.flatMap Staging.puts) : ∃ call ∈ calls, put.1 ∈ call.keys := by
  obtain ⟨call, hcall, hput⟩ := List.mem_flatMap.mp h
  refine ⟨call, hcall, ?_⟩
  cases call with
  | upsert rows => exact List.mem_map_of_mem hput
  | delete keys => exact absurd hput List.not_mem_nil

theorem commitSnapshot_rows {v : TableVersion} (hv : v.Numbered) (p : Pending) (watermark : ℕ) :
    (commitSnapshot v p watermark).rows =
        v.rows.filter (fun row => !TableVersion.deletesRow p.deletes row) ++ p.data.flatten ∧
      (commitSnapshot v p watermark).Numbered := by
  unfold commitSnapshot
  split_ifs with hnone
  · obtain ⟨hdata, hdeletes⟩ := hnone
    rw [hdata, hdeletes]
    simp [TableVersion.deletesRow, hv]
  · exact ⟨TableVersion.rows_commitInternal hv, TableVersion.numbered_commitInternal hv false⟩

theorem compaction_rows {v : TableVersion} (hv : v.Numbered) (roll : Rolling)
    (kind : CompactionKind) :
    ((compactBy roll kind v).getD v).rows.Perm v.rows ∧
      ((compactBy roll kind v).getD v).Numbered := by
  cases hcompact : compactBy roll kind v with
  | none => exact ⟨List.Perm.refl _, hv⟩
  | some v' => exact Overlap.SharedTable.compactBy_rows hv hcompact

theorem Unique.perm {v v' : TableVersion} (h : Unique pk v) (hperm : v'.rows.Perm v.rows) :
    Unique pk v' :=
  (hperm.map (cellOf pk)).nodup_iff.mpr h

/-- The cells of the new rows are the keys that they are put under. -/
theorem Keyed.cells {calls : List Staging} (h : Keyed pk calls) :
    ((calls.flatMap Staging.puts).map Prod.snd).map (cellOf pk) =
      (calls.flatMap Staging.puts).map Prod.fst := by
  rw [List.map_map]
  exact List.map_congr_left h.1

theorem Unique.snapshot {v : TableVersion} (h : Unique pk v) (hv : v.Numbered)
    {calls : List Staging} (hcalls : Keyed pk calls) (watermark : ℕ) :
    Unique pk (step pk v (.snapshot calls watermark)) := by
  unfold Unique
  change ((commitSnapshot v _ watermark).rows.map _).Nodup
  obtain ⟨hdata, hdeletes⟩ := @staged_spec pk calls .none
  rw [(commitSnapshot_rows hv _ watermark).1, hdata, List.map_append, List.nodup_append]
  change _ ∧ (([] ++ (calls.flatMap Staging.puts).map Prod.snd).map (cellOf pk)).Nodup ∧
    ∀ key ∈ _, ∀ key' ∈ ([] ++ (calls.flatMap Staging.puts).map Prod.snd).map (cellOf pk), _
  rw [List.nil_append, hcalls.cells]
  refine ⟨h.sublist (List.filter_sublist.map _), hcalls.2, ?_⟩
  intro key hkey key' hkey' heq
  obtain ⟨row, hrow, rfl⟩ := List.mem_map.mp hkey
  obtain ⟨put, hput, rfl⟩ := List.mem_map.mp hkey'
  -- a row with the key of a new one has been retired
  have hretired := (hdeletes row).mpr (.inr (heq ▸ keys_of_puts hput))
  exact absurd (List.mem_filter.mp hrow).2 (by simp [hretired])

/-- One table shows the rows of the other, each in its own order. -/
structure Alike (v v' : TableVersion) : Prop where
  numbered : v.Numbered
  numbered' : v'.Numbered
  rows : v'.rows.Perm v.rows

theorem Alike.step {v v' : TableVersion} (h : Alike v v') (st : TableStep) :
    Alike (step pk v st) (step pk v' st) := by
  cases st with
  | snapshot calls watermark =>
    obtain ⟨hrows, hnumbered⟩ := commitSnapshot_rows h.numbered
      (calls.foldl (stage pk) .none) watermark
    obtain ⟨hrows', hnumbered'⟩ := commitSnapshot_rows h.numbered'
      (calls.foldl (stage pk) .none) watermark
    refine ⟨hnumbered, hnumbered', ?_⟩
    change (commitSnapshot v' _ watermark).rows.Perm (commitSnapshot v _ watermark).rows
    rw [hrows, hrows']
    exact (h.rows.filter _).append_right _
  | compaction roll kind =>
    obtain ⟨hrows, hnumbered⟩ := compaction_rows h.numbered roll kind
    obtain ⟨hrows', hnumbered'⟩ := compaction_rows h.numbered' roll kind
    exact ⟨hnumbered, hnumbered', hrows'.trans (h.rows.trans hrows.symm)⟩

theorem Alike.run {v v' : TableVersion} (h : Alike v v') (steps : List TableStep) :
    Alike (run pk v steps) (run pk v' steps) := by
  induction steps generalizing v v' with
  | nil => exact h
  | cons st steps ih => exact ih (h.step st)

theorem numbered_step {v : TableVersion} (hv : v.Numbered) (st : TableStep) :
    (step pk v st).Numbered := by
  cases st with
  | snapshot calls watermark => exact (commitSnapshot_rows hv _ watermark).2
  | compaction roll kind => exact (compaction_rows hv roll kind).2

theorem numbered_run {v : TableVersion} (hv : v.Numbered) (steps : List TableStep) :
    (run pk v steps).Numbered := by
  induction steps generalizing v with
  | nil => exact hv
  | cons st steps ih => exact ih (numbered_step hv st)

theorem Unique.step {v : TableVersion} (h : Unique pk v) (hv : v.Numbered) {st : TableStep}
    (hst : st.Keyed pk) : Unique pk (step pk v st) := by
  cases st with
  | snapshot calls watermark => exact h.snapshot hv hst watermark
  | compaction roll kind => exact h.perm (compaction_rows hv roll kind).1

theorem Unique.run {v : TableVersion} (h : Unique pk v) (hv : v.Numbered) {steps : List TableStep}
    (hsteps : ∀ st ∈ steps, st.Keyed pk) : Unique pk (run pk v steps) := by
  induction steps generalizing v with
  | nil => exact h
  | cons st steps ih =>
    obtain ⟨hst, hrest⟩ := List.forall_mem_cons.mp hsteps
    exact ih (h.step hv hst) (numbered_step hv st) hrest

theorem unique_created (pk : ℕ) : Unique pk .created := List.nodup_nil

theorem numbered_created : TableVersion.created.Numbered := by
  intro m hm
  exact absurd hm List.not_mem_nil

theorem rowAt_eq_some_iff {v : TableVersion} (h : Unique pk v) {key : Option Cell} {row : FileRow} :
    rowAt pk v key = some row ↔ row ∈ v.rows ∧ cellOf pk row = key := by
  unfold rowAt
  constructor
  · intro hfind
    exact ⟨List.mem_of_find?_eq_some hfind, by simpa using List.find?_some hfind⟩
  · rintro ⟨hrow, rfl⟩
    cases hfind : v.rows.find? fun r => decide (cellOf pk r = cellOf pk row) with
    | none =>
      have hno := List.find?_eq_none.mp hfind row hrow
      exact absurd rfl (of_decide_eq_false (Bool.eq_false_iff.mpr hno))
    | some r =>
      have hcell : cellOf pk r = cellOf pk row := by simpa using List.find?_some hfind
      rw [List.inj_on_of_nodup_map h (List.mem_of_find?_eq_some hfind) hrow hcell]

theorem Alike.rowAt {v v' : TableVersion} (h : Alike v v') (hunique : Unique pk v) :
    rowAt pk v' = rowAt pk v := by
  funext key
  apply Option.ext
  intro row
  rw [rowAt_eq_some_iff (hunique.perm h.rows), rowAt_eq_some_iff hunique, h.rows.mem_iff]

/-- A compaction after any run leaves the rows as they were, and every later run leaves the
rows that it would have left without the compaction. While the snapshots put one row for a
key, every key has one row at most, the same before and after. -/
theorem compaction_keeps_rows (pk : ℕ) (steps later : List TableStep) (roll : Rolling)
    (kind : CompactionKind) :
    let before := run pk .created steps
    let after := step pk before (.compaction roll kind)
    (after.rows.Perm before.rows ∧ (run pk after later).rows.Perm (run pk before later).rows) ∧
      ((∀ st ∈ steps, st.Keyed pk) →
        (Unique pk before ∧ Unique pk after ∧ rowAt pk after = rowAt pk before) ∧
          ((∀ st ∈ later, st.Keyed pk) →
            Unique pk (run pk before later) ∧ Unique pk (run pk after later) ∧
              rowAt pk (run pk after later) = rowAt pk (run pk before later))) := by
  have hnumbered : (run pk .created steps).Numbered := numbered_run numbered_created steps
  obtain ⟨hrows, hnumbered'⟩ := compaction_rows hnumbered roll kind
  have halike : Alike (run pk .created steps) (step pk (run pk .created steps)
      (.compaction roll kind)) := ⟨hnumbered, hnumbered', hrows⟩
  refine ⟨⟨hrows, (halike.run later).rows⟩, fun hsteps => ?_⟩
  have hunique : Unique pk (run pk .created steps) :=
    (unique_created pk).run numbered_created hsteps
  refine ⟨⟨hunique, hunique.perm hrows, halike.rowAt hunique⟩, fun hlater => ?_⟩
  have hunique' := hunique.run hnumbered hlater
  exact ⟨hunique', hunique'.perm (halike.run later).rows, (halike.run later).rowAt hunique'⟩

namespace Example

def row (key n : ℤ) : FileRow := [(1, some (.int key)), (2, some (.int n))]

def put (key n : ℤ) : Staging := .upsert [(some (.int key), row key n)]

/-- Row 1 is put twice, row 2 is put and deleted. -/
def steps : List TableStep :=
  [.snapshot [put 1 5, put 2 6] 1, .snapshot [put 1 7, .delete [some (.int 2)]] 2,
    .snapshot [put 3 8] 3]

/-- The first data manifest is large. -/
def small : CompactionKind := .minor (fun m => if m.seq = 1 then 9 else 1) 2

theorem keyed : ∀ st ∈ steps, st.Keyed 1 := by
  refine List.forall_mem_cons.mpr
    ⟨?_, List.forall_mem_cons.mpr ⟨?_, List.forall_mem_singleton.mpr ?_⟩⟩
  all_goals
    change Rewrites.Keyed 1 _
    decide

theorem compaction_keeps_rows_minor :
    let before := run 1 .created steps
    let after := step 1 before (.compaction Overlap.Example.roll small)
    after.manifests.length < before.manifests.length ∧
      rowAt 1 after (some (.int 1)) = some (row 1 7) ∧
      rowAt 1 after = rowAt 1 before ∧
      rowAt 1 (run 1 after steps) = rowAt 1 (run 1 before steps) := by
  obtain ⟨⟨-, -, hafter⟩, hlater⟩ :=
    (compaction_keeps_rows 1 steps steps Overlap.Example.roll small).2 keyed
  exact ⟨by decide, by decide, hafter, (hlater keyed).2.2⟩

end Example

/-- A key that is put twice before a commit has two rows. -/
theorem put_twice : ¬Unique 1 (run 1 .created
    [.snapshot [.upsert [(some (.int 1), [(1, some (.int 1)), (2, some (.int 5))])],
      .upsert [(some (.int 1), [(1, some (.int 1)), (2, some (.int 6))])]] 1]) := by
  unfold Unique
  decide

section Sealed

variable {col : KeyColumn}

/-- The rows that are put, under their keys. -/
def sealedPuts (changes : List (KeyedChange col)) : List (Option Cell × FileRow) :=
  changes.filterMap fun c => c.row.map fun row => (col.cell c.key, row)

/-- The calls that seal the last changes of the keys. -/
def sealedCalls (changes : List (KeyedChange col)) : List Staging :=
  [.upsert (sealedPuts changes), .delete (cellsWhere (fun c => c.row.isNone) changes)]

theorem rows_sealedPuts (changes : List (KeyedChange col)) :
    (sealedPuts changes).map Prod.snd = upsertRows changes := by
  unfold sealedPuts upsertRows
  rw [List.map_filterMap]
  congr 1
  funext c
  cases c.row <;> rfl

theorem keys_sealedPuts (changes : List (KeyedChange col)) :
    (sealedPuts changes).map Prod.fst = cellsWhere (fun c => c.row.isSome) changes := by
  unfold sealedPuts cellsWhere
  induction changes with
  | nil => rfl
  | cons c changes ih => cases hrow : c.row <;> simp [hrow, ih]

/-- A seal has every key once. -/
theorem keyed_sealedCalls (entries : List (KeyedEntry col)) :
    Keyed col.fieldId (sealedCalls (collapse entries)) := by
  have hputs : (sealedCalls (collapse entries)).flatMap Staging.puts =
      sealedPuts (collapse entries) := by
    simp [sealedCalls, Staging.puts]
  unfold Keyed
  rw [hputs]
  constructor
  · intro p hp
    obtain ⟨c, -, hc⟩ := List.mem_filterMap.mp hp
    obtain ⟨row, hrow, rfl⟩ := Option.map_eq_some_iff.mp hc
    exact c.placed row hrow
  · rw [keys_sealedPuts]
    have hkeys := (Overlap.collapse_keys_nodup entries).map col.cell_injective
    rw [List.map_map] at hkeys
    exact hkeys.sublist (List.filter_sublist.map _)

/-- The calls of a seal stage what the seal commits. -/
theorem staged_sealedCalls (changes : List (KeyedChange col)) :
    (sealedCalls changes).foldl (stage col.fieldId) .none =
      ⟨stagedData changes, stagedDeletes changes⟩ := by
  have hnil : sealedPuts changes = [] ↔ upsertRows changes = [] := by
    rw [← rows_sealedPuts, List.map_eq_nil_iff]
  have hnil' : sealedPuts changes = [] ↔ cellsWhere (fun c => c.row.isSome) changes = [] := by
    rw [← keys_sealedPuts, List.map_eq_nil_iff]
  unfold sealedCalls stagedData stagedDeletes
  simp only [List.foldl_cons, List.foldl_nil, stage, stageDeletes, rows_sealedPuts,
    keys_sealedPuts, ← hnil, ← hnil', Pending.none]
  split_ifs <;> rfl

theorem stagedDeletes_ne_nil {changes : List (KeyedChange col)} (h : changes ≠ []) :
    stagedDeletes changes ≠ [] := by
  cases changes with
  | nil => exact absurd rfl h
  | cons c changes => cases hrow : c.row <;> simp [stagedDeletes, cellsWhere, hrow]

theorem step_sealedCalls (v : TableVersion) {entries : List (KeyedEntry col)}
    (h : entries ≠ []) :
    step col.fieldId v (.snapshot (sealedCalls (collapse entries)) (sealedThrough entries)) =
      sealVersion v entries := by
  have hcollapse : collapse entries ≠ [] := by
    obtain ⟨earlier, e, rfl⟩ := (List.eq_nil_or_concat entries).resolve_left h
    rw [List.concat_eq_append, Overlap.collapse_concat]
    simp
  change commitSnapshot v (List.foldl _ _ _) _ = _
  rw [staged_sealedCalls]
  exact if_neg fun hnone => stagedDeletes_ne_nil hcollapse hnone.2

end Sealed

section Writer

variable {G : Engine} {C : Crates} {R : Reading G} {w w' : LakehouseWriter}

def pending (w : LakehouseWriter) : Pending := ⟨w.pendingData, w.pendingDeletes⟩

theorem upsert_stage {rows : List (G.Key × DataRow G.Value)} (h : w.upsert C R rows = .ok w') :
    ∃ puts : List (Option Cell × FileRow), w'.metadata = w.metadata ∧
      puts.map Prod.snd =
        rows.map (fun r => LakehouseWriter.fileRow C R w.metadata.schema.fields r.2) ∧
      pending w' = stage w.pkFieldId (pending w) (.upsert puts) := by
  by_cases hrows : rows = []
  · subst hrows
    obtain rfl := Except.ok.inj h
    exact ⟨[], rfl, rfl, rfl⟩
  · obtain ⟨f, -, -, rfl⟩ := (LakehouseWriter.upsert_eq_ok hrows).mp h
    refine ⟨rows.map fun r => (LakehouseWriter.keyCell C R f r.1,
      LakehouseWriter.fileRow C R w.metadata.schema.fields r.2), rfl, by simp, ?_⟩
    simp [stage, stageDeletes, pending, hrows, LakehouseWriter.deleteFile, Function.comp_def]

theorem delete_stage {keys : List G.Key} (h : w.delete C R keys = .ok w') :
    ∃ cells : List (Option Cell), w'.metadata = w.metadata ∧ cells.length = keys.length ∧
      pending w' = stage w.pkFieldId (pending w) (.delete cells) := by
  by_cases hkeys : keys = []
  · subst hkeys
    obtain rfl := Except.ok.inj h
    exact ⟨[], rfl, rfl, rfl⟩
  · obtain ⟨f, -, rfl⟩ := (LakehouseWriter.stageDeletes_eq_ok hkeys).mp h
    refine ⟨keys.map (LakehouseWriter.keyCell C R f), rfl, by simp, ?_⟩
    simp [stage, stageDeletes, pending, hkeys, LakehouseWriter.deleteFile]

end Writer

end BlueDB.Lakehouse.Rewrites
