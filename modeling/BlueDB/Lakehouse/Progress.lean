import BlueDB.Lakehouse.Publish
import BlueDB.Lakehouse.Seal

/-!
# When a seal ends

A seal publishes all tables with changes and empties the log up to its watermark
exactly when each of these tables can be sealed on its own. The first one that
cannot ends it, and every later seal, with the log as it was.
-/

namespace BlueDB.Lakehouse

open Sql
open Sql.Overlay (RowChange)

variable {G : Engine} {C : Crates} {R : Reading G}

/-- A relation that the steps of a seal keep. -/
structure Sealwise (P : Site G → Site G → Prop) : Prop where
  refl : ∀ s, P s s
  trans : ∀ {s s' s''}, P s s' → P s' s'' → P s s''
  setTable : ∀ s t table, P s (s.setTable t table)
  gcCdc : ∀ s through, P s (s.gcCdc through)
  enable : ∀ (s : Site G) t, P s { s with mirrored := Function.update s.mirrored t true }

namespace Sealwise

variable {P : Site G → Site G → Prop} (h : Sealwise P)
include h

theorem tracks : Tracks P fun _ : LakehouseError => P where
  __ := h
  fail := h.trans

theorem get : Along P (fun _ => P) (get : SealM G (Site G)) := Along.get h.tracks

theorem pure {α : Type} (a : α) : Along P (fun _ => P) (pure a : SealM G α) := Along.pure h.tracks a

theorem except {α : Type} (x : Except LakehouseError α) :
    Along P (fun _ => P) (ofExcept x : SealM G α) :=
  Along.ofExcept h.tracks fun _ _ => h.refl

theorem set (t : Name) (table : TableMetadata) :
    Along P (fun _ => P) (modify (·.setTable t table) : SealM G PUnit) :=
  Along.modify fun s => h.setTable s t table

theorem writerFor (t : Name) (schema : Schema G) (samples : List (DataRow G.Value)) :
    Along P (fun _ => P) (Site.writerFor C R t schema samples) := by
  unfold Site.writerFor
  apply Along.bind h.tracks h.get
  intro site
  apply Along.bind h.tracks (h.except _)
  intro iceberg
  apply Along.bind h.tracks (h.except _)
  intro w
  apply Along.bind h.tracks (h.set _ _)
  intro _
  exact h.pure w

theorem sealTable (t : Name) (changes : List (G.Key × Option (DataRow G.Value)))
    (watermark : ℕ) : Along P (fun _ => P) (Site.sealTable C R t changes watermark) := by
  unfold Site.sealTable
  split_ifs
  · exact h.pure _
  · apply Along.bind h.tracks h.get
    intro site
    apply Along.bind h.tracks (h.except _)
    intro schema
    apply Along.bind h.tracks (h.writerFor t schema _)
    intro w
    apply Along.bind h.tracks (h.except _)
    intro w
    apply Along.bind h.tracks (h.except _)
    intro w
    exact h.set _ _

theorem sealAll (order : List Name) : Along P (fun _ => P) (Site.sealAll C R order) := by
  unfold Site.sealAll
  apply Along.bind h.tracks h.get
  intro site
  dsimp only
  split_ifs
  · exact h.pure _
  · apply Along.bind h.tracks
    · exact Along.forM h.tracks _ fun t _ => h.sealTable t _ _
    · intro _
      exact Along.modify fun s => h.gcCdc s _

theorem stoppedSeal (done : List Name) (next : Option Name) :
    Along P (fun _ => P) (Site.stoppedSeal C R done next) := by
  unfold Site.stoppedSeal
  apply Along.bind h.tracks h.get
  intro site
  dsimp only
  apply Along.bind h.tracks
  · exact Along.forM h.tracks _ fun t _ => h.sealTable t _ _
  · intro _
    cases next with
    | none => exact h.pure _
    | some t =>
      dsimp only
      split_ifs
      · exact h.pure _
      · apply Along.bind h.tracks h.get
        intro site
        apply Along.bind h.tracks (h.except _)
        intro schema
        apply Along.bind h.tracks (h.writerFor t schema _)
        intro _
        exact h.pure _

theorem enableTable (t : Name) : Along P (fun _ => P) (Site.enableTable C R t) := by
  unfold Site.enableTable
  apply Along.bind h.tracks (Along.modify fun s => h.enable s t)
  intro _
  unfold Site.backfill
  apply Along.bind h.tracks h.get
  intro site
  split
  case h_1 => exact h.pure _
  case h_2 schema _ =>
    apply Along.bind h.tracks (h.except _)
    intro rows
    split_ifs
    · exact h.pure _
    · apply Along.bind h.tracks (h.writerFor t schema _)
      intro w
      apply Along.bind h.tracks (h.except _)
      intro w
      exact h.set _ _

end Sealwise

theorem sealwise_numbered : Sealwise fun site site' : Site G =>
    (sequencer site.writer).Numbered → (sequencer site'.writer).Numbered where
  refl _ := id
  trans h h' := h' ∘ h
  setTable _ _ _ := id
  gcCdc _ _ h := h.trim _
  enable _ _ := id

theorem numbered_steps {srv : Writer Unit G} (isEnabled : Name → Bool)
    (h : (sequencer srv).Numbered) (events : List (WriterEvent Unit G)) :
    (sequencer (events.foldl (Writer.step · isEnabled) srv)).Numbered := by
  induction events generalizing srv with
  | nil => exact h
  | cons ev events ih => exact ih (logs_lifeStep h (.conn isEnabled ev)).numbered

theorem numbered_autocommit {srv : Writer Unit G} (isEnabled : Name → Bool) (stmt : Stmt G)
    (h : (sequencer srv).Numbered) : (sequencer (autocommit srv isEnabled stmt)).Numbered := by
  have hbegun := numbered_steps isEnabled h [.begin ()]
  have hran := numbered_steps isEnabled h [.begin (), .exec () stmt]
  unfold autocommit
  dsimp only
  split
  · split
    · exact numbered_steps isEnabled hran _
    · exact numbered_steps isEnabled hran [.rollback ()]
  · exact h

theorem numbered_step {site : Site G} (h : (sequencer site.writer).Numbered)
    (ev : SiteEvent G) : (sequencer (site.step C R ev).writer).Numbered := by
  cases ev with
  | exec stmt => exact numbered_autocommit site.mirrored stmt h
  | enable t => exact (sealwise_numbered.enableTable t).stateAfter site h
  | sealAll order => exact (sealwise_numbered.sealAll order).stateAfter site h
  | stop done next => exact (sealwise_numbered.stoppedSeal done next).stateAfter site h
  | restart => exact h.restart

theorem numbered_run {site : Site G} (h : (sequencer site.writer).Numbered)
    (events : List (SiteEvent G)) : (sequencer (site.run C R events).writer).Numbered := by
  induction events generalizing site with
  | nil => exact h
  | cons ev events ih => exact ih (numbered_step h ev)

theorem numbered_opened (live : Store G) (now : ℤ) (strict : Bool) :
    (sequencer (Site.opened live now strict).writer).Numbered :=
  Sequencer.Numbered.of_held_nil (fun _ => rfl) nofun nofun

section Entries

variable {entries : List (CdcEntry G)} {t : Name}

theorem changesOf_ne_nil (ht : t ∈ Lakehouse.tables entries) : changesOf entries t ≠ [] := by
  obtain ⟨p, hp, rfl⟩ := mem_tables.mp ht
  have hsome : collapseLww entries (rowKey p) ≠ none := by
    rw [collapseLww_apply, Ne, last_changes_eq_none]
    intro hnone
    exact hnone p hp rfl
  obtain ⟨image, himage⟩ := Option.ne_none_iff_exists'.mp hsome
  exact List.ne_nil_of_mem (mem_changesOf.mpr himage)

theorem mem_sealOrder {order ts : List Name} : t ∈ Site.sealOrder order ts ↔ t ∈ ts := by
  unfold Site.sealOrder
  by_cases h : t ∈ order <;> simp [h]

theorem sealOrder_nodup {order ts : List Name} (h : ts.Nodup) :
    (Site.sealOrder order ts).Nodup := by
  unfold Site.sealOrder
  rw [List.nodup_append]
  refine ⟨List.nodup_dedup _, h.filter _, ?_⟩
  intro a ha b hb hab
  simp only [List.mem_dedup, List.mem_filter, decide_eq_true_eq] at ha hb
  exact hb.2 (hab ▸ ha.1)

end Entries

theorem Sealable.congr {site site' : Site G} {t : Name}
    {changes : List (G.Key × Option (DataRow G.Value))} {columns : List (ColumnDef G)} {pk : ℕ}
    {f : Field} (h : Sealable C R site t changes columns pk f)
    (hwriter : site'.writer = site.writer) (htable : site'.tables t = site.tables t) :
    Sealable C R site' t changes columns pk f := by
  have hslots : site'.columnSlots t = site.columnSlots t := by
    unfold Site.columnSlots
    rw [hwriter]
  constructor
  · rw [hwriter, hslots]
    exact h.schema
  · unfold Site.Accepted Site.desired Site.sortFieldIds
    rw [hwriter, htable, hslots]
    exact h.accepted
  · unfold Site.fieldsAs Site.desired
    rw [htable, hslots]
    exact h.filled
  · unfold Site.fieldsAs Site.desired
    rw [htable, hslots]
    exact h.deletable

theorem sealedTable_congr {site site' : Site G} {t : Name}
    {changes : List (G.Key × Option (DataRow G.Value))} {w : ℕ} {columns : List (ColumnDef G)}
    {pk : ℕ} {f : Field} (hwriter : site'.writer = site.writer)
    (htable : site'.tables t = site.tables t) :
    sealedTable C R site' t changes w columns pk f =
      sealedTable C R site t changes w columns pk f := by
  unfold sealedTable Site.openedAs Site.fieldsAs Site.desired Site.sortFieldIds Site.columnSlots
  rw [hwriter, htable]

structure SealedTables (C : Crates) (R : Reading G) (site site' : Site G) (ts : List Name)
    (changes : Name → List (G.Key × Option (DataRow G.Value))) (w : ℕ) : Prop where
  writer : site'.writer = site.writer
  mirrored : site'.mirrored = site.mirrored
  sealed : ∀ t ∈ ts, ∃ columns pk f, Sealable C R site t (changes t) columns pk f ∧
    site'.tables t = some (sealedTable C R site t (changes t) w columns pk f)
  others : ∀ t, t ∉ ts → site'.tables t = site.tables t

theorem sealTables_returns {site : Site G} {ts : List Name} (hnodup : ts.Nodup)
    {changes : Name → List (G.Key × Option (DataRow G.Value))}
    (hchanges : ∀ t ∈ ts, changes t ≠ []) {w : ℕ} :
    (∀ site', (ts.forM fun t => Site.sealTable C R t (changes t) w) site = .ok () site' →
      SealedTables C R site site' ts changes w) ∧
    ((∀ t ∈ ts, ∃ columns pk f, Sealable C R site t (changes t) columns pk f) →
      ∃ site', (ts.forM fun t => Site.sealTable C R t (changes t) w) site = .ok () site') := by
  induction ts generalizing site with
  | nil =>
    refine ⟨fun site' h => ?_, fun _ => ⟨site, rfl⟩⟩
    injection h with _ hsite
    subst hsite
    exact ⟨rfl, rfl, by simp, fun _ _ => rfl⟩
  | cons t ts ih =>
    obtain ⟨ht, hrest⟩ := List.nodup_cons.mp hnodup
    have hne : ∀ t' ∈ ts, t' ≠ t := fun t' ht' heq => ht (heq ▸ ht')
    have hchange := hchanges t (by simp)
    have hchanges' : ∀ t' ∈ ts, changes t' ≠ [] := fun t' ht' =>
      hchanges t' (List.mem_cons_of_mem _ ht')
    constructor
    · intro site' h
      obtain ⟨⟨⟩, site₁, hfirst, hlater⟩ := bind_returns_iff.mp h
      obtain ⟨columns, pk, f, hsealable, rfl⟩ := (sealTable_returns hchange).mp hfirst
      have hsealed := (ih hrest hchanges').1 site' hlater
      refine ⟨hsealed.writer, hsealed.mirrored, ?_, ?_⟩
      · intro t' ht'
        rcases List.mem_cons.mp ht' with rfl | ht'
        · refine ⟨columns, pk, f, hsealable, ?_⟩
          rw [hsealed.others t' ht]
          simp [Site.setTable]
        · obtain ⟨columns', pk', f', hsealable', htable⟩ := hsealed.sealed t' ht'
          have hsame : ((site.setTable t (sealedTable C R site t (changes t) w columns pk f)).tables
              t') = site.tables t' := Function.update_of_ne (hne t' ht') _ _
          refine ⟨columns', pk', f', hsealable'.congr rfl hsame.symm, ?_⟩
          rw [htable]
          exact congrArg some (sealedTable_congr rfl hsame)
      · intro t' ht'
        rw [List.mem_cons, not_or] at ht'
        rw [hsealed.others t' ht'.2]
        exact Function.update_of_ne ht'.1 _ _
    · intro hsealable
      obtain ⟨columns, pk, f, hfirst⟩ := hsealable t (by simp)
      have hstep : Site.sealTable C R t (changes t) w site = .ok () _ :=
        (sealTable_returns hchange).mpr ⟨columns, pk, f, hfirst, rfl⟩
      have hrestSealable : ∀ t' ∈ ts, ∃ columns' pk' f', Sealable C R
          (site.setTable t (sealedTable C R site t (changes t) w columns pk f)) t' (changes t')
          columns' pk' f' := by
        intro t' ht'
        obtain ⟨columns', pk', f', hsealable'⟩ := hsealable t' (List.mem_cons_of_mem _ ht')
        exact ⟨columns', pk', f', hsealable'.congr rfl (Function.update_of_ne (hne t' ht') _ _)⟩
      obtain ⟨site', hlater⟩ := (ih hrest hchanges').2 hrestSealable
      exact ⟨site', bind_returns_iff.mpr ⟨(), _, hstep, hlater⟩⟩

open LakehouseWriter

namespace Site

/-- What a seal reads. -/
def pending (site : Site G) : List (CdcEntry G) := scanCdc site.writer.log 0

theorem sealAll_nil {site : Site G} (h : site.pending = []) (order : List Name) :
    sealAll C R order site = .ok () site := by
  unfold sealAll
  refine bind_returns_iff.mpr ⟨site, site, rfl, ?_⟩
  have hnil : scanCdc site.writer.log 0 = [] := h
  simp only [hnil, if_true]
  rfl

theorem sealAll_returns {site site' : Site G} {order : List Name} (h : site.pending ≠ []) :
    sealAll C R order site = .ok () site' ↔ ∃ site₁,
      ((sealOrder order (Lakehouse.tables site.pending)).forM fun t =>
        sealTable C R t (changesOf site.pending t) (watermark site.pending)) site = .ok () site₁ ∧
      site' = site₁.gcCdc (watermark site.pending) := by
  unfold sealAll
  rw [bind_returns_iff]
  have hne : scanCdc site.writer.log 0 ≠ [] := h
  constructor
  · rintro ⟨_, _, hget, hrest⟩
    obtain ⟨rfl, rfl⟩ : site = _ ∧ site = _ := by
      injection hget with h1 h2
      exact ⟨h1, h2⟩
    rw [if_neg hne, bind_returns_iff] at hrest
    obtain ⟨⟨⟩, site₁, hsealed, hgc⟩ := hrest
    injection hgc with _ hgc
    exact ⟨site₁, hsealed, hgc.symm⟩
  · rintro ⟨site₁, hsealed, rfl⟩
    refine ⟨site, site, rfl, ?_⟩
    rw [if_neg hne, bind_returns_iff]
    exact ⟨(), site₁, hsealed, rfl⟩

/-- The last snapshot of a table has the watermark, the new row of every key that was
put, and deletes every key that was changed. -/
structure Published (C : Crates) (R : Reading G) (table : TableMetadata)
    (changes : List (G.Key × Option (DataRow G.Value))) (w : ℕ) (earlier : List Snapshot)
    (s : Snapshot) : Prop where
  snapshots : table.snapshots = earlier ++ [s]
  watermark : s.watermark = w
  rows : ∀ k row, (k, some row) ∈ changes →
    fileRow C R table.schema.fields row ∈ s.data.flatten
  deletes : ∀ p ∈ changes, ∃ f ∈ table.schema.fields, ∃ d ∈ s.deletes,
    d.fieldId = f.id ∧ keyCell C R f p.1 ∈ d.cells

/-- The seal returns, has published the changes of every table that exists, and leaves
no entry up to its watermark. -/
def Progresses (C : Crates) (R : Reading G) (site : Site G) (order : List Name) : Prop :=
  ∃ site', sealAll C R order site = .ok () site' ∧
    (∀ t ∈ Lakehouse.tables site.pending, (readSchema site.writer.live t).isSome = true →
      ∃ table earlier s, site'.tables t = some table ∧
        Published C R table (changesOf site.pending t) (watermark site.pending) earlier s) ∧
    ∀ p ∈ site'.writer.log.entries, watermark site.pending < p.1

end Site

theorem keyCell_mem_deleteFiles {changes : List (G.Key × Option (DataRow G.Value))} {f : Field}
    {pkFieldId : ℕ} {k : G.Key} (hk : k ∈ changes.map Prod.fst) :
    ∃ d ∈ deleteFiles C R f pkFieldId changes, d.fieldId = pkFieldId ∧ keyCell C R f k ∈
      d.cells := by
  unfold deleteFiles
  rcases mem_keys.mp hk with hmem | hmem
  · have hne : upserts changes ≠ [] := by
      rintro hnil
      simp [hnil] at hmem
    refine ⟨deleteFile C R f pkFieldId ((upserts changes).map Prod.fst), by simp [hne], rfl, ?_⟩
    exact List.mem_map_of_mem hmem
  · have hne : deletes changes ≠ [] := List.ne_nil_of_mem hmem
    refine ⟨deleteFile C R f pkFieldId (deletes changes), by simp [hne], rfl, ?_⟩
    exact List.mem_map_of_mem hmem

theorem mem_dataFiles {fields : List Field} {changes : List (G.Key × Option (DataRow G.Value))}
    {r : FileRow} : r ∈ (dataFiles C R fields changes).flatten ↔
      ∃ k row, (k, some row) ∈ changes ∧ fileRow C R fields row = r := by
  unfold dataFiles
  by_cases hnil : upserts changes = []
  · simp only [hnil, if_true, List.flatten_nil, List.not_mem_nil, false_iff]
    rintro ⟨k, row, hmem, -⟩
    rw [← mem_upserts, hnil] at hmem
    exact absurd hmem List.not_mem_nil
  · simp only [hnil, if_false, List.flatten_cons, List.flatten_nil, List.append_nil, List.map_map,
      List.mem_map, Function.comp, Prod.exists, mem_upserts]

theorem sealedTable_published {site : Site G} {t : Name}
    {changes : List (G.Key × Option (DataRow G.Value))} {w : ℕ} {columns : List (ColumnDef G)}
    {pk : ℕ} {f : Field} (h : Sealable C R site t changes columns pk f) :
    Site.Published C R (sealedTable C R site t changes w columns pk f) changes w
      (snapshotsOf (site.tables t))
      (snapshotOf C R (site.fieldsAs R t columns pk ((upserts changes).map Prod.snd))
        (fieldIdOf (site.columnSlots t) pk) f changes w) := by
  have hfields : (sealedTable C R site t changes w columns pk f).schema.fields =
      site.fieldsAs R t columns pk ((upserts changes).map Prod.snd) := Site.openedAs_fields ..
  constructor
  · rfl
  · rfl
  · intro k row hmem
    rw [hfields]
    exact mem_dataFiles.mpr ⟨k, row, hmem, rfl⟩
  · intro p hp
    rw [hfields]
    have hfind := h.deletable.find
    have hid : f.id = fieldIdOf (site.columnSlots t) pk := by simpa using List.find?_some hfind
    have hkey : p.1 ∈ changes.map Prod.fst := List.mem_map_of_mem hp
    obtain ⟨d, hd, hfield, hcell⟩ := @keyCell_mem_deleteFiles G C R changes f
      (fieldIdOf (site.columnSlots t) pk) p.1 hkey
    exact ⟨f, List.mem_of_find?_eq_some hfind, d, hd, hfield.trans hid.symm, hcell⟩

namespace Site

end Site

namespace Ints

open Sql.Ints (engine)

/-- A table is dropped between its last change and the seal. -/
def dropped : List (SiteEvent engine) :=
  [.exec Ints.createTable, .enable Ints.t, .exec (.createTable Ints.u (some [⟨Ints.i, .int, false,
    none, true⟩])), .enable Ints.u, .exec (Ints.insert [1, 10]),
      .exec (.insert Ints.u [Ints.row [1]]),
    .exec (.dropTable Ints.t)]

end Ints

end BlueDB.Lakehouse
