import BlueDB.Lakehouse.Iceberg
import BlueDB.Lib.Manifests

/-!
# Compaction

A metadata version of a table lists the manifests of its current snapshot. A seal
carries them forward and adds its own. A major compaction writes all rows again and
drops the manifests before; a minor one does so for the small data files only, and
keeps the others with every delete file. Both leave the rows of the table as they are.
-/

namespace BlueDB.Lakehouse

open MergeOnRead (rowsOf)

inductive ManifestContent
  | data (files : List (List FileRow))
  | deletes (files : List EqualityDelete)
  deriving DecidableEq

/-- A manifest with the sequence number that its files have inherited. -/
structure ManifestFile where
  seq : ℕ
  content : ManifestContent
  deriving DecidableEq

/-- A metadata version of a table: the manifests of its current snapshot, the last
sequence number, and the watermark of the snapshot, none when there is no snapshot. -/
structure TableVersion where
  manifests : List ManifestFile
  lastSeq : ℕ
  watermark : Option ℕ
  deriving DecidableEq

def ManifestFile.data (m : ManifestFile) : Option (ℕ × List FileRow) :=
  match m.content with
  | .data files => some (m.seq, files.flatten)
  | .deletes _ => none

def ManifestFile.deletes (m : ManifestFile) : Option (ℕ × (FileRow → Bool)) :=
  match m.content with
  | .data _ => none
  | .deletes files =>
    some (m.seq, fun row => files.any fun d => cellOf d.fieldId row ∈ d.cells)

def filesOf (manifests : List ManifestFile) : MergeOnRead.Files FileRow :=
  ⟨manifests.filterMap ManifestFile.data, manifests.filterMap ManifestFile.deletes⟩

def dataFileCount (manifests : List ManifestFile) : ℕ :=
  (manifests.map fun m => match m.content with
    | .data files => files.length
    | .deletes _ => 0).sum

def deleteFileCount (manifests : List ManifestFile) : ℕ :=
  (manifests.map fun m => match m.content with
    | .data _ => 0
    | .deletes files => files.length).sum

/-- How the reader orders the rows that it is given, and how the rolling writer cuts
them into files: no row is lost and none is added. -/
structure Rolling where
  files : List FileRow → List (List FileRow)
  files_perm : ∀ rows, (files rows).flatten.Perm rows

namespace TableVersion

/-- The table has just been created. -/
def created : TableVersion := ⟨[], 0, none⟩

/-- The rows of the current snapshot. -/
def rows (v : TableVersion) : List FileRow := (filesOf v.manifests).rows

def publishSnapshot (v : TableVersion) (manifests : List ManifestFile) (watermark : ℕ) :
    TableVersion := ⟨manifests, v.lastSeq + 1, some watermark⟩

def pendingManifests (seq : ℕ) (data : List (List FileRow)) (deletes : List EqualityDelete) :
    List ManifestFile :=
  (if data = [] then [] else [⟨seq, .data data⟩]) ++
    if deletes = [] then [] else [⟨seq, .deletes deletes⟩]

/-- The pending files become a snapshot, on top of the manifests before it unless
these are replaced. -/
def commitInternal (v : TableVersion) (data : List (List FileRow)) (deletes : List EqualityDelete)
    (watermark : ℕ) (replace : Bool) : TableVersion :=
  v.publishSnapshot
    ((if replace then [] else v.manifests) ++
      pendingManifests (v.lastSeq + 1) data deletes) watermark

/-- Major compaction. Nothing is written for a lone data file without deletes, nor
when no row is left. -/
def compact (roll : Rolling) (v : TableVersion) : Option TableVersion :=
  if dataFileCount v.manifests ≤ 1 ∧ deleteFileCount v.manifests = 0 then none
  else if v.rows = [] then none
  else some (v.commitInternal (roll.files v.rows) [] (v.watermark.getD 0) true)

/-- Minor compaction of the data manifests below the target size. -/
def compactIncremental (roll : Rolling) (bytes : ManifestFile → ℕ) (target : ℕ)
    (v : TableVersion) : Option TableVersion :=
  let data := v.manifests.filter fun m => m.data.isSome
  let deletes := v.manifests.filter fun m => m.deletes.isSome
  let cohort := data.filter fun m => bytes m < target
  let survivors := data.filter fun m => ¬bytes m < target
  if cohort.length < 2 then none
  else
    let merged := (filesOf (cohort ++ deletes)).rows
    let watermark := v.watermark.getD 0
    if merged = [] then some (v.publishSnapshot (survivors ++ deletes) watermark)
    else
      some (v.publishSnapshot
        (survivors ++ deletes ++ [⟨v.lastSeq + 1, .data (roll.files merged)⟩]) watermark)

end TableVersion

theorem filesOf_append (manifests manifests' : List ManifestFile) :
    filesOf (manifests ++ manifests') =
      ⟨(filesOf manifests).data ++ (filesOf manifests').data,
        (filesOf manifests).deletes ++ (filesOf manifests').deletes⟩ := by
  simp [filesOf, List.filterMap_append]

theorem data_seq {m : ManifestFile} {d : ℕ × List FileRow} (h : m.data = some d) : d.1 = m.seq := by
  unfold ManifestFile.data at h
  split at h
  · rw [← Option.some.inj h]
  · exact absurd h nofun

theorem deletes_seq {m : ManifestFile} {d : ℕ × (FileRow → Bool)} (h : m.deletes = some d) :
    d.1 = m.seq := by
  unfold ManifestFile.deletes at h
  split at h
  · exact absurd h nofun
  · rw [← Option.some.inj h]

def TableVersion.Numbered (v : TableVersion) : Prop := ∀ m ∈ v.manifests, m.seq ≤ v.lastSeq

theorem below_of_seq {manifests : List ManifestFile} {n : ℕ} (h : ∀ m ∈ manifests, m.seq ≤ n) :
    (filesOf manifests).Below n := by
  constructor
  · intro d hd
    obtain ⟨m, hm, hdata⟩ := List.mem_filterMap.mp hd
    exact (data_seq hdata).trans_le (h m hm)
  · intro d hd
    obtain ⟨m, hm, hdeletes⟩ := List.mem_filterMap.mp hd
    exact (deletes_seq hdeletes).trans_le (h m hm)

namespace TableVersion

variable {v v' : TableVersion} {data : List (List FileRow)} {deletes : List EqualityDelete}
  {watermark : ℕ}

theorem seq_of_mem_pendingManifests {seq : ℕ} {m : ManifestFile}
    (h : m ∈ pendingManifests seq data deletes) : m.seq = seq := by
  unfold pendingManifests at h
  rcases List.mem_append.mp h with h | h
  · split_ifs at h
    · exact absurd h List.not_mem_nil
    · rw [List.mem_singleton.mp h]
  · split_ifs at h
    · exact absurd h List.not_mem_nil
    · rw [List.mem_singleton.mp h]

def deletesRow (deletes : List EqualityDelete) (row : FileRow) : Bool :=
  deletes.any fun d => cellOf d.fieldId row ∈ d.cells

theorem filesOf_pendingManifests (seq : ℕ) :
    ((filesOf (pendingManifests seq data deletes)).data.flatMap Prod.snd = data.flatten) ∧
      ∀ row, ((filesOf (pendingManifests seq data deletes)).deletes.any fun d => d.2 row) =
        deletesRow deletes row := by
  unfold pendingManifests filesOf deletesRow
  by_cases hdata : data = []
  · by_cases hdeletes : deletes = []
    · simp [hdata, hdeletes]
    · simp [hdata, hdeletes, ManifestFile.data, ManifestFile.deletes]
  · by_cases hdeletes : deletes = []
    · simp [hdata, hdeletes, ManifestFile.data, ManifestFile.deletes]
    · simp [hdata, hdeletes, ManifestFile.data, ManifestFile.deletes]

theorem numbered_commitInternal (h : v.Numbered) (replace : Bool) :
    (v.commitInternal data deletes watermark replace).Numbered := by
  intro m hm
  change m ∈ (if replace then [] else v.manifests) ++ _ at hm
  change m.seq ≤ v.lastSeq + 1
  rcases List.mem_append.mp hm with hm | hm
  · split_ifs at hm
    · exact absurd hm List.not_mem_nil
    · exact (h m hm).trans (Nat.le_succ _)
  · exact (seq_of_mem_pendingManifests hm).le

theorem rows_commitInternal (h : v.Numbered) :
    (v.commitInternal data deletes watermark false).rows =
      v.rows.filter (fun row => !deletesRow deletes row) ++ data.flatten := by
  obtain ⟨hdata, hdeletes⟩ := @filesOf_pendingManifests data deletes (v.lastSeq + 1)
  have hseq : ∀ m ∈ pendingManifests (v.lastSeq + 1) data deletes, m.seq = v.lastSeq + 1 :=
    fun m hm => seq_of_mem_pendingManifests hm
  change (filesOf (v.manifests ++ pendingManifests _ data deletes)).rows = _
  rw [filesOf_append, MergeOnRead.rows_commit (below_of_seq h) (Nat.lt_succ_self v.lastSeq), hdata]
  · simp only [hdeletes]
    rfl
  · intro d hd
    obtain ⟨m, hm, hd⟩ := List.mem_filterMap.mp hd
    exact (data_seq hd).trans (hseq m hm)
  · intro d hd
    obtain ⟨m, hm, hd⟩ := List.mem_filterMap.mp hd
    exact (deletes_seq hd).trans (hseq m hm)

variable {roll : Rolling}

theorem compact_rows (hcompact : v.compact roll = some v') :
    v'.rows.Perm v.rows ∧ v'.Numbered := by
  unfold compact at hcompact
  split_ifs at hcompact
  rw [← Option.some.inj hcompact]
  have hseq : ∀ m ∈ pendingManifests (v.lastSeq + 1) (roll.files v.rows) [], m.seq =
      v.lastSeq + 1 :=
    fun m hm => seq_of_mem_pendingManifests hm
  obtain ⟨hdata, -⟩ := @filesOf_pendingManifests (roll.files v.rows) [] (v.lastSeq + 1)
  constructor
  · have hrows : (v.commitInternal (roll.files v.rows) [] (v.watermark.getD 0) true).rows =
        (roll.files v.rows).flatten := by
      change (filesOf ([] ++ pendingManifests (v.lastSeq + 1) (roll.files v.rows) [])).rows = _
      rw [List.nil_append, ← hdata]
      apply MergeOnRead.rowsOf_fresh
      · exact (below_of_seq fun m hm => (hseq m hm).le).deletes
      · intro d hd
        obtain ⟨m, hm, hd⟩ := List.mem_filterMap.mp hd
        exact (data_seq hd).trans (hseq m hm)
    rw [hrows]
    exact roll.files_perm v.rows
  · intro m hm
    exact (hseq m hm).le

theorem data_isSome_or_deletes (m : ManifestFile) :
    (m.data.isSome = true ∧ m.deletes = none) ∨ (m.data = none ∧ m.deletes.isSome = true) := by
  unfold ManifestFile.data ManifestFile.deletes
  cases m.content with
  | data files => exact Or.inl ⟨rfl, rfl⟩
  | deletes files => exact Or.inr ⟨rfl, rfl⟩

theorem filesOf_data_deletes {data deletes : List ManifestFile}
    (hdata : ∀ m ∈ data, m.data.isSome = true) (hdeletes : ∀ m ∈ deletes, m.deletes.isSome = true) :
    filesOf (data ++ deletes) = ⟨(filesOf data).data, (filesOf deletes).deletes⟩ := by
  have hnoDeletes : (filesOf data).deletes = [] := by
    apply List.filterMap_eq_nil_iff.mpr
    intro m hm
    rcases data_isSome_or_deletes m with ⟨-, hnone⟩ | ⟨hnone, -⟩
    · exact hnone
    · exact absurd (hdata m hm) (by simp [hnone])
  have hnoData : (filesOf deletes).data = [] := by
    apply List.filterMap_eq_nil_iff.mpr
    intro m hm
    rcases data_isSome_or_deletes m with ⟨-, hnone⟩ | ⟨hnone, -⟩
    · exact absurd (hdeletes m hm) (by simp [hnone])
    · exact hnone
  rw [filesOf_append, hnoDeletes, hnoData, List.append_nil, List.nil_append]

theorem filterMap_filter_isSome {α β : Type} (f : α → Option β) (l : List α) :
    (l.filter fun a => (f a).isSome).filterMap f = l.filterMap f := by
  induction l with
  | nil => rfl
  | cons a l ih =>
    cases ha : f a with
    | none => simp [ha, ih]
    | some b => simp [ha, ih]

/-- The manifests of a version by their kind and size. -/
structure Parted (v : TableVersion) (cohort survivors gone : List ManifestFile) : Prop where
  ofCohort : ∀ m ∈ cohort, m ∈ v.manifests ∧ m.data.isSome = true
  ofSurvivors : ∀ m ∈ survivors, m ∈ v.manifests ∧ m.data.isSome = true
  ofGone : ∀ m ∈ gone, m ∈ v.manifests ∧ m.deletes.isSome = true
  deletes : (filesOf gone).deletes = (filesOf v.manifests).deletes
  data : (filesOf v.manifests).data.Perm ((filesOf cohort).data ++ (filesOf survivors).data)

theorem parted (v : TableVersion) (small : ManifestFile → Bool) :
    Parted v ((v.manifests.filter fun m => m.data.isSome).filter small)
      ((v.manifests.filter fun m => m.data.isSome).filter fun m => !small m)
      (v.manifests.filter fun m => m.deletes.isSome) := by
  constructor
  · exact fun m hm => List.mem_filter.mp (List.mem_of_mem_filter hm)
  · exact fun m hm => List.mem_filter.mp (List.mem_of_mem_filter hm)
  · exact fun m hm => List.mem_filter.mp hm
  · exact filterMap_filter_isSome ManifestFile.deletes v.manifests
  · have hperm := List.filter_append_perm small (v.manifests.filter fun m => m.data.isSome)
    have hfiles := (hperm.filterMap ManifestFile.data).symm
    rw [List.filterMap_append, filterMap_filter_isSome] at hfiles
    exact hfiles

section Cohort

variable {cohort survivors gone : List ManifestFile}

/-- The rows that a scan of the cohort finds are written in place of the cohort. -/
theorem Parted.rows (h : Parted v cohort survivors gone) (hv : v.Numbered)
    {added : List ManifestFile} (hadded : ∀ m ∈ added, m.data.isSome = true ∧ m.seq = v.lastSeq + 1)
    (hrows : ((filesOf added).data.flatMap Prod.snd).Perm (filesOf (cohort ++ gone)).rows) :
    (filesOf (survivors ++ gone ++ added)).rows.Perm v.rows := by
  have hscan : (filesOf (cohort ++ gone)).rows =
      rowsOf (filesOf v.manifests).deletes (filesOf cohort).data := by
    rw [filesOf_data_deletes (fun m hm => (h.ofCohort m hm).2) (fun m hm => (h.ofGone m hm).2),
        h.deletes]
    rfl
  have hwritten : filesOf (survivors ++ gone ++ added) =
      ⟨(filesOf survivors).data ++ (filesOf added).data, (filesOf v.manifests).deletes⟩ := by
    have hfiles := filesOf_data_deletes (fun m hm => (hadded m hm).1)
      (fun m (hm : m ∈ ([] : List ManifestFile)) => absurd hm List.not_mem_nil)
    rw [List.append_nil] at hfiles
    rw [filesOf_append, hfiles,
      filesOf_data_deletes (fun m hm => (h.ofSurvivors m hm).2) (fun m hm => (h.ofGone m hm).2),
        h.deletes]
    simp [filesOf]
  rw [hwritten]
  apply MergeOnRead.rows_compact _ h.data _ (hscan ▸ hrows)
  · exact v.lastSeq + 1
  · exact fun d hd => ((below_of_seq hv).deletes d hd).trans (Nat.le_succ _)
  · intro d hd
    obtain ⟨m, hm, hd⟩ := List.mem_filterMap.mp hd
    exact (data_seq hd).trans (hadded m hm).2

theorem Parted.kept (h : Parted v cohort survivors gone) (hv : v.Numbered) :
    ∀ m ∈ survivors ++ gone, m.seq ≤ v.lastSeq + 1 := by
  intro m hm
  rcases List.mem_append.mp hm with hm | hm
  · exact (hv m (h.ofSurvivors m hm).1).trans (Nat.le_succ _)
  · exact (hv m (h.ofGone m hm).1).trans (Nat.le_succ _)

end Cohort

theorem compactIncremental_rows {bytes : ManifestFile → ℕ} {target : ℕ} (h : v.Numbered)
    (hcompact : v.compactIncremental roll bytes target = some v') :
    v'.rows.Perm v.rows ∧ v'.Numbered := by
  have hparted := parted v fun m => decide (bytes m < target)
  unfold compactIncremental at hcompact
  simp only [decide_not] at hcompact
  split_ifs at hcompact with hfew hnil
  · -- every row of the cohort is deleted
    rw [← Option.some.inj hcompact]
    constructor
    · have hnothing := hparted.rows h (fun m (hm : m ∈ ([] : List ManifestFile)) =>
        absurd hm List.not_mem_nil)
        (by rw [hnil]; exact List.Perm.nil)
      rw [List.append_nil] at hnothing
      exact hnothing
    · exact hparted.kept h
  · rw [← Option.some.inj hcompact]
    constructor
    · apply hparted.rows h
      · intro m hm
        rw [List.mem_singleton.mp hm]
        exact ⟨rfl, rfl⟩
      · simpa [filesOf, ManifestFile.data] using roll.files_perm _
    · intro m hm
      rcases List.mem_append.mp hm with hm | hm
      · exact hparted.kept h m hm
      · rw [List.mem_singleton.mp hm]
        exact le_rfl

end TableVersion

end BlueDB.Lakehouse
