import BlueDB.Fts.Upkeep

/-!
# Indexes under commits, seals and compactions

Indexes are declared on a new table. Then rows are written, columns are dropped, and the
indexes are sealed and compacted.
-/

namespace BlueDB.Fts

variable {u : Unicode} {name : String}

inductive Maintenance
  | commit (changes : List (ℤ × Option (List GValue)))
  | dropColumn (column : String)
  | sealIndex (index : IndexName) (outcome : SealOutcome)
  | compactIndex (index : IndexName)

def Maintenance.event : Maintenance → Event
  | commit changes => .table (.commit changes)
  | dropColumn column => .table (.dropColumn column)
  | sealIndex index outcome => .engine (.sealIndex index outcome)
  | compactIndex index => .engine (.compactIndex index)

def Site.declared (u : Unicode) (name : String) (columns : List String) (pkColumn : String)
    (indexes : List (String × String × IndexKind)) : Site :=
  Site.play u name ⟨none, .new⟩ (.table (.create columns pkColumn) ::
    indexes.map fun i => .table (.createIndex i.1 i.2.1 i.2.2))

/-- Nothing has been written. -/
structure Site.Blank (s : Site) : Prop where
  rows : ∀ t, s.table = some t → t.rows = .empty
  segments : ∀ d ∈ s.engine.indexes, d.segment = .empty
  blobs : ∀ id, s.engine.blobs id = Blobs.empty

namespace Site.Blank

variable {s : Site}

theorem create (u : Unicode) (name : String) (columns : List String) (pkColumn : String) :
    (Site.step u name ⟨none, .new⟩ (.table (.create columns pkColumn))).Blank := by
  have hnew : Site.Blank ⟨none, .new⟩ :=
    ⟨nofun, fun _ hd => absurd hd List.not_mem_nil, fun _ => rfl⟩
  unfold Site.step Site.run
  dsimp only
  split_ifs
  · refine ⟨?_, hnew.segments, hnew.blobs⟩
    rintro t ⟨⟩
    rfl
  · exact hnew

theorem careful (h : s.Blank) (column analyzer : String) (kind : IndexKind) :
    s.Careful u name (.table (.createIndex column analyzer kind)) := by
  intro t ht
  unfold Site.Declares
  cases hfind : s.engine.find ⟨name, column, kind⟩ with
  | none =>
    intro pk
    unfold Table.text
    rw [h.rows t ht, OrderedMap.get_empty]
    rfl
  | some d =>
    constructor
    · rw [h.segments d (find_some hfind).1]
      intro pk hcovered
      exact absurd hcovered (Finset.notMem_empty pk)
    · right
      rw [h.blobs]
      rfl

theorem createIndex (h : s.Blank) (column analyzer : String) (kind : IndexKind) :
    (s.step u name (.table (.createIndex column analyzer kind))).Blank := by
  unfold Site.step Site.run
  dsimp only
  cases hcreate : s.table.bind fun t => s.engine.createIndex t name column analyzer kind with
  | none => exact h
  | some e =>
    obtain ⟨t, -, hcreate⟩ := Option.bind_eq_some_iff.mp hcreate
    obtain ⟨ordinal, -, rfl⟩ := Option.map_eq_some_iff.mp hcreate
    refine ⟨h.rows, ?_, h.blobs⟩
    intro d hd
    rcases mem_install.mp hd with ⟨hd, -⟩ | rfl
    · exact h.segments d hd
    · rfl

theorem declare (h : s.Blank) (indexes : List (String × String × IndexKind)) :
    s.CarefulRun u name (indexes.map fun i => .table (.createIndex i.1 i.2.1 i.2.2)) := by
  induction indexes generalizing s with
  | nil => trivial
  | cons i rest ih => exact ⟨h.careful i.1 i.2.1 i.2.2, ih (h.createIndex i.1 i.2.1 i.2.2)⟩

end Site.Blank

theorem Site.declared_follows (columns : List String) (pkColumn : String)
    (indexes : List (String × String × IndexKind)) :
    (Site.declared u name columns pkColumn indexes).Follows u name := by
  apply (Site.Follows.start u name).play
  refine ⟨?_, (Site.Blank.create u name columns pkColumn).declare indexes⟩
  exact fun _ _ hd => absurd hd List.not_mem_nil

/-- While the indexes take what is committed, and no indexed column is dropped, every index
finds exactly the texts of its column under their keys. -/
theorem Site.maintained (u : Unicode) (name : String) (columns : List String) (pkColumn : String)
    (indexes : List (String × String × IndexKind)) (events : List Maintenance)
    (hcareful : (Site.declared u name columns pkColumn indexes).CarefulRun u name
      (events.map Maintenance.event)) :
    ((Site.declared u name columns pkColumn indexes).play u name
      (events.map Maintenance.event)).Exact u :=
  ((Site.declared_follows columns pkColumn indexes).play hcareful).exact

namespace MaintenanceExample

open LikeExample

def docs : Site := Site.declared ascii "docs" ["id", "body"] "id" [("body", "english", .fulltext)]

def row (text : GValue) : List GValue := [.other "1", text]

def insert : Maintenance := .commit [(1, some (row (.str "draft")))]

def update : Maintenance := .commit [(1, some (row (.str "final")))]

def clear : Maintenance := .commit [(1, some (row (.other "NULL")))]

/-- The index is sealed before the update, and then the row is deleted. -/
def maintained : List Maintenance :=
  [insert, .sealIndex ⟨"docs", "body", .fulltext⟩ .finished, update, .commit [(1, none)]]

theorem careful_maintained : docs.CarefulRun ascii "docs" (maintained.map Maintenance.event) := by
  refine ⟨?_, trivial, ?_, ?_, trivial⟩
  · rintro t ⟨⟩
    refine ⟨?_, fun _ _ => trivial⟩
    intro d hd
    obtain rfl := List.mem_singleton.mp hd
    exact ⟨Finset.notMem_empty 1, rfl⟩
  · rintro t ⟨⟩
    refine ⟨?_, fun _ _ => trivial⟩
    intro d hd
    obtain rfl := List.mem_singleton.mp hd
    exact ⟨Finset.notMem_empty 1, rfl⟩
  · rintro t ⟨⟩
    refine ⟨?_, fun _ _ => trivial⟩
    intro d hd
    trivial

theorem maintained_deleted :
    (docs.play ascii "docs" (maintained.map Maintenance.event)).Exact ascii :=
  Site.maintained ascii "docs" ["id", "body"] "id" [("body", "english", .fulltext)] maintained
    careful_maintained

/-- The old text is found. -/
theorem cleared_not_exact : ¬ ∀ events : List Maintenance,
    (docs.play ascii "docs" (events.map Maintenance.event)).Exact ascii := by
  intro h
  have hexact := h [insert, clear] _ List.mem_cons_self 1 "draft"
  obtain ⟨text, htext, -⟩ := hexact.mp (Or.inl ⟨List.mem_cons_self, Finset.notMem_empty 1⟩)
  cases htext

end MaintenanceExample

end BlueDB.Fts
