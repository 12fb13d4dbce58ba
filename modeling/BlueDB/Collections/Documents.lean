import BlueDB.Collections.IndexRuns

/-!
# The documents of the collections

What each statement and each request makes of the documents. A request on a collection
leaves the documents of the others as they are, unless one of them has the name of a side
table, and no two documents of a collection ever have one `_id`.
-/

namespace BlueDB.Collections

variable {F : Type} {K : Crates F} {t t' : Tenant F}

/-- The documents with the `_id`s of their rows. -/
abbrev Docs (F : Type) := List (String × Json F)

def docsIn : Option (Table F) → Docs F
  | some (.documents _ rows) => rows.map fun row => (row.id, row.doc)
  | _ => []

def docsOf (t : Tenant F) (name : String) : Docs F := docsIn (t.tables.get name)

def UniqueIds (t : Tenant F) : Prop := ∀ n, ((docsOf t n).map Prod.fst).Nodup

def rowsOf (t : Tenant F) (name : String) : List (DocRow F) :=
  match t.tables.get name with
  | some (.documents _ rows) => rows
  | _ => []

/-- The rows that an update reads. -/
def matchedRows (K : Crates F) (t : Tenant F) (coll : String) (query : Query) (multi : Bool) :
    List (DocRow F) :=
  limited multi (query.ids.filterMap fun id =>
    (rowsOf t (query.source K coll)).find? (·.id == id))

theorem docsOf_eq (t : Tenant F) (name : String) :
    docsOf t name = (rowsOf t name).map fun row => (row.id, row.doc) := by
  unfold docsOf docsIn rowsOf
  cases t.tables.get name with
  | none => rfl
  | some content => cases content <;> rfl

/-- The statement changes the documents of one table. -/
structure Edits (n : String) (g : Docs F → Docs F) (t t' : Tenant F) : Prop where
  here : docsOf t' n = g (docsOf t n)
  others : ∀ m, m ≠ n → docsOf t' m = docsOf t m

theorem Edits.put {n : String} {g : Docs F → Docs F} {content : Table F}
    (h : docsIn (some content) = g (docsOf t n)) :
    Edits n g t { t with tables := t.tables.insert n content } := by
  constructor
  · unfold docsOf at h ⊢
    rw [OrderedMap.get_insert, if_pos rfl]
    exact h
  · intro m hm
    unfold docsOf
    rw [OrderedMap.get_insert, if_neg hm]

theorem Edits.refl (n : String) (t : Tenant F) : Edits n id t t := ⟨rfl, fun _ _ => rfl⟩

theorem createTable_edits {n : String} {content : Table F} (h : docsIn (some content) = []) :
    Holds (createTable n content) t (fun _ => Edits n id t) fun _ _ => False := by
  unfold createTable
  rw [Holds.bind_iff, holds_table]
  cases hn : t.tables.get n with
  | some _ => exact Edits.refl n t
  | none =>
    apply Edits.put
    unfold docsOf
    rw [hn, h]
    rfl

theorem addColumn_edits (n : String) (column : Column) :
    Holds (addColumn n column) t (fun _ => Edits n id t) fun _ t' => t' = t := by
  unfold addColumn
  rw [Holds.bind_iff, holds_table]
  split
  · next columns rows hn =>
    split
    · exact rfl
    · apply Edits.put
      unfold docsOf
      rw [hn]
      unfold docsIn
      dsimp only
      rw [List.map_map]
      rfl
  · exact rfl

/-- The changed documents under the `_id`s they had. -/
def changeDocs (id : String) (g : Json F → Json F) (docs : Docs F) : Docs F :=
  docs.map fun p => if p.1 = id then (p.1, g p.2) else p

theorem updateRow_edits (n id : String) {f : DocRow F → DocRow F} {g : Json F → Json F}
    (hf : ∀ row, (f row).id = row.id ∧ (f row).doc = g row.doc) :
    Holds (updateRow K n id f) t (fun _ => Edits n (changeDocs id g) t) fun _ t' => t' = t := by
  unfold updateRow
  rw [Holds.bind_iff, holds_table]
  split
  · next columns rows hn =>
    split
    · apply Edits.put
      unfold docsOf
      rw [hn]
      unfold docsIn changeRow changeDocs
      dsimp only
      rw [List.map_map, List.map_map]
      apply List.map_congr_left
      intro row _
      dsimp only [Function.comp_apply]
      split
      · rw [(hf row).1, (hf row).2]
      · rfl
    · exact rfl
  · exact rfl
  · exact rfl

theorem insertRow_edits (n : String) (row : DocRow F) :
    Holds (insertRow K n row) t
      (fun _ t' => row.id ∉ (docsOf t n).map Prod.fst ∧
        Edits n (fun docs => docs ++ [(row.id, row.doc)]) t t')
      fun _ t' => t' = t := by
  unfold insertRow
  rw [Holds.bind_iff, holds_table]
  split
  · next columns rows hn =>
    split
    · exact rfl
    · next hid =>
      split
      · refine ⟨?_, Edits.put ?_⟩
        · unfold docsOf docsIn
          rw [hn]
          dsimp only
          rw [List.map_map]
          intro hmem
          obtain ⟨row', hrow', heq⟩ := List.mem_map.mp hmem
          exact hid (List.any_eq_true.mpr ⟨row', hrow', beq_iff_eq.mpr heq⟩)
        · unfold docsOf
          rw [hn]
          unfold docsIn
          exact List.map_append
      · exact rfl
  · exact rfl
  · exact rfl

def removeDocs (ids : List String) (docs : Docs F) : Docs F :=
  docs.filter fun p => !decide (p.1 ∈ ids)

theorem deleteById_edits (n id : String) :
    Holds (deleteById n id) t (fun _ => Edits n (removeDocs [id]) t)
      fun _ t' => t' = t := by
  unfold deleteById
  rw [Holds.bind_iff, holds_table]
  split
  · next columns rows hn =>
    apply Edits.put
    unfold docsOf
    rw [hn]
    unfold docsIn removeDocs
    dsimp only
    rw [List.filter_map]
    congr 1
    apply List.filter_congr
    intro row _
    change (!(row.id == id)) = !decide (row.id ∈ [id])
    congr 1
    rw [Bool.eq_iff_iff, beq_iff_eq, decide_eq_true_iff, List.mem_singleton]
  · next rows hn =>
    apply Edits.put
    unfold docsOf
    rw [hn]
    rfl
  · exact rfl

theorem insertSideRow_edits (n : String) (row : SideRow) :
    Holds (insertSideRow n row) t (fun _ => Edits n id t) fun _ t' => t' = t := by
  unfold insertSideRow
  rw [Holds.bind_iff, holds_table]
  split
  · next rows hn =>
    apply Edits.put
    unfold docsOf
    rw [hn]
    rfl
  · exact rfl
  · exact rfl

/-- The documents of these collections stay, and `_id`s stay unique. -/
structure Stays (S : String → Prop) (t t' : Tenant F) : Prop where
  docs : ∀ m, S m → docsOf t' m = docsOf t m
  unique : UniqueIds t → UniqueIds t'

theorem Stays.refl (S : String → Prop) (t : Tenant F) : Stays S t t :=
  ⟨fun _ _ => rfl, fun h => h⟩

theorem Stays.trans {S : String → Prop} {t'' : Tenant F} (h : Stays S t t')
    (h' : Stays S t' t'') : Stays S t t'' :=
  ⟨fun m hm => (h'.docs m hm).trans (h.docs m hm), fun hunique => h'.unique (h.unique hunique)⟩

theorem stays_tracks (S : String → Prop) :
    Tracks (Stays (F := F) S) (fun (_ : CollError) => Stays S) :=
  ⟨Stays.refl S, Stays.trans, Stays.trans⟩

/-- The program keeps what stays, whether it fails or not. -/
abbrev Staying {α : Type} (S : String → Prop) (x : CollM F α) : Prop :=
  Along (Stays S) (fun _ => Stays S) x

variable {S : String → Prop}

theorem Edits.stays {n : String} {g : Docs F → Docs F} (h : Edits n g t t') (hn : ¬S n)
    (hg : ((docsOf t n).map Prod.fst).Nodup → ((g (docsOf t n)).map Prod.fst).Nodup) :
    Stays S t t' := by
  constructor
  · intro m hm
    apply h.others
    rintro rfl
    exact hn hm
  · intro hunique m
    by_cases hm : m = n
    · subst hm
      rw [h.here]
      exact hg (hunique m)
    · rw [h.others m hm]
      exact hunique m

theorem Edits.stays_id {n : String} (h : Edits n id t t') : Stays S t t' := by
  have hdocs : ∀ m, docsOf t' m = docsOf t m := by
    intro m
    by_cases hm : m = n
    · subst hm
      exact h.here
    · exact h.others m hm
  refine ⟨fun m _ => hdocs m, ?_⟩
  intro hunique m
  rw [hdocs m]
  exact hunique m

theorem Stays.of_eq (h : t' = t) : Stays S t t' := h ▸ Stays.refl S t

theorem changeDocs_ids (id : String) (g : Json F → Json F) (docs : Docs F) :
    (changeDocs id g docs).map Prod.fst = docs.map Prod.fst := by
  unfold changeDocs
  rw [List.map_map]
  apply List.map_congr_left
  intro p _
  dsimp only [Function.comp_apply]
  split <;> rfl

theorem staying_deleteById {n : String} (hn : ¬S n) (id : String) :
    Staying S (deleteById (F := F) n id) := by
  constructor
  intro t
  apply (deleteById_edits n id).mono
  · intro _ _ hedits
    apply hedits.stays hn
    intro hids
    exact hids.sublist (List.filter_sublist.map _)
  · intro _ _ heq
    exact Stays.of_eq heq

variable [Sums F]

theorem staying_insertElements (n id : String) (items : List (Json F)) :
    Staying S (insertMultikeyElements n id items) := by
  apply Along.forM (stays_tracks S)
  intro val _
  constructor
  intro t
  apply (insertSideRow_edits n ⟨id, val⟩).mono
  · intro _ _ hedits
    exact hedits.stays_id
  · intro _ _ heq
    exact Stays.of_eq heq

end BlueDB.Collections
