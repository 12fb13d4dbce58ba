import BlueDB.Collections.Documents
import BlueDB.Collections.Identity
import BlueDB.Collections.IndexMatch

/-!
# Identified documents

The `_id` of every stored document is the key of its row as long as every update keeps
the `_id`s of the documents it matches.
-/

namespace BlueDB.Collections

variable {F : Type}

/-- The `_id` of a document is the key of its row. -/
def Named (p : String × Json F) : Prop := p.2.get "_id" = some (.string p.1)

/-- Every document has its own `_id`, which is the key of its row. -/
structure Identified (t : Tenant F) : Prop where
  unique : UniqueIds t
  named : ∀ n, ∀ p ∈ docsOf t n, Named p

theorem Identified.docs_nodup {t : Tenant F} (h : Identified t) (n : String) :
    ((docsOf t n).map fun p => p.2.get "_id").Nodup := by
  have hmap : ((docsOf t n).map fun p => p.2.get "_id") =
      ((docsOf t n).map Prod.fst).map fun id => some (Json.string id) := by
    rw [List.map_map]
    exact List.map_congr_left fun p hp => h.named n p hp
  rw [hmap]
  apply (h.unique n).map
  intro a b hab
  cases hab
  rfl

theorem identified_empty : Identified (Tenant.empty : Tenant F) :=
  ⟨fun _ => List.nodup_nil, fun _ _ hp => absurd hp (List.not_mem_nil)⟩

def KeepsIds (t t' : Tenant F) : Prop := Identified t → Identified t'

theorem keepsIds_tracks : Tracks (KeepsIds (F := F)) (fun (_ : CollError) => KeepsIds) :=
  ⟨fun _ h => h, fun h h' hs => h' (h hs), fun h h' hs => h' (h hs)⟩

/-- The program keeps the documents identified, whether it fails or not. -/
abbrev Identifying {α : Type} (x : CollM F α) : Prop := Along KeepsIds (fun _ => KeepsIds) x

theorem identifying_throw {α : Type} (e : CollError) : Identifying (throw e : CollM F α) :=
  Along.throw fun s => keepsIds_tracks.refl s

section Statements

variable {K : Crates F}

theorem KeepsIds.of_eq {t t' : Tenant F} (h : t' = t) : KeepsIds t t' := by
  rw [h]
  exact fun hs => hs

theorem Edits.keepsIds {t t' : Tenant F} {n : String} {g : Docs F → Docs F} (h : Edits n g t t')
    (hids : ((docsOf t n).map Prod.fst).Nodup → ((g (docsOf t n)).map Prod.fst).Nodup)
    (hnamed : (∀ p ∈ docsOf t n, Named p) → ∀ p ∈ g (docsOf t n), Named p) : KeepsIds t t' := by
  intro hs
  refine ⟨(h.stays (S := fun _ => False) (fun hn => hn) hids).unique hs.unique, ?_⟩
  intro m
  by_cases hm : m = n
  · subst hm
    rw [h.here]
    exact hnamed (hs.named m)
  · rw [h.others m hm]
    exact hs.named m

theorem Edits.keepsIds_id {t t' : Tenant F} {n : String} (h : Edits n id t t') : KeepsIds t t' :=
  h.keepsIds (fun hids => hids) (fun hnamed => hnamed)

theorem identifying_read {α : Type} {x : CollM F α}
    (h : ∀ s, Holds x s (fun _ s' => s' = s) fun _ s' => s' = s) : Identifying x :=
  ⟨fun s => (h s).mono (fun _ _ heq => .of_eq heq) (fun _ _ heq => .of_eq heq)⟩

theorem identifying_createTable {n : String} {content : Table F}
    (h : docsIn (some content) = []) : Identifying (createTable n content) := by
  constructor
  intro _
  apply (createTable_edits h).mono
  · intro _ _ hedits
    exact hedits.keepsIds_id
  · intro _ _ hfalse
    exact hfalse.elim

theorem identifying_addColumn (n : String) (column : Column) :
    Identifying (addColumn (F := F) n column) :=
  ⟨fun _ => (addColumn_edits n column).mono (fun _ _ hedits => hedits.keepsIds_id)
    (fun _ _ heq => .of_eq heq)⟩

theorem identifying_insertRow (n : String) {row : DocRow F} (hrow : Named (row.id, row.doc)) :
    Identifying (insertRow K n row) := by
  refine ⟨fun _ => ?_⟩
  apply (insertRow_edits n row).mono
  · rintro _ _ ⟨hnew, hedits⟩
    apply hedits.keepsIds
    · intro hids
      rw [List.map_append]
      exact hids.append (List.nodup_singleton _) (List.disjoint_singleton.mpr hnew)
    · intro hnamed p hp
      rcases List.mem_append.mp hp with hold | hlast
      · exact hnamed p hold
      · rw [List.mem_singleton.mp hlast]
        exact hrow
  · intro _ _ heq
    exact .of_eq heq

theorem identifying_updateDoc (n id : String) {doc : Json F} (hdoc : Named (id, doc))
    {f : DocRow F → DocRow F} (hf : ∀ row, (f row).id = row.id ∧ (f row).doc = doc) :
    Identifying (updateRow K n id f) := by
  constructor
  intro t
  apply (updateRow_edits (g := fun _ => doc) n id hf).mono
  · intro _ _ hedits
    apply hedits.keepsIds
    · rw [changeDocs_ids]
      exact fun hids => hids
    · intro hnamed p hp
      obtain ⟨q, hq, rfl⟩ := List.mem_map.mp hp
      split
      · next hid =>
        rw [hid]
        exact hdoc
      · exact hnamed q hq
  · intro _ _ heq
    exact .of_eq heq

/-- A change of the index columns is none of the documents. -/
theorem identifying_updateCells (n id : String) {f : DocRow F → DocRow F}
    (hf : ∀ row, (f row).id = row.id ∧ (f row).doc = row.doc) :
    Identifying (updateRow K n id f) := by
  constructor
  intro t
  apply (updateRow_edits (g := fun doc => doc) n id hf).mono
  · intro _ _ hedits
    have hsame : changeDocs id (fun doc => doc) (docsOf t n) = docsOf t n := by
      unfold changeDocs
      simp
    apply hedits.keepsIds
    · rw [hsame]
      exact fun hids => hids
    · rw [hsame]
      exact fun hnamed => hnamed
  · intro _ _ heq
    exact .of_eq heq

theorem identifying_deleteById (n id : String) : Identifying (deleteById (F := F) n id) := by
  constructor
  intro _
  apply (deleteById_edits n id).mono
  · intro _ _ hedits
    apply hedits.keepsIds
    · intro hids
      exact hids.sublist (List.filter_sublist.map _)
    · intro hnamed p hp
      exact hnamed p (List.mem_of_mem_filter hp)
  · intro _ _ heq
    exact .of_eq heq

theorem identifying_insertSideRow (n : String) (row : SideRow) :
    Identifying (insertSideRow (F := F) n row) :=
  ⟨fun _ => (insertSideRow_edits n row).mono (fun _ _ hedits => hedits.keepsIds_id)
    (fun _ _ heq => .of_eq heq)⟩

end Statements

section Requests

theorem identifying_ensureCollection (c : String) : Identifying (ensureCollection (F := F) c) :=
  identifying_createTable rfl

theorem identifying_checkIdent (c : String) : Identifying (checkIdent (F := F) c) := by
  unfold checkIdent
  split
  · exact Along.pure keepsIds_tracks _
  · exact identifying_throw _

theorem identifying_table (n : String) : Identifying (table (F := F) n) :=
  identifying_read fun s => (rfl : s = s)

theorem identifying_sideTables (c : String) : Identifying (multikeySideTables (F := F) c) :=
  identifying_read fun s => (rfl : s = s)

theorem identifying_scanRows {K : Crates F} (c : String) : Identifying (scanRows K c) := by
  apply Along.bind keepsIds_tracks (identifying_table _)
  intro content
  split
  · exact Along.pure keepsIds_tracks _
  · exact identifying_throw _

theorem identifying_documentRows (c : String) : Identifying (documentRows (F := F) c) := by
  apply Along.bind keepsIds_tracks (identifying_table _)
  intro content
  split <;> exact Along.pure keepsIds_tracks _

theorem identifying_idsOf (c : String) : Identifying (idsOf (F := F) c) := by
  apply Along.bind keepsIds_tracks (identifying_table _)
  intro content
  split <;> exact Along.pure keepsIds_tracks _

theorem identifying_ensureSide (n : String) :
    Identifying (ensureMultikeySideTable (F := F) n) := by
  apply Along.bind keepsIds_tracks (identifying_createTable rfl)
  intro _
  apply Along.bind keepsIds_tracks (identifying_table _)
  intro content
  split
  · exact Along.pure keepsIds_tracks _
  · exact identifying_throw _

theorem identifying_record (c : String) (m : Made) : Identifying (record (F := F) c m) :=
  Along.modify fun _ h => ⟨h.unique, h.named⟩

theorem identifying_registerExpiry (c path : String) (seconds : Option ℤ) :
    Identifying (registerExpiry (F := F) c path seconds) := by
  cases seconds with
  | none => exact Along.pure keepsIds_tracks _
  | some seconds =>
    change Identifying (registerTtl c path seconds)
    unfold registerTtl
    split
    · exact identifying_throw _
    · exact Along.modify fun _ h => ⟨h.unique, h.named⟩

theorem identifying_delete {K : Crates F} (c : String) (query : Query) (multi : Bool) :
    Identifying (delete K c query multi) := by
  apply Along.bind keepsIds_tracks (identifying_checkIdent c)
  intro _
  apply Along.bind keepsIds_tracks (identifying_idsOf _)
  intro stored
  apply Along.forM keepsIds_tracks
  intro id _
  apply Along.bind keepsIds_tracks
  · apply Along.bind keepsIds_tracks (identifying_sideTables c)
    intro sides
    apply Along.forM keepsIds_tracks
    intro side _
    exact identifying_deleteById side.1 id
  intro _
  exact identifying_deleteById c id

theorem identifying_backfill {K : Crates F} (c column : String) (value : Json F → Option (Scalar F))
    (rows : List (DocRow F)) : Identifying (backfill K c column value rows) := by
  apply Along.forM keepsIds_tracks
  intro row _
  cases value row.doc with
  | none => exact Along.pure keepsIds_tracks _
  | some v => exact identifying_updateCells c row.id fun _ => ⟨rfl, rfl⟩

theorem rows_viewOf (t : Tenant F) (c : String) : (viewOf t c).rows = rowsOf t c := by
  unfold viewOf rowsOf
  cases t.tables.get c with
  | none => rfl
  | some content => cases content <;> rfl

theorem matchedRows_named {K : Crates F} {t : Tenant F} (ht : Identified t) {c : String}
    {query : Query}
    {multi : Bool} {row : DocRow F} (hrow : row ∈ matchedRows K t c query multi) :
    Named (row.id, row.doc) := by
  obtain ⟨id, _, hfind⟩ := List.mem_filterMap.mp (mem_limited hrow)
  apply ht.named (query.source K c)
  rw [docsOf_eq]
  exact List.mem_map_of_mem (f := fun row => (row.id, row.doc)) (List.mem_of_find?_eq_some hfind)

variable [Sums F] {K : Crates F}

omit [Sums F] in
theorem identifying_indexedColTypes (c : String) : Identifying (indexedColTypes (F := F) c) :=
  identifying_read fun _ => holds_indexedColTypes.mpr rfl

omit [Sums F] in
theorem identifying_compoundColDefs (c : String) : Identifying (compoundColDefs (F := F) c) :=
  identifying_read fun _ => holds_compoundColDefs.mpr rfl

theorem identifying_insertElements (n id : String) (items : List (Json F)) :
    Identifying (insertMultikeyElements n id items) := by
  apply Along.forM keepsIds_tracks
  intro val _
  exact identifying_insertSideRow n ⟨id, val⟩

theorem identifying_writeFullDoc (c : String) (doc : Json F) (dcols : List (String × IndexType))
    (cdefs : List (String × List String)) : Identifying (writeFullDoc K c doc dcols cdefs) := by
  unfold writeFullDoc
  split
  · next id hid =>
    apply Along.bind keepsIds_tracks 
      (@identifying_insertRow _ _ c ⟨id, doc, assign (assignments doc dcols cdefs) fun _ => .null⟩
        hid)
    intro _
    apply Along.bind keepsIds_tracks (identifying_sideTables c)
    intro sides
    apply Along.forM keepsIds_tracks
    intro side _
    exact identifying_insertElements side.1 id _
  · exact identifying_throw _

theorem identifying_rewriteDocRow (c id : String) {doc : Json F} (hdoc : Named (id, doc))
    (dcols : List (String × IndexType)) (cdefs : List (String × List String)) :
    Identifying (rewriteDocRow K c id doc dcols cdefs) := by
  unfold rewriteDocRow
  apply Along.bind keepsIds_tracks
  · exact identifying_updateDoc c id hdoc fun row => ⟨rfl, rfl⟩
  intro _
  apply Along.bind keepsIds_tracks (identifying_sideTables c)
  intro sides
  apply Along.forM keepsIds_tracks
  intro side _
  apply Along.bind keepsIds_tracks (identifying_deleteById side.1 id)
  intro _
  exact identifying_insertElements side.1 id _

theorem identifying_insert (c : String) (docs : List (Json F × String)) :
    Identifying (insert K c docs) := by
  apply Along.bind keepsIds_tracks (identifying_checkIdent c)
  intro _
  split
  · exact Along.pure keepsIds_tracks _
  · apply Along.bind keepsIds_tracks (identifying_ensureCollection c)
    intro _
    apply Along.bind keepsIds_tracks (identifying_indexedColTypes c)
    intro dcols
    apply Along.bind keepsIds_tracks (identifying_compoundColDefs c)
    intro cdefs
    apply Along.forM keepsIds_tracks
    intro d _
    unfold insertDoc
    split
    · exact identifying_writeFullDoc c _ dcols cdefs
    · exact identifying_throw _

theorem identifying_updateRow_doc (c : String) {upd : Json F} {row : DocRow F}
    (hrow : Named (row.id, row.doc)) (hkeeps : KeepsId row.id upd)
    (dcols : List (String × IndexType)) (cdefs : List (String × List String)) :
    Identifying (updateDoc K c upd dcols cdefs row) := by
  constructor
  intro t
  unfold updateDoc
  rw [Holds.bind_iff]
  cases happly : applyUpdate row.doc upd with
  | error e => exact fun h => h
  | ok fields =>
    change Holds (if (Json.object fields).same row.doc then _ else _) t _ _
    split_ifs
    · exact fun h => h
    · obtain ⟨id, doc, cells⟩ := row
      cases doc with
      | object old =>
        have hnamed : Named (id, Json.object fields) := (applyUpdate_id hrow happly).mpr hkeeps
        exact (identifying_rewriteDocRow c id hnamed dcols cdefs).holds t
      | _ => cases hrow

theorem identifying_upsert (c : String) (unmatched upsert : Bool) (upd : Json F) (fresh : String)
    (dcols : List (String × IndexType)) (cdefs : List (String × List String)) :
    Identifying (if unmatched && upsert then do
      ensureCollection c
      let fields ← liftMql (applyUpdate (.object []) upd)
      writeFullDoc K c (.object (ensureId fresh fields).1) dcols cdefs
    else pure ⟨⟩) := by
  split
  · apply Along.bind keepsIds_tracks (identifying_ensureCollection c)
    intro _
    apply Along.bind keepsIds_tracks
    · cases applyUpdate (.object []) upd with
      | error e => exact identifying_throw _
      | ok fields => exact Along.pure keepsIds_tracks fields
    intro fields
    exact identifying_writeFullDoc c _ dcols cdefs
  · exact Along.pure keepsIds_tracks _

theorem update_identified {t : Tenant F} (ht : Identified t) {c : String} {query : Query}
    {multi upsert : Bool} {upd : Json F} {fresh : String}
    (hkeeps : ∀ row ∈ matchedRows K t c query multi, KeepsId row.id upd) :
    Holds (update K c query multi upsert upd fresh) t (fun _ => Identified)
      fun _ => Identified := by
  have hrows : Identifying ((matchedRows K t c query multi).forM
      (updateDoc K c upd (columnTypes (viewOf t c).columns)
        (compoundDefs (viewOf t c).columns))) := by
    apply Along.forM keepsIds_tracks
    intro row hrow
    exact identifying_updateRow_doc c (matchedRows_named ht hrow) (hkeeps row hrow) _ _
  unfold update
  rw [Holds.bind_iff]
  unfold checkIdent
  split
  · rw [Holds.pure_iff, Holds.bind_iff, holds_indexedColTypes, Holds.bind_iff,
      holds_compoundColDefs, Holds.bind_iff, holds_documentRows, rows_viewOf]
    have hall := Along.bind keepsIds_tracks hrows fun _ =>
      identifying_upsert (K := K) c (matchedRows K t c query multi).isEmpty upsert upd fresh
        (columnTypes (viewOf t c).columns) (compoundDefs (viewOf t c).columns)
    exact (hall.holds t).mono (fun _ _ h => h ht) (fun _ _ h => h ht)
  · exact ht

theorem identifying_createCompoundIndex (c : String) (paths : List String) (unique : Bool) :
    Identifying (createCompoundIndex K c paths unique) := by
  unfold createCompoundIndex
  extract_lets column fill create
  have hfill : ∀ u, Identifying (fill u) := by
    intro _
    apply Along.bind keepsIds_tracks (identifying_scanRows c)
    intro rows
    apply Along.bind keepsIds_tracks (identifying_backfill c _ _ rows)
    intro _
    exact identifying_record c _
  have hcreate : ∀ u, Identifying (create u) := by
    intro _
    apply Along.bind keepsIds_tracks (identifying_compoundColDefs c)
    intro existing
    split
    · exact hfill ⟨⟩
    · apply Along.bind keepsIds_tracks (identifying_addColumn c _)
      intro _
      exact Along.bind keepsIds_tracks (identifying_record c _) hfill
  split
  · exact Along.bind keepsIds_tracks (identifying_throw _) hcreate
  · exact hcreate ⟨⟩

theorem identifying_createMultikeyIndex (c path : String) (rows : List (DocRow F)) :
    Identifying (createMultikeyIndex c path rows) := by
  unfold createMultikeyIndex
  extract_lets side fill
  have hfill : ∀ u, Identifying (fill u) := by
    intro _
    apply Along.bind keepsIds_tracks (identifying_ensureSide _)
    intro _
    apply Along.bind keepsIds_tracks
    · apply Along.forM keepsIds_tracks
      intro row _
      cases field row.doc path with
      | none => exact Along.pure keepsIds_tracks _
      | some v =>
        apply Along.bind keepsIds_tracks (identifying_deleteById _ row.id)
        intro _
        exact identifying_insertElements _ row.id _
    intro _
    exact identifying_record c _
  split
  · exact Along.bind keepsIds_tracks (identifying_throw _) hfill
  · exact hfill ⟨⟩

theorem identifying_createPathIndex (c path : String) (options : IndexOptions)
    (rows : List (DocRow F)) : Identifying (createPathIndex K c path options rows) := by
  unfold createPathIndex
  apply Along.bind keepsIds_tracks (identifying_indexedColTypes c)
  intro existing
  extract_lets fill
  have hfill : ∀ u, Identifying (fill u) := by
    intro _
    apply Along.bind keepsIds_tracks (identifying_indexedColTypes c)
    intro types
    apply Along.bind keepsIds_tracks (identifying_backfill c _ _ rows)
    intro _
    apply Along.bind keepsIds_tracks (identifying_registerExpiry c path _)
    intro _
    exact identifying_record c _
  split
  · exact hfill ⟨⟩
  · apply Along.bind keepsIds_tracks (Along.ofExcept keepsIds_tracks fun _ _ s =>
      keepsIds_tracks.refl s)
    intro type
    apply Along.bind keepsIds_tracks (identifying_addColumn c _)
    intro _
    exact Along.bind keepsIds_tracks (identifying_record c _) hfill

theorem identifying_createIndex (c : String) (keys : List String) (options : IndexOptions) :
    Identifying (createIndex K c keys options) := by
  unfold createIndex
  apply Along.bind keepsIds_tracks (identifying_checkIdent c)
  intro _
  split
  · exact identifying_throw _
  · apply Along.bind keepsIds_tracks (identifying_ensureCollection c)
    intro _
    extract_lets create
    have hcreate : ∀ u, Identifying (create u) := by
      intro _
      apply Along.bind keepsIds_tracks (identifying_scanRows c)
      intro rows
      split
      · exact identifying_createMultikeyIndex c _ rows
      · exact identifying_createPathIndex c _ options rows
    split
    · exact hcreate ⟨⟩
    · exact Along.bind keepsIds_tracks (identifying_throw _) hcreate
  · apply Along.bind keepsIds_tracks (identifying_ensureCollection c)
    intro _
    exact identifying_createCompoundIndex c _ _

theorem identifying_sweepAllTtl (now : ℤ) : Identifying (sweepAllTtl K now) := by
  unfold sweepAllTtl
  apply Along.bind keepsIds_tracks (Along.get keepsIds_tracks)
  intro t
  apply Along.forM keepsIds_tracks
  rintro ⟨c, path, seconds⟩ _
  have hsweep : Identifying (sweepTtl K c path seconds now) := by
    apply Along.bind keepsIds_tracks (identifying_documentRows _)
    intro rows
    apply Along.forM keepsIds_tracks
    intro row _
    split
    · exact identifying_deleteById c row.id
    · exact Along.pure keepsIds_tracks _
  constructor
  intro s
  rw [Holds.tryCatch_iff]
  exact hsweep.holds s

/-- An update keeps the `_id`s of the documents that it matches. -/
def Keeping (K : Crates F) (t : Tenant F) : Request F → Prop
  | .update c query multi _ upd _ => ∀ row ∈ matchedRows K t c query multi, KeepsId row.id upd
  | _ => True

theorem serve_identified {t : Tenant F} (ht : Identified t) {r : Request F} (hr : Keeping K t r) :
    Identified (serve K t r) := by
  have hafter : ∀ {x : CollM F PUnit}, Identifying x → Identified (stateAfter (x t)) :=
    fun hx => hx.stateAfter t ht
  cases r with
  | createIndex c keys options => exact hafter (identifying_createIndex c keys options)
  | insert c docs => exact hafter (identifying_insert c docs)
  | delete c query multi => exact hafter (identifying_delete c query multi)
  | sweep now => exact hafter (identifying_sweepAllTtl now)
  | update c query multi upsert upd fresh =>
    have h := @update_identified _ _ _ _ ht _ _ _ upsert _ fresh hr
    change Identified (stateAfter (update K c query multi upsert upd fresh t))
    unfold Holds at h
    cases hres : update K c query multi upsert upd fresh t with
    | ok a t' =>
      rw [hres] at h
      exact h
    | error e t' =>
      rw [hres] at h
      exact h

/-- The tenant after a list of requests, each of them from the state that the ones before left. -/
def serveAll (K : Crates F) (t : Tenant F) (requests : List (Request F)) : Tenant F :=
  requests.foldl (serve K) t

/-- Every update of the run keeps `_id`s. -/
def AlwaysKeeping (K : Crates F) (t : Tenant F) : List (Request F) → Prop
  | [] => True
  | r :: requests => Keeping K t r ∧ AlwaysKeeping K (serve K t r) requests

theorem serveAll_identified {t : Tenant F} (ht : Identified t) {requests : List (Request F)}
    (h : AlwaysKeeping K t requests) : Identified (serveAll K t requests) := by
  induction requests generalizing t with
  | nil => exact ht
  | cons r requests ih => exact ih (serve_identified ht h.1) h.2

/-- An update that succeeds keeps the text `_id` of a document if and only if it has no operators,
or the last of its operators that names `_id` with a `$set`, `$unset` or `$inc` sets it to what it
was; and while updates do, every stored document has the key of its row as its `_id`, and no two
of a collection have the same one. -/
theorem ids_stable (K : Crates F) :
    (∀ (id : String) (fields : Fields F) (upd : Json F) (fields' : Fields F),
      fields.lookup "_id" = some (.string id) → applyUpdate (.object fields) upd = .ok fields' →
      (fields'.lookup "_id" = some (.string id) ↔ KeepsId id upd)) ∧
    ∀ requests : List (Request F), AlwaysKeeping K .empty requests →
      ∀ n, (∀ p ∈ docsOf (serveAll K .empty requests) n, p.2.get "_id" = some (.string p.1)) ∧
        ((docsOf (serveAll K .empty requests) n).map fun p => p.2.get "_id").Nodup := by
  constructor
  · intro id fields upd fields' hid happly
    exact applyUpdate_id hid happly
  · intro requests hkeeping n
    have h := serveAll_identified identified_empty hkeeping
    exact ⟨h.named n, h.docs_nodup n⟩

end Requests

namespace Example

def named (id : String) : Json ℤ := .object [("_id", .string id)]

/-- `{"$set": {"_id": id}}` -/
def setId (id : String) : Json ℤ := .object [("$set", .object [("_id", .string id)])]

def updateOf (id : String) (upd : Json ℤ) : Request ℤ :=
  .update "users" ⟨[id], false⟩ false false upd ""

/-- Two users, one of which is set to the `_id` that it has. -/
def twoUsers : List (Request ℤ) :=
  [.insert "users" [(named "a", ""), (named "b", "")], updateOf "a" (setId "a")]

theorem ids_stable_twoUsers :
    (([("_id", .string "a")] : Fields ℤ).lookup "_id" = some (.string "a") ↔
      KeepsId "a" (setId "a")) ∧
    ((docsOf (serveAll crates .empty twoUsers) "users").map fun p => p.2.get "_id").Nodup := by
  have hid : ([("_id", .string "a")] : Fields ℤ).lookup "_id" = some (.string "a") := rfl
  have happly : applyUpdate (named "a") (setId "a") = .ok [("_id", .string "a")] := rfl
  have hkeeps : KeepsId "a" (setId "a") := ((ids_stable crates).1 "a" _ _ _ hid happly).mp rfl
  refine ⟨(ids_stable crates).1 "a" _ _ _ hid happly, ((ids_stable crates).2 twoUsers ?_ "users").2⟩
  refine ⟨trivial, ?_, trivial⟩
  intro row hrow
  obtain ⟨id, hmem, hfind⟩ := List.mem_filterMap.mp (mem_limited hrow)
  rw [List.mem_singleton.mp hmem] at hfind
  have hrow : row.id = "a" := by simpa using List.find?_some hfind
  rw [hrow]
  exact hkeeps

/-- One user is set to the `_id` of another. -/
def sameIds : List (Request ℤ) :=
  [.insert "users" [(named "a", ""), (named "b", "")], updateOf "a" (setId "b")]

theorem ids_not_stable :
    applyUpdate (named "a") (setId "b") = .ok [("_id", .string "b")] ∧
    ((docsOf (serveAll crates .empty sameIds) "users").map fun p =>
      (p.1, (p.2.get "_id").map Json.render)) = [("a", some "b"), ("b", some "b")] ∧
    ¬∀ p ∈ docsOf (serveAll crates .empty sameIds) "users", p.2.get "_id" = some (.string p.1) := by
  have hids : ((docsOf (serveAll crates .empty sameIds) "users").map fun p =>
      (p.1, (p.2.get "_id").map Json.render)) = [("a", some "b"), ("b", some "b")] := by
    decide +kernel
  refine ⟨rfl, hids, ?_⟩
  intro h
  have hsame : ((docsOf (serveAll crates .empty sameIds) "users").map fun p =>
      (p.1, (p.2.get "_id").map Json.render)) =
      (docsOf (serveAll crates .empty sameIds) "users").map fun p => (p.1, some p.1) := by
    apply List.map_congr_left
    intro p hp
    rw [h p hp]
    rfl
  have hkeys : (docsOf (serveAll crates .empty sameIds) "users").map (fun p => (p.1, some p.1)) =
      [("a", some "a"), ("b", some "b")] := by
    decide +kernel
  rw [hids, hkeys] at hsame
  exact absurd hsame (by decide)

end Example

end BlueDB.Collections
