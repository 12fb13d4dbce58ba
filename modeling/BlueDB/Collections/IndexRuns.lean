import BlueDB.Collections.Filling

/-!
# Requests keep the indexes in step

Each request, whether it returns or fails, leaves every collection in step with the
indexes made on it, when the paths of its indexes are read off their names, the names of
the collections are apart, and a sweep finds nothing in the side tables.
-/

namespace BlueDB.Collections

variable {F : Type} [Sums F]

structure Good (t : Tenant F) : Prop where
  laid : Laid t
  synced : ∀ {c v}, Shows t c v → Synced v
  has : ∀ {c v}, Shows t c v → ∀ m, (c, m) ∈ t.made → Has v m
  recorded : ∀ {c m}, (c, m) ∈ t.made →
    ∃ columns rows, t.tables.get c = some (.documents columns rows)

variable {K : Crates F} {t t' : Tenant F} {c : String} {v v' : View F}

theorem Good.empty : Good (Tenant.empty : Tenant F) where
  laid := ⟨fun h => absurd h nofun, fun h => absurd h nofun⟩
  synced h := absurd h.documents nofun
  has h := absurd h.documents nofun
  recorded h := absurd h List.not_mem_nil

omit [Sums F] in
theorem shows_before (h : Laid t) (hv : Shows t c v) (hchanges : Changes c v' t t') {d : String}
    {w : View F} (hne : d ≠ c) (hw : Shows t' d w) : Shows t d w := by
  have hbefore := h.shows (Laid.documents_other hchanges hne hw.documents)
  have hafter := h.shows_other hv hchanges hne hbefore
  rwa [← hw.viewOf_eq, hafter.viewOf_eq]

theorem Good.changes (h : Good t) (hv : Shows t c v) (hchanges : Changes c v' t t')
    (hsynced : Synced v') (hhas : ∀ m, Has v m → Has v' m) : Good t' := by
  constructor
  · exact h.laid.changes hv hchanges
  · intro d w hw
    by_cases hne : d = c
    · subst hne
      rw [← hw.viewOf_eq, hchanges.shows.viewOf_eq]
      exact hsynced
    · exact h.synced (shows_before h.laid hv hchanges hne hw)
  · intro d w hw m hm
    rw [hchanges.made] at hm
    by_cases hne : d = c
    · subst hne
      rw [← hw.viewOf_eq, hchanges.shows.viewOf_eq]
      exact hhas m (h.has hv m hm)
    · exact h.has (shows_before h.laid hv hchanges hne hw) m hm
  · intro d m hm
    rw [hchanges.made] at hm
    by_cases hne : d = c
    · subst hne
      exact ⟨_, _, hchanges.shows.documents⟩
    · obtain ⟨columns, rows, hd⟩ := h.recorded hm
      exact ⟨_, _, (h.laid.shows_other hv hchanges hne (h.laid.shows hd)).documents⟩

/-- The collection is there with these columns. -/
structure At (c : String) (columns : List Column) (t : Tenant F) : Prop where
  good : Good t
  shows : Shows t c (viewOf t c)
  columns : (viewOf t c).columns = columns

theorem At.of_shows (h : Good t) (hv : Shows t c v) : At c v.columns t := by
  refine ⟨h, ?_, ?_⟩
  · rw [hv.viewOf_eq]
    exact hv
  · rw [hv.viewOf_eq]

theorem At.changes {columns : List Column} (h : At c columns t)
    (hchanges : Changes c v' t t') (hsynced : Synced v')
    (hhas : ∀ m, Has (viewOf t c) m → Has v' m) (hcolumns : v'.columns = columns) :
    At c columns t' :=
  hcolumns ▸ At.of_shows (h.good.changes h.shows hchanges hsynced hhas) hchanges.shows

omit [Sums F] in
@[simp] theorem holds_columnsOf {post : List Column → Tenant F → Prop}
    {fail : CollError → Tenant F → Prop} :
    Holds (columnsOf c) t post fail ↔ post (viewOf t c).columns t := by
  unfold columnsOf viewOf
  rw [Holds.bind_iff, holds_table]
  cases t.tables.get c with
  | none => exact Iff.rfl
  | some content =>
    cases content with
    | documents columns rows => exact Iff.rfl
    | side entries => exact Iff.rfl

omit [Sums F] in
@[simp] theorem holds_indexedColTypes {post : List (String × IndexType) → Tenant F → Prop}
    {fail : CollError → Tenant F → Prop} :
    Holds (indexedColTypes c) t post fail ↔ post (columnTypes (viewOf t c).columns) t := by
  unfold indexedColTypes
  rw [Holds.bind_iff, holds_columnsOf]
  exact Iff.rfl

omit [Sums F] in
@[simp] theorem holds_compoundColDefs {post : List (String × List String) → Tenant F → Prop}
    {fail : CollError → Tenant F → Prop} :
    Holds (compoundColDefs c) t post fail ↔ post (compoundDefs (viewOf t c).columns) t := by
  unfold compoundColDefs
  rw [Holds.bind_iff, holds_columnsOf]
  exact Iff.rfl

omit [Sums F] in
@[simp] theorem holds_documentRows {post : List (DocRow F) → Tenant F → Prop}
    {fail : CollError → Tenant F → Prop} :
    Holds (documentRows c) t post fail ↔ post (viewOf t c).rows t := by
  unfold documentRows viewOf
  rw [Holds.bind_iff, holds_table]
  cases t.tables.get c with
  | none => exact Iff.rfl
  | some content =>
    cases content with
    | documents columns rows => exact Iff.rfl
    | side entries => exact Iff.rfl

omit [Sums F] in
theorem holds_scanRows (hname : K.tableName c = c) (hv : Shows t c v)
    {post : List (DocRow F) → Tenant F → Prop} {fail : CollError → Tenant F → Prop} :
    Holds (scanRows K c) t post fail ↔ post v.rows t := by
  unfold scanRows
  rw [hname, Holds.bind_iff, holds_table, hv.documents]
  exact Iff.rfl

omit [Sums F] in
@[simp] theorem holds_multikeySideTables {post : List (String × String) → Tenant F → Prop}
    {fail : CollError → Tenant F → Prop} :
    Holds (multikeySideTables c) t post fail ↔ post (sidesIn t c) t := Iff.rfl

omit [Sums F] in
/-- The rows of a collection belong to a table of documents. -/
theorem shows_of_mem (h : Laid t) {row : DocRow F} (hrow : row ∈ (viewOf t c).rows) :
    Shows t c (viewOf t c) := by
  cases hc : t.tables.get c with
  | none =>
    unfold viewOf at hrow
    rw [hc] at hrow
    exact absurd hrow List.not_mem_nil
  | some content =>
    cases content with
    | documents columns rows => exact h.shows hc
    | side entries =>
      unfold viewOf at hrow
      rw [hc] at hrow
      exact absurd hrow List.not_mem_nil

theorem writeFullDoc_at {columns : List Column} (h : At c columns t) {doc : Json F}
    (hranged : Ranged columns doc) :
    Holds (writeFullDoc K c doc (columnTypes columns) (compoundDefs columns)) t
      (fun _ => At c columns) fun _ => At c columns := by
  obtain ⟨hgood, hshows, rfl⟩ := h
  have hat : At c (viewOf t c).columns t := ⟨hgood, hshows, rfl⟩
  unfold writeFullDoc
  split
  · next id hid =>
    rw [Holds.bind_iff]
    apply (insertRow_spec K hshows (docRow (viewOf t c).columns id doc fun _ => .null)).mono
    · rintro _ t₁ ⟨hnew, hinsert⟩
      rw [Holds.bind_iff, holds_multikeySideTables]
      apply (sides_spec hinsert.shows
        (fun f entries => entries ++ elementRows id (fieldItems (doc.get f))) ?_).mono
      · intro _ t₂ hsides
        exact hat.changes (hinsert.trans hsides)
          ((hgood.synced hshows).addDoc hnew hranged fun _ => .null)
          (fun m hm => hm.addDoc (hgood.synced hshows) fun _ => .null) rfl
      · intro _ _ hfalse
        exact hfalse.elim
      · intro t' w f entries hw hf
        exact insertMultikeyElements_spec hw hf id _
    · rintro _ t₁ rfl
      exact hat
  · exact hat

/-- The collection is there with these columns and rows of these `_id`s. -/
structure AtRows (c : String) (columns : List Column) (ids : List String) (t : Tenant F) :
    Prop where
  at_ : At c columns t
  ids : (viewOf t c).rows.map (·.id) = ids

theorem rewriteDocRow_at {columns : List Column} {ids : List String}
    (h : AtRows c columns ids t) {id : String} (hid : id ∈ ids) {doc : Json F}
    (hranged : Ranged columns doc) :
    Holds (rewriteDocRow K c id doc (columnTypes columns) (compoundDefs columns)) t
      (fun _ => AtRows c columns ids) fun _ => AtRows c columns ids := by
  obtain ⟨⟨hgood, hshows, rfl⟩, rfl⟩ := h
  have hat : At c (viewOf t c).columns t := ⟨hgood, hshows, rfl⟩
  obtain ⟨row, hrow, hrowid⟩ := List.mem_map.mp hid
  unfold rewriteDocRow
  rw [Holds.bind_iff]
  apply (updateRow_spec K hshows id
    fun row => docRow (viewOf t c).columns row.id doc row.cells).mono
  · intro _ t₁ hupdate
    rw [Holds.bind_iff, holds_multikeySideTables]
    apply (sides_spec hupdate.shows (fun f entries =>
      entries.filter (·.id != id) ++ elementRows id (fieldItems (doc.get f))) ?_).mono
    · intro _ t₂ hsides
      have hchanges := hupdate.trans hsides
      refine ⟨hat.changes hchanges ((hgood.synced hshows).changeDoc ⟨row, hrow, hrowid⟩ hranged)
        (fun m hm => hm.changeDoc (hgood.synced hshows) id doc) rfl, ?_⟩
      rw [hchanges.shows.viewOf_eq]
      exact (viewOf t c).changeDoc_ids id doc
    · intro _ _ hfalse
      exact hfalse.elim
    · intro t' w f entries hw hf
      change Holds (deleteById (sidePrefix c ++ f) id >>= fun _ => _) t' _ _
      rw [Holds.bind_iff]
      apply (deleteSide_spec hw hf id).mono
      · intro _ t'' hdelete
        apply (insertMultikeyElements_spec hdelete.shows (View.setSide_side _ _ _) id _).mono
        · intro _ t''' hinsert
          rw [View.setSide_setSide] at hinsert
          exact hdelete.trans hinsert
        · intro _ _ hfalse
          exact hfalse
      · intro _ _ hfalse
        exact hfalse
  · rintro _ t₁ ⟨rfl, -⟩
    exact ⟨hat, rfl⟩

theorem deleteDoc_at {columns : List Column} (h : At c columns t) (id : String) :
    Holds (deleteMultikeyForDoc c id >>= fun _ => deleteById c id : CollM F PUnit) t
      (fun _ => At c columns) fun _ => At c columns := by
  obtain ⟨hgood, hshows, rfl⟩ := h
  have hat : At c (viewOf t c).columns t := ⟨hgood, hshows, rfl⟩
  unfold deleteMultikeyForDoc
  rw [Holds.bind_iff, Holds.bind_iff, holds_multikeySideTables]
  apply (sides_spec hshows (fun _ entries => entries.filter (·.id != id)) ?_).mono
  · intro _ t₁ hsides
    apply (deleteRow_spec hsides.shows id).mono
    · intro _ t₂ hdelete
      exact hat.changes (hsides.trans hdelete) ((hgood.synced hshows).removeDoc id)
        (fun m hm => hm.removeDoc id) rfl
    · intro _ _ hfalse
      exact hfalse.elim
  · intro _ _ hfalse
    exact hfalse.elim
  · intro t' w f entries hw hf
    exact deleteSide_spec hw hf id

/-- No other collection has tables that begin like those of this one. -/
def Separate (t : Tenant F) (c : String) : Prop :=
  ∀ d columns rows, t.tables.get d = some (.documents columns rows) → d = c ∨ Apart d c

omit [Sums F] in
theorem Separate.not_side (h : Separate t c) (hlaid : Laid t) {entries : List SideRow} :
    t.tables.get c ≠ some (.side entries) := by
  intro hc
  obtain ⟨d, columns, rows, f, rfl, hd⟩ := hlaid.owned hc
  rcases h d columns rows hd with heq | hapart
  · exact coll_ne_sideTable d f heq
  · exact hapart.coll_ne f rfl

omit [Sums F] in
theorem Separate.no_tables (h : Separate t c) (hlaid : Laid t) (hc : t.tables.get c = none)
    (f : String) : t.tables.get (sidePrefix c ++ f) = none := by
  cases hside : t.tables.get (sidePrefix c ++ f) with
  | none => rfl
  | some content =>
    exfalso
    cases content with
    | documents columns rows =>
      rcases h _ columns rows hside with heq | hapart
      · exact coll_ne_sideTable c f heq.symm
      · exact hapart.symm.coll_ne f rfl
    | side entries =>
      obtain ⟨d, columns, rows, g, heq, hd⟩ := hlaid.owned hside
      rcases h d columns rows hd with rfl | hapart
      · exact absurd (hc.symm.trans hd) nofun
      · exact hapart.side_ne g f heq.symm

theorem ensureCollection_at (h : Good t) (hseparate : Separate t c) :
    Holds (ensureCollection c) t (fun _ t' => At c (viewOf t c).columns t' ∧
      viewOf t' c = viewOf t c) fun _ _ => False := by
  unfold ensureCollection createTable
  rw [Holds.bind_iff, holds_table]
  cases hc : t.tables.get c with
  | some content =>
    cases content with
    | documents columns rows => exact ⟨⟨h, h.laid.shows hc, rfl⟩, rfl⟩
    | side entries => exact absurd hc (hseparate.not_side h.laid)
  | none =>
    have hblank : viewOf t c = ⟨[], [], fun _ => none⟩ := by
      unfold viewOf
      rw [hc]
      congr 1
      funext f
      rw [hseparate.no_tables h.laid hc f]
    have hget : ∀ n, (t.tables.insert c (.documents [] [])).get n =
        if n = c then some (.documents [] []) else t.tables.get n := fun n =>
      OrderedMap.get_insert _ _ _ _
    have hother : ∀ {d columns rows}, d ≠ c →
        (t.tables.insert c (.documents [] [])).get d = some (.documents columns rows) →
        t.tables.get d = some (.documents columns rows) ∧ Apart d c := by
      intro d columns rows hne hd
      rw [hget, if_neg hne] at hd
      exact ⟨hd, (hseparate d columns rows hd).resolve_left hne⟩
    have hshows : Shows { t with tables := t.tables.insert c (.documents [] []) } c
        ⟨[], [], fun _ => none⟩ := by
      constructor
      · rw [hget, if_pos rfl]
      · intro f
        rw [hget, if_neg (coll_ne_sideTable c f).symm, hseparate.no_tables h.laid hc f]
        rfl
    have hlaid : Laid { t with tables := t.tables.insert c (.documents [] []) } := by
      constructor
      · intro d d' columns rows columns' rows' hd hd'
        by_cases hne : d = c
        · by_cases hne' : d' = c
          · exact Or.inl (hne.trans hne'.symm)
          · exact Or.inr (hne ▸ (hother hne' hd').2.symm)
        · by_cases hne' : d' = c
          · exact Or.inr (hne' ▸ (hother hne hd).2)
          · exact h.laid.apart (hother hne hd).1 (hother hne' hd').1
      · intro n entries hn
        have hne : n ≠ c := by
          rintro rfl
          rw [hget, if_pos rfl] at hn
          exact absurd hn nofun
        rw [hget, if_neg hne] at hn
        obtain ⟨d, columns, rows, f, rfl, hd⟩ := h.laid.owned hn
        refine ⟨d, columns, rows, f, rfl, ?_⟩
        rw [hget, if_neg]
        · exact hd
        · rintro rfl
          exact absurd (hc.symm.trans hd) nofun
    -- the views of the other collections do not have the new table
    have hbefore : ∀ {d w}, d ≠ c →
        Shows { t with tables := t.tables.insert c (.documents [] []) } d w →
        Shows t d w := by
      intro d w hne hw
      obtain ⟨hd, hapart⟩ := hother hne hw.documents
      refine ⟨hd, ?_⟩
      intro f
      rw [← hw.sides f, hget, if_neg (hapart.coll_ne f).symm]
    refine ⟨?_, ?_⟩
    · rw [hblank]
      apply At.of_shows (v := ⟨[], [], fun _ => none⟩) _ hshows
      refine ⟨hlaid, ?_, ?_, ?_⟩
      · intro d w hw
        by_cases hne : d = c
        · subst hne
          rw [← hw.viewOf_eq, hshows.viewOf_eq]
          exact ⟨List.Pairwise.nil, List.Pairwise.nil, fun _ h => absurd h List.not_mem_nil,
            fun _ h => absurd h List.not_mem_nil, nofun⟩
        · exact h.synced (hbefore hne hw)
      · intro d w hw m hm
        by_cases hne : d = c
        · subst hne
          obtain ⟨columns, rows, hd⟩ := h.recorded hm
          exact absurd (hc.symm.trans hd) nofun
        · exact h.has (hbefore hne hw) m hm
      · intro d m hm
        obtain ⟨columns, rows, hd⟩ := h.recorded hm
        refine ⟨columns, rows, ?_⟩
        rw [hget, if_neg]
        · exact hd
        · rintro rfl
          exact absurd (hc.symm.trans hd) nofun
    · rw [hblank]
      exact hshows.viewOf_eq

theorem checkIdent_good (h : Good t) {α : Type} {x : CollM F α} {post : α → Tenant F → Prop}
    (hx : Holds x t post fun _ => Good) :
    Holds (checkIdent c >>= fun _ => x) t post fun _ => Good := by
  rw [Holds.bind_iff]
  unfold checkIdent
  split
  · exact hx
  · exact h

/-- The fields of an inserted document. -/
def InsertFits (columns : List Column) (d : Json F × String) : Prop :=
  ∀ fields, d.1 = .object fields → Ranged columns (.object (ensureId d.2 fields).1)

theorem insert_good (h : Good t) (hseparate : Separate t c) {docs : List (Json F × String)}
    (hfits : ∀ d ∈ docs, InsertFits (viewOf t c).columns d) :
    Holds (insert K c docs) t (fun _ => Good) fun _ => Good := by
  apply checkIdent_good h
  split
  · exact h
  · rw [Holds.bind_iff]
    apply (ensureCollection_at h hseparate).mono
    · rintro _ t₁ ⟨hat, hview⟩
      rw [Holds.bind_iff, holds_indexedColTypes, Holds.bind_iff, holds_compoundColDefs, hview]
      apply (Holds.forM (At c (viewOf t c).columns) docs hat ?_).mono
      · intro _ _ hat'
        exact hat'.good
      · intro _ _ hat'
        exact hat'
      · intro d hd t₂ hat₂
        unfold insertDoc
        split
        · next fields hfields =>
          apply (writeFullDoc_at hat₂ (hfits d hd fields hfields)).mono
          · intro _ _ hat₃
            exact hat₃
          · intro _ _ hat₃
            exact hat₃.good
        · exact hat₂.good
    · intro _ _ hfalse
      exact hfalse.elim

/-- A query reads the collection itself, whichever engine answers it. -/
def Reads (K : Crates F) (query : Query) (c : String) : Prop :=
  query.analytical = true → K.tableName c = c

omit [Sums F] in
theorem Reads.source {query : Query} (h : Reads K query c) : query.source K c = c := by
  unfold Query.source
  split_ifs with hanalytical
  · exact h hanalytical
  · rfl

theorem mem_limited {α : Type} {multi : Bool} {l : List α} {a : α} (h : a ∈ limited multi l) :
    a ∈ l := by
  unfold limited at h
  split_ifs at h
  · exact h
  · exact List.mem_of_mem_take h

/-- What an update makes of the documents it may read, and of the one it may add. -/
structure UpdateFits (columns : List Column) (rows : List (DocRow F)) (query : Query)
    (upsert : Bool) (upd : Json F) (fresh : String) : Prop where
  changed : ∀ row ∈ rows, row.id ∈ query.ids → ∀ fields,
    applyUpdate row.doc upd = .ok fields → Ranged columns (.object fields)
  added : upsert = true → ∀ fields, applyUpdate (.object []) upd = .ok fields →
    Ranged columns (.object (ensureId fresh fields).1)

theorem update_good (h : Good t) (hseparate : Separate t c) {query : Query}
    (hreads : Reads K query c) {multi upsert : Bool} {upd : Json F} {fresh : String}
    (hfits : UpdateFits (viewOf t c).columns (viewOf t c).rows query upsert upd fresh) :
    Holds (update K c query multi upsert upd fresh) t (fun _ => Good) fun _ => Good := by
  apply checkIdent_good h
  rw [Holds.bind_iff, holds_indexedColTypes, Holds.bind_iff, holds_compoundColDefs, hreads.source,
    Holds.bind_iff, holds_documentRows]
  dsimp only
  generalize hrows : limited multi (query.ids.filterMap fun id =>
    (viewOf t c).rows.find? (·.id == id)) = rows
  have hread : ∀ row ∈ rows, row ∈ (viewOf t c).rows ∧ row.id ∈ query.ids := by
    intro row hrow
    rw [← hrows] at hrow
    obtain ⟨id, hid, hfind⟩ := List.mem_filterMap.mp (mem_limited hrow)
    have heq : row.id = id := by simpa using List.find?_some hfind
    exact ⟨List.mem_of_find?_eq_some hfind, heq ▸ hid⟩
  cases rows with
  | nil =>
    rw [Holds.bind_iff]
    change Holds (if ([] : List (DocRow F)).isEmpty && upsert then _ else _) t _ _
    split_ifs with hupsert
    · rw [Holds.bind_iff]
      apply (ensureCollection_at h hseparate).mono
      · rintro _ t₁ ⟨hat, -⟩
        rw [Holds.bind_iff]
        cases happly : applyUpdate (.object []) upd with
        | error e => exact hat.good
        | ok fields =>
          apply (writeFullDoc_at hat (hfits.added (by simpa using hupsert) fields happly)).mono
          · intro _ _ hat'
            exact hat'.good
          · intro _ _ hat'
            exact hat'.good
      · intro _ _ hfalse
        exact hfalse.elim
    · exact h
  | cons row rest =>
    have hshows := shows_of_mem h.laid (hread row List.mem_cons_self).1
    have hat : AtRows c (viewOf t c).columns ((viewOf t c).rows.map (·.id)) t :=
      ⟨⟨h, hshows, rfl⟩, rfl⟩
    rw [Holds.bind_iff]
    apply (Holds.forM (AtRows c (viewOf t c).columns ((viewOf t c).rows.map (·.id))) (row :: rest)
      hat ?_).mono
    · intro _ t₁ hat₁
      exact hat₁.at_.good
    · intro _ _ hgood
      exact hgood
    · intro r hr t₁ hat₁
      obtain ⟨hmem, hid⟩ := hread r hr
      unfold updateDoc
      rw [Holds.bind_iff]
      cases happly : applyUpdate r.doc upd with
      | error e => exact hat₁.at_.good
      | ok fields =>
        change Holds (if (Json.object fields).same r.doc then _ else _) t₁ _ _
        split_ifs
        · exact hat₁
        · apply (rewriteDocRow_at hat₁ (List.mem_map_of_mem hmem)
            (hfits.changed r hmem hid fields happly)).mono
          · intro _ _ hat₂
            exact hat₂
          · intro _ _ hat₂
            exact hat₂.at_.good

theorem delete_good (h : Good t) (hseparate : Separate t c) {query : Query}
    (hreads : Reads K query c) {multi : Bool} :
    Holds (delete K c query multi) t (fun _ => Good) fun _ => Good := by
  apply checkIdent_good h
  rw [hreads.source, Holds.bind_iff]
  unfold idsOf
  rw [Holds.bind_iff, holds_table]
  cases hc : t.tables.get c with
  | none =>
    change Holds ((limited multi (query.ids.filter (· ∈ ([] : List String)))).forM _) t _ _
    have hnone : limited multi (query.ids.filter (· ∈ ([] : List String))) = [] := by
      rw [List.eq_nil_iff_forall_not_mem]
      intro id hid
      have hmem := (List.mem_filter.mp (mem_limited hid)).2
      simp at hmem
    rw [hnone]
    exact h
  | some content =>
    cases content with
    | side entries => exact absurd hc (hseparate.not_side h.laid)
    | documents columns rows =>
      have hat : At c (viewOf t c).columns t := ⟨h, h.laid.shows hc, rfl⟩
      apply (@Holds.forM _ _ _ _ (fun _ => Good) _ (At c (viewOf t c).columns) _ hat ?_).mono
      · intro _ _ hat'
        exact hat'.good
      · intro _ _ hgood
        exact hgood
      · intro id _ t₁ hat₁
        apply (deleteDoc_at hat₁ id).mono
        · intro _ _ hat₂
          exact hat₂
        · intro _ _ hat₂
          exact hat₂.good

theorem record_good (h : Good t) (hv : Shows t c v) {m : Made} (hm : Has v m) :
    Good { t with made := (c, m) :: t.made } := by
  constructor
  · exact ⟨h.laid.apart, h.laid.owned⟩
  · intro d w hw
    exact h.synced ⟨hw.documents, hw.sides⟩
  · intro d w hw m' hm'
    have hw' : Shows t d w := ⟨hw.documents, hw.sides⟩
    rcases List.mem_cons.mp hm' with heq | hold
    · obtain ⟨rfl, rfl⟩ := Prod.mk.inj heq
      rw [← hw'.viewOf_eq, hv.viewOf_eq]
      exact hm
    · exact h.has hw' m' hold
  · intro d m' hm'
    rcases List.mem_cons.mp hm' with heq | hold
    · obtain ⟨rfl, -⟩ := Prod.mk.inj heq
      exact ⟨_, _, hv.documents⟩
    · exact h.recorded hold

/-- The engine refuses the next row once the rows before it are filled. -/
def Refused (K : Crates F) (v : View F) (column : String) (value : Json F → Option (Scalar F))
    (done : List (DocRow F)) : Prop :=
  ∃ r rest x, v.rows = done ++ r :: rest ∧ value r.doc = some x ∧
    ∃ row ∈ (v.fill column value done).rows, row.id = r.id ∧
      K.accepts v.columns (v.fill column value done).rows (row.setCell column x) = false

omit [Sums F] in
/-- The rows are filled in turn, as far as the engine accepts them. -/
theorem backfill_spec (hv : Shows t c v) (hids : v.rows.Pairwise fun r r' => r.id ≠ r'.id)
    (column : String) (value : Json F → Option (Scalar F)) :
    Holds (backfill K c column value v.rows) t
      (fun _ t' => Changes c (v.fill column value v.rows) t t')
      fun _ t' => ∃ done, Refused K v column value done ∧
        Changes c (v.fill column value done) t t' := by
  unfold backfill
  apply Holds.forM_log fun (done : List (DocRow F)) t' =>
    Changes c (v.fill column value done) t t'
  · rw [View.fill_nil]
    exact hv.refl
  · intro done r rest hsplit t₁ hchanges
    have hr : r ∈ v.rows := by
      rw [hsplit]
      exact List.mem_append_right _ List.mem_cons_self
    cases hvalue : value r.doc with
    | none =>
      change Changes c (v.fill column value (done ++ [r])) t t₁
      rw [View.fill_skip column value hids done hr hvalue]
      exact hchanges
    | some x =>
      apply (updateRow_spec K hchanges.shows r.id fun row => row.setCell column x).mono
      · intro _ t₂ hupdate
        rw [View.fill_concat column value hids done hr hvalue] at hupdate
        exact hchanges.trans hupdate
      · rintro _ t₂ ⟨rfl, hrefused⟩
        exact ⟨done, ⟨r, rest, x, hsplit, hvalue, hrefused⟩, hchanges⟩

section

variable {columns : List Column} (h : At c columns t) {column : String}
    {value : Json F → Option (Scalar F)} (hsuits : Suits (viewOf t c) column value) {m : Made}
    (hm : Has ((viewOf t c).fill column value (viewOf t c).rows) m)
    {next : CollM F PUnit}
    (hnext : ∀ t', Good t' → Shows t' c ((viewOf t c).fill column value (viewOf t c).rows) →
      Holds next t' (fun _ t'' => Good t'' ∧
        Shows t'' c ((viewOf t c).fill column value (viewOf t c).rows)) fun _ => Good)

include h hsuits hm hnext

/-- A column that has been filled is recorded at the end. -/
theorem fill_record :
    Holds (backfill K c column value (viewOf t c).rows >>= fun _ => next >>= fun _ => record c m) t
      (fun _ => Good) fun _ => Good := by
  have hsynced := h.good.synced h.shows
  have hgood : ∀ {done t'}, Changes c ((viewOf t c).fill column value done) t t' → Good t' := by
    intro done t' hchanges
    exact h.good.changes h.shows hchanges (hsynced.fill hsuits done) fun m hm => hm.fill hsuits done
  rw [Holds.bind_iff]
  apply (backfill_spec h.shows hsynced.ids column value).mono
  · intro _ t₁ hchanges
    rw [Holds.bind_iff]
    apply (hnext t₁ (hgood hchanges) hchanges.shows).mono
    · rintro _ t₂ ⟨hgood₂, hshows₂⟩
      exact record_good hgood₂ hshows₂ hm
    · intro _ _ hgood₂
      exact hgood₂
  · rintro _ t₁ ⟨done, -, hchanges⟩
    exact hgood hchanges

/-- A new column is recorded before it is filled, and the engine takes all rows. -/
theorem record_fill (haccepts : ∀ done, ¬Refused K (viewOf t c) column value done) :
    Holds (backfill K c column value (viewOf t c).rows >>= fun _ => next >>= fun _ => record c m)
      { t with made := (c, m) :: t.made } (fun _ => Good) fun _ => Good := by
  have hsynced := h.good.synced h.shows
  have hshows : Shows { t with made := (c, m) :: t.made } c (viewOf t c) :=
    ⟨h.shows.documents, h.shows.sides⟩
  rw [Holds.bind_iff]
  apply (backfill_spec hshows hsynced.ids column value).mono
  · intro _ t₁ hchanges
    have hgood : Good { t₁ with made := t.made } :=
      h.good.changes h.shows ⟨⟨hchanges.shows.documents, hchanges.shows.sides⟩, hchanges.others,
        hchanges.ttl, rfl⟩ (hsynced.fill hsuits _) fun m hm => hm.fill hsuits _
    have hrecorded := record_good hgood ⟨hchanges.shows.documents, hchanges.shows.sides⟩ hm
    have hsame : { t₁ with made := (c, m) :: t.made } = t₁ := by
      have hmade : t₁.made = (c, m) :: t.made := hchanges.made
      rw [← hmade]
    rw [Holds.bind_iff]
    apply (hnext t₁ (hsame ▸ hrecorded) hchanges.shows).mono
    · rintro _ t₂ ⟨hgood₂, hshows₂⟩
      exact record_good hgood₂ hshows₂ hm
    · intro _ _ hgood₂
      exact hgood₂
  · rintro _ t₁ ⟨done, hrefused, -⟩
    exact absurd hrefused (haccepts done)

end

theorem addColumn_at {columns : List Column} (h : At c columns t) {column : Column}
    (hfits : FitsRows column (viewOf t c).rows) :
    Holds (addColumn c column) t (fun _ t' => At c (columns ++ [column]) t' ∧
      viewOf t' c = (viewOf t c).addColumn column) fun _ => Good := by
  apply (addColumn_spec h.shows column).mono
  · rintro _ t₁ ⟨hnew, hchanges⟩
    have hsynced := h.good.synced h.shows
    have hgood := h.good.changes h.shows hchanges (hsynced.addColumn hnew hfits)
      fun m hm => hm.addColumn hnew
    exact ⟨h.columns ▸ At.of_shows hgood hchanges.shows, hchanges.shows.viewOf_eq⟩
  · rintro _ t₁ rfl
    exact h.good

/-- The engine takes the values of a new column, row by row. -/
def Accepted (K : Crates F) (v : View F) (column : Column) (value : Json F → Option (Scalar F)) :
    Prop :=
  (∀ col ∈ v.columns, col.name ≠ column.name) →
    ∀ done, ¬Refused K (v.addColumn column) column.name value done

theorem createCompoundIndex_good {columns : List Column} (h : At c columns t)
    (hname : K.tableName c = c) {paths : List String} {unique : Bool}
    (hpaths : (∀ path ∈ paths, validPath path = true ∧ '.' ∉ path.toList) →
      columnPaths (compoundCol paths) = some paths ∧
        Accepted K (viewOf t c) ⟨compoundCol paths, .text, unique⟩
          fun doc => some (.text (compoundKey doc paths))) :
    Holds (createCompoundIndex K c paths unique) t (fun _ => Good) fun _ => Good := by
  unfold createCompoundIndex
  dsimp only
  cases hfind : paths.find? fun path => !validPath path || path.toList.contains '.' with
  | some path =>
    exact h.good
  | none =>
    obtain ⟨hread, haccepted⟩ : columnPaths (compoundCol paths) = some paths ∧ _ := by
      apply hpaths
      intro path hpath
      have hok := List.find?_eq_none.mp hfind path hpath
      simpa using hok
    have hsuits : ∀ w : View F, Suits w (compoundCol paths)
        fun doc => some (.text (compoundKey doc paths)) := by
      refine fun w => ⟨?_, ?_⟩
      · intro _ _ _ p hp
        exact absurd ((columnPaths_of_columnPath hp).symm.trans hread) nofun
      · intro ps hps doc x hx
        obtain rfl := Option.some.inj (hps.symm.trans hread)
        exact (Option.some.inj hx).symm
    have hfilled : ∀ w : View F, (∃ col ∈ w.columns, col.name = compoundCol paths) →
        Has (w.fill (compoundCol paths) (fun doc => some (.text (compoundKey doc paths))) w.rows)
          (.paths paths) := by
      rintro w ⟨col, hcol, hcolname⟩
      rw [← hcolname]
      exact Has.paths_of_fill hcol hcolname (hcolname ▸ hread) fun _ => rfl
    dsimp only
    rw [Holds.bind_iff, holds_compoundColDefs]
    split
    · next hany =>
      obtain ⟨⟨name, ps⟩, hmem, heq⟩ := List.any_eq_true.mp hany
      obtain ⟨col, hcol, hmap⟩ := List.mem_filterMap.mp hmem
      obtain ⟨_, -, hpair⟩ := Option.map_eq_some_iff.mp hmap
      obtain ⟨rfl, -⟩ := Prod.mk.inj hpair
      rw [Holds.bind_iff, holds_scanRows hname h.shows]
      exact @fill_record _ _ _ _ _ _ h _ _ (hsuits _) _ (hfilled _ ⟨col, hcol, by simpa using heq⟩)
        (pure ⟨⟩) fun t' hgood hshows => ⟨hgood, hshows⟩
    · next hany =>
      have hnew : ∀ col ∈ (viewOf t c).columns, col.name ≠ compoundCol paths := by
        intro col hcol heq
        apply hany
        rw [List.any_eq_true]
        refine ⟨(col.name, paths), List.mem_filterMap.mpr ⟨col, hcol, ?_⟩, by simp [heq]⟩
        rw [heq, hread]
        rfl
      rw [Holds.bind_iff]
      apply (addColumn_at h ?_).mono
      · rintro _ t₁ ⟨hat, hview⟩
        rw [Holds.bind_iff]
        change Holds (scanRows K c >>= fun _ => _)
          { t₁ with made := (c, .paths paths) :: t₁.made } _ _
        have hshows : Shows { t₁ with made := (c, .paths paths) :: t₁.made } c (viewOf t₁ c) :=
          ⟨hat.shows.documents, hat.shows.sides⟩
        rw [Holds.bind_iff, holds_scanRows hname hshows]
        refine @record_fill _ _ _ _ _ _ hat _ _ (hsuits _) _ (hfilled _
          ⟨⟨compoundCol paths, .text, unique⟩, ?_, rfl⟩)
          (pure ⟨⟩) (fun t' hgood hshows => ⟨hgood, hshows⟩) ?_
        · rw [hat.columns]
          exact List.mem_append_right _ (List.mem_singleton_self _)
        · rw [hview]
          exact haccepted hnew
      · intro _ _ hgood
        exact hgood
      · intro htype
        exact absurd htype nofun

/-- The type that a new index column of a path gets has room for the numbers there are, and
the engine takes the values of the documents. -/
def ColumnFits (K : Crates F) (v : View F) (path : String) (options : IndexOptions) : Prop :=
  (∀ col ∈ v.columns, col.name ≠ derivedCol path) →
    ∀ type, columnType (sampleValues v.rows path) options = .ok type →
      (type = .number → ∀ row ∈ v.rows, ∀ x, field row.doc path = some x → InRange x) ∧
        Accepted K v ⟨derivedCol path, type, options.unique⟩
          fun doc => (deriveTypedValue doc path type).map jsonValueToParam

theorem lookup_columnTypes {columns : List Column}
    (hnames : columns.Pairwise fun c c' => c.name ≠ c'.name) {col : Column} (hcol : col ∈ columns)
    {p : String} (hp : columnPath col.name = some p) :
    (columnTypes columns).lookup col.name = some col.type := by
  have htypes : columnTypes columns = columns.filterMap fun c =>
      ((columnPath c.name).map fun _ => c.type).map fun x => (c.name, x) := by
    unfold columnTypes
    apply List.filterMap_congr
    intro c _
    rw [Option.map_map]
    rfl
  rw [htypes, lookup_columns hnames _ hcol, hp]
  rfl

theorem registerTtl_spec (h : Good t) (hv : Shows t c v) (path : String) (seconds : ℤ) :
    Holds (registerTtl c path seconds) t (fun _ t' => Good t' ∧ Shows t' c v) fun _ => Good := by
  unfold registerTtl
  split_ifs
  · exact h
  · refine ⟨⟨⟨h.laid.apart, h.laid.owned⟩, ?_, ?_, h.recorded⟩, hv.documents, hv.sides⟩
    · intro d w hw
      exact h.synced ⟨hw.documents, hw.sides⟩
    · intro d w hw
      exact h.has ⟨hw.documents, hw.sides⟩

omit [Sums F] in
theorem backfill_map {column : String} {value : Json F → Option (Scalar F)}
    {f : DocRow F → DocRow F} (hid : ∀ row, (f row).id = row.id)
    (hdoc : ∀ row, (f row).doc = row.doc) (rows : List (DocRow F)) :
    backfill K c column value (rows.map f) = backfill K c column value rows := by
  induction rows with
  | nil => rfl
  | cons row rows ih =>
    unfold backfill at ih ⊢
    change (_ >>= fun _ => (rows.map f).forM _) = (_ >>= fun _ => rows.forM _)
    rw [ih]
    dsimp only
    rw [hid, hdoc]

theorem path_fills {columns : List Column} (h : At c columns t) {path : String}
    (hpath : columnPath (derivedCol path) = some path) {col : Column} (hcol : col ∈ columns)
    (hname : col.name = derivedCol path) :
    (columnTypes columns).lookup (derivedCol path) = some col.type ∧
      Suits (viewOf t c) (derivedCol path)
        (fun doc => (deriveTypedValue doc path col.type).map jsonValueToParam) ∧
      Has ((viewOf t c).fill (derivedCol path)
        (fun doc => (deriveTypedValue doc path col.type).map jsonValueToParam)
        (viewOf t c).rows) (.path path) := by
  have hsynced := h.good.synced h.shows
  rw [← h.columns] at hcol ⊢
  have hp : columnPath col.name = some path := hname ▸ hpath
  rw [← hname]
  refine ⟨lookup_columnTypes hsynced.names hcol hp, ⟨?_, ?_⟩,
    Has.path_of_fill hsynced hcol hname hp fun _ => rfl⟩
  · intro col' hcol' hname' p hp' doc x hx
    obtain rfl := column_eq hsynced.names hcol' hcol hname'
    obtain rfl := Option.some.inj (hp'.symm.trans hp)
    obtain ⟨y, hy, rfl⟩ := Option.map_eq_some_iff.mp hx
    unfold cell
    rw [show deriveTypedValue doc p col'.type = some y from hy]
  · intro ps hps
    exact absurd ((columnPaths_of_columnPath hp).symm.trans hps) nofun

theorem registerExpiry_spec (h : Good t) (hv : Shows t c v) (path : String)
    (expireAfterSeconds : Option ℤ) :
    Holds (registerExpiry c path expireAfterSeconds) t (fun _ t' => Good t' ∧ Shows t' c v)
      fun _ => Good := by
  cases expireAfterSeconds with
  | some seconds => exact registerTtl_spec h hv path seconds
  | none => exact ⟨h, hv⟩

theorem createPathIndex_good {columns : List Column} (h : At c columns t) {path : String}
    {options : IndexOptions} (hpath : columnPath (derivedCol path) = some path)
    (hfits : ColumnFits K (viewOf t c) path options) :
    Holds (createPathIndex K c path options (viewOf t c).rows) t (fun _ => Good)
      fun _ => Good := by
  unfold createPathIndex
  dsimp only
  rw [Holds.bind_iff, holds_indexedColTypes]
  split
  · next hany =>
    obtain ⟨⟨name, type⟩, hmem, heq⟩ := List.any_eq_true.mp hany
    obtain ⟨col, hcol, hmap⟩ := List.mem_filterMap.mp hmem
    obtain ⟨_, -, hpair⟩ := Option.map_eq_some_iff.mp hmap
    obtain ⟨rfl, -⟩ := Prod.mk.inj hpair
    rw [Holds.bind_iff, holds_indexedColTypes, h.columns]
    rw [h.columns] at hcol
    obtain ⟨htype, hsuits, hm⟩ := path_fills h hpath hcol (by simpa using heq)
    rw [htype]
    exact fill_record h hsuits hm fun t₁ hgood hshows => registerExpiry_spec hgood hshows path _
  · next hany =>
    have hnew : ∀ col ∈ (viewOf t c).columns, col.name ≠ derivedCol path := by
      intro col hcol heq
      apply hany
      rw [List.any_eq_true]
      refine ⟨(col.name, col.type), List.mem_filterMap.mpr ⟨col, hcol, ?_⟩, by simp [heq]⟩
      rw [heq, hpath]
      rfl
    rw [Holds.bind_iff]
    cases htype : columnType (sampleValues (viewOf t c).rows path) options with
    | error e => exact h.good
    | ok type =>
      obtain ⟨hranged, haccepted⟩ := hfits hnew type htype
      rw [Holds.ofExcept_ok, Holds.bind_iff]
      apply (addColumn_at h ?_).mono
      · rintro _ t₁ ⟨hat, hview⟩
        rw [Holds.bind_iff]
        change Holds (indexedColTypes c >>= fun _ => _)
          { t₁ with made := (c, .path path) :: t₁.made } _ _
        have hcolumns : (viewOf { t₁ with made := (c, .path path) :: t₁.made } c).columns =
            columns ++ [⟨derivedCol path, type, options.unique⟩] := hat.columns
        rw [Holds.bind_iff, holds_indexedColTypes, hcolumns]
        obtain ⟨hlookup, hsuits, hm⟩ := path_fills hat hpath
          (List.mem_append_right _ (List.mem_singleton_self _)) rfl
        rw [hlookup]
        have hfill := record_fill (K := K) hat hsuits hm
          (fun t₂ hgood hshows => registerExpiry_spec hgood hshows path options.expireAfterSeconds)
          (by rw [hview]; exact haccepted hnew)
        have hblank : (viewOf t₁ c).rows =
            (viewOf t c).rows.map fun row => row.setCell (derivedCol path) .null := by
          rw [hview]
          rfl
        rw [hblank, backfill_map (f := fun row => row.setCell (derivedCol path) .null)
          (fun _ => rfl) fun _ => rfl] at hfill
        exact hfill
      · intro _ _ hgood
        exact hgood
      · intro hnumber p hp row hrow x hx
        have hp' : path = p := Option.some.inj (hpath.symm.trans hp)
        subst hp'
        exact hranged hnumber row hrow x hx

omit [Sums F] in
theorem field_of_not_mem {path : String} (h : '.' ∉ path.toList) (doc : Json F) :
    field doc path = doc.get path := by
  have hsegments : segments path = [path] := by
    unfold segments
    rw [List.splitOn_eq_singleton_of_beq_eq_false]
    · rw [List.map_singleton, String.ofList_toList]
    · intro c hc
      simpa using fun heq : c = '.' => h (heq ▸ hc)
  unfold field
  rw [hsegments]
  cases hget : doc.get path with
  | none =>
    change (doc.get path >>= fun v => pure v) = none
    rw [hget]
    rfl
  | some v =>
    change (doc.get path >>= fun v => pure v) = some v
    rw [hget]
    rfl

theorem ensureMultikeySideTable_spec (h : Good t) (hv : Shows t c v) (f : String) :
    Holds (ensureMultikeySideTable (sidePrefix c ++ f)) t
      (fun _ t' => ∃ entries, Partly v.rows f [] entries ∧ Changes c (v.setSide f entries) t t')
      fun _ _ => False := by
  have hfound : ∀ {t' : Tenant F} {w : View F} {entries}, Shows t' c w → w.sides f = some entries →
      ∀ {k : Option (Table F) → CollM F PUnit}, k (some (.side entries)) = pure ⟨⟩ →
      ∀ {post : PUnit → Tenant F → Prop} {fail : CollError → Tenant F → Prop}, post ⟨⟩ t' →
      Holds (table (sidePrefix c ++ f) >>= k) t' post fail := by
    intro t' w entries hw hside k hk post fail hpost
    rw [Holds.bind_iff, holds_table, hw.sides f, hside]
    dsimp only [Option.map_some]
    rw [hk]
    exact hpost
  unfold ensureMultikeySideTable
  rw [Holds.bind_iff]
  unfold createTable
  rw [Holds.bind_iff, holds_table, hv.sides f]
  cases hf : v.sides f with
  | some entries =>
    apply hfound hv hf rfl
    refine ⟨entries, ((h.synced hv).sides f entries hf).partly, ?_⟩
    rw [View.setSide_self hf]
    exact hv.refl
  | none =>
    have hchanges := hv.putSide f []
    apply hfound hchanges.shows (View.setSide_side v f []) rfl
    exact ⟨[], Partly.empty v.rows f, hchanges⟩

theorem createMultikeyIndex_good (h : Good t) (hv : Shows t c v) (path : String) :
    Holds (createMultikeyIndex c path v.rows) t (fun _ => Good) fun _ => Good := by
  unfold createMultikeyIndex
  dsimp only
  split
  · exact h
  · next hdot =>
    have hdot : '.' ∉ path.toList := by simpa using hdot
    have hsynced := h.synced hv
    unfold multikeySideTable
    rw [flattened_eq hdot, Holds.bind_iff]
    apply (ensureMultikeySideTable_spec h hv path).mono
    · rintro _ t₁ hstart
      rw [Holds.bind_iff]
      apply (@Holds.forM_log _ _ _ _ (fun _ _ => False) _ (fun (done : List (DocRow F)) t' =>
        ∃ entries, Partly v.rows path done entries ∧ Changes c (v.setSide path entries) t t')
          v.rows hstart ?_).mono
      · rintro _ t₂ ⟨entries, hpartly, hchanges⟩
        apply record_good _ hchanges.shows
        · refine ⟨hdot, ?_⟩
          rw [View.setSide_side]
          rfl
        · exact h.changes hv hchanges (hsynced.setSide hpartly.covers)
            fun m hm => hm.setSide path entries
      · intro _ _ hfalse
        exact hfalse.elim
      · rintro done r rest hsplit t₂ ⟨entries, hpartly, hchanges⟩
        have hdone : ∀ row ∈ done, row ∈ v.rows := by
          intro row hrow
          rw [hsplit]
          exact List.mem_append_left _ hrow
        have hr : r ∈ v.rows := by
          rw [hsplit]
          exact List.mem_append_right _ List.mem_cons_self
        rw [field_of_not_mem hdot]
        cases hget : r.doc.get path with
        | none =>
          refine ⟨entries, hpartly.skip hr ?_, hchanges⟩
          unfold sideElements
          rw [hget]
          rfl
        | some x =>
          change Holds (deleteById (sidePrefix c ++ path) r.id >>= fun _ => _) t₂ _ _
          rw [Holds.bind_iff]
          apply (deleteSide_spec hchanges.shows (View.setSide_side _ _ _) r.id).mono
          · intro _ t₃ hdelete
            rw [View.setSide_setSide] at hdelete
            apply (insertMultikeyElements_spec hdelete.shows (View.setSide_side _ _ _) r.id
              (fieldItems (some x))).mono
            · intro _ t₄ hinsert
              rw [View.setSide_setSide] at hinsert
              have hstep := hpartly.concat hsynced.ids hdone hr
              rw [hget] at hstep
              exact ⟨_, hstep, (hchanges.trans hdelete).trans hinsert⟩
            · intro _ _ hfalse
              exact hfalse
          · intro _ _ hfalse
            exact hfalse
    · intro _ _ hfalse
      exact hfalse.elim

/-- What an index may be created for. -/
structure IndexFits (K : Crates F) (t : Tenant F) (c : String) (keys : List String)
    (options : IndexOptions) : Prop where
  reads : K.tableName c = c
  paths : 1 < keys.length → (∀ path ∈ keys, validPath path = true ∧ '.' ∉ path.toList) →
    columnPaths (compoundCol keys) = some keys ∧
      Accepted K (viewOf t c) ⟨compoundCol keys, .text, options.unique⟩
        fun doc => some (.text (compoundKey doc keys))
  path : ∀ path, keys = [path] → validPath path = true →
    isMultikey (viewOf t c).rows path options = false →
    '.' ∉ path.toList ∧ ColumnFits K (viewOf t c) path options

theorem createIndex_good (h : Good t) (hseparate : Separate t c) {keys : List String}
    {options : IndexOptions} (hfits : IndexFits K t c keys options) :
    Holds (createIndex K c keys options) t (fun _ => Good) fun _ => Good := by
  apply checkIdent_good h
  cases keys with
  | nil => exact h
  | cons path rest =>
    cases rest with
    | nil =>
      dsimp only
      rw [Holds.bind_iff]
      apply (ensureCollection_at h hseparate).mono
      · rintro _ t₁ ⟨hat, hview⟩
        split
        · next hvalid =>
          rw [Holds.bind_iff, holds_scanRows hfits.reads hat.shows]
          split
          · exact createMultikeyIndex_good hat.good hat.shows path
          · next hmultikey =>
            rw [hview] at hmultikey
            obtain ⟨hdot, hcolumn⟩ := hfits.path path rfl hvalid (by simpa using hmultikey)
            apply createPathIndex_good hat (columnPath_derivedCol_iff.mpr hdot)
            rw [hview]
            exact hcolumn
        · exact hat.good
      · intro _ _ hfalse
        exact hfalse.elim
    | cons path' rest =>
      dsimp only
      rw [Holds.bind_iff]
      apply (ensureCollection_at h hseparate).mono
      · rintro _ t₁ ⟨hat, hview⟩
        apply createCompoundIndex_good hat hfits.reads
        rw [hview]
        exact hfits.paths (by simp)
      · intro _ _ hfalse
        exact hfalse.elim

end BlueDB.Collections
