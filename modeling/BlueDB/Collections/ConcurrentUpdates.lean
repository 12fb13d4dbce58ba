import BlueDB.Collections.FieldUpdates
import BlueDB.Collections.Identified

/-!
# Updates at the same time

An update reads the documents it matches and then writes one document after the other,
each of them as a whole. Other updates take their steps in between. While no document
is written that is not what its request has read, the documents are what the updates make
of them one after the other.
-/

namespace BlueDB.Collections

variable {F : Type}

theorem lookup_changeDocs (id : String) (g : Json F → Json F) (docs : Docs F) (k : String) :
    (changeDocs id g docs).lookup k = if k = id then (docs.lookup k).map g else docs.lookup k := by
  induction docs with
  | nil => simp [changeDocs]
  | cons p docs ih =>
    have hcons : changeDocs id g (p :: docs) =
        (if p.1 = id then (p.1, g p.2) else p) :: changeDocs id g docs := rfl
    rw [hcons, lookup_cons_ite, lookup_cons_ite, ih]
    by_cases hp : p.1 = id
    · rw [if_pos hp]
      by_cases hk : k = p.1
      · simp [hk, hp]
      · simp [hk]
    · rw [if_neg hp]
      by_cases hk : k = p.1
      · simp [hk, hp]
      · simp [hk]

theorem matchedRows_nodup {K : Crates F} {coll : String} {t : Tenant F} {query : Query}
    (h : query.ids.Nodup) (multi : Bool) :
    ((matchedRows K t coll query multi).map (·.id)).Nodup := by
  have hids : ∀ id row, (rowsOf t (query.source K coll)).find? (·.id == id) = some row →
      row.id = id := by
    intro id row hfind
    simpa using List.find?_some hfind
  have hall : ((query.ids.filterMap fun id =>
      (rowsOf t (query.source K coll)).find? (·.id == id)).map (·.id)).Nodup := by
    rw [List.map_filterMap]
    apply h.filterMap
    intro a b c hac hbc
    obtain ⟨row, hrow, rfl⟩ := Option.map_eq_some_iff.mp hac
    obtain ⟨row', hrow', hsame⟩ := Option.map_eq_some_iff.mp hbc
    rw [← hids a row hrow, ← hids b row' hrow', hsame]
  unfold matchedRows limited
  split_ifs
  · exact hall
  · exact hall.sublist ((List.take_sublist 1 _).map _)

variable [Sums F] {ι : Type} [DecidableEq ι]

/-- A request to update documents of a collection. -/
structure UpdateRequest (F : Type) where
  multi : Bool
  update : Json F

/-- Where a request stands; it has rows left to write. -/
inductive UpdatePhase (F : Type)
  | idle
  | updating (todo : List (DocRow F)) (dcols : List (String × IndexType))
      (cdefs : List (String × List String))
  | returned
  | failed

/-- No step reads the last two: the documents a request has matched, and which request has written
which document, in the order of the writes. -/
structure Updating (ι F : Type) where
  tenant : Tenant F
  phase : ι → UpdatePhase F
  matched : ι → List String
  written : List (ι × String)

inductive UpdateEvent (ι : Type)
  /-- The request reads what a query answers. -/
  | read (i : ι) (query : Query)
  /-- It writes the next document. -/
  | write (i : ι)
  | finish (i : ι)

namespace Updating

variable (K : Crates F) (coll : String) (requests : ι → UpdateRequest F)

def start (t : Tenant F) : Updating ι F := ⟨t, fun _ => .idle, fun _ => [], []⟩

def setPhase (s : Updating ι F) (i : ι) (p : UpdatePhase F) : Updating ι F :=
  { s with phase := Function.update s.phase i p }

/-- A query answers with each row once. -/
def step (s : Updating ι F) : UpdateEvent ι → Option (Updating ι F)
  | .read i query =>
    match s.phase i with
    | .idle =>
      if query.ids.Nodup then
        let rows := matchedRows K s.tenant coll query (requests i).multi
        let columns := (viewOf s.tenant coll).columns
        some { s.setPhase i (.updating rows (columnTypes columns) (compoundDefs columns)) with
          matched := Function.update s.matched i (rows.map (·.id)) }
      else none
    | _ => none
  | .write i =>
    match s.phase i with
    | .updating (row :: todo) dcols cdefs =>
      match updateDoc K coll (requests i).update dcols cdefs row s.tenant with
      | .ok _ t => some { s.setPhase i (.updating todo dcols cdefs) with
          tenant := t, written := s.written ++ [(i, row.id)] }
      | .error _ t => some { s.setPhase i .failed with tenant := t }
    | _ => none
  | .finish i =>
    match s.phase i with
    | .updating [] _ _ => some (s.setPhase i .returned)
    | _ => none

/-- The stored document under an `_id`. -/
def docAt (s : Updating ι F) (id : String) : Option (Json F) := (docsOf s.tenant coll).lookup id

/-- A document is written only while it is what the request has read. -/
def Undisturbed (s : Updating ι F) : UpdateEvent ι → Prop
  | .write i =>
    match s.phase i with
    | .updating (row :: _) _ _ => s.docAt coll row.id = some row.doc
    | _ => True
  | _ => True

def Next (allowed : Updating ι F → UpdateEvent ι → Prop) (s s' : Updating ι F) : Prop :=
  ∃ e, allowed s e ∧ s.step K coll requests e = some s'

def Reached (allowed : Updating ι F → UpdateEvent ι → Prop) (t : Tenant F) (s : Updating ι F) :
    Prop := Relation.ReflTransGen (Next K coll requests allowed) (start t) s

end Updating

theorem JsonNumber.same_eq {m n : JsonNumber F} (h : m.same n = true) : m = n := by
  cases m with
  | int i _ =>
    cases n with
    | int j _ =>
      have hij : i = j := of_decide_eq_true h
      subst hij
      rfl
    | float g => cases h
  | float f =>
    cases n with
    | int j _ => cases h
    | float g => exact congrArg _ (of_decide_eq_true h)

mutual

theorem Json.same_eq : ∀ v w : Json F, v.same w = true → v = w
  | .null, w, h => by
    cases w with
    | null => rfl
    | _ => simp [Json.same] at h
  | .bool b, w, h => by
    cases w with
    | bool c => exact congrArg _ (by simpa [Json.same] using h)
    | _ => simp [Json.same] at h
  | .number m, w, h => by
    cases w with
    | number n => exact congrArg _ (JsonNumber.same_eq (by simpa [Json.same] using h))
    | _ => simp [Json.same] at h
  | .string s, w, h => by
    cases w with
    | string t => exact congrArg _ (by simpa [Json.same] using h)
    | _ => simp [Json.same] at h
  | .array xs, w, h => by
    cases w with
    | array ys => exact congrArg _ (Json.sameItems_eq xs ys (by simpa [Json.same] using h))
    | _ => simp [Json.same] at h
  | .object fs, w, h => by
    cases w with
    | object gs => exact congrArg _ (Json.sameFields_eq fs gs (by simpa [Json.same] using h))
    | _ => simp [Json.same] at h

theorem Json.sameItems_eq : ∀ xs ys : List (Json F), Json.sameItems xs ys = true → xs = ys
  | [], ys, h => by
    cases ys with
    | nil => rfl
    | cons y ys => simp [Json.sameItems] at h
  | x :: xs, ys, h => by
    cases ys with
    | nil => simp [Json.sameItems] at h
    | cons y ys =>
      simp only [Json.sameItems, Bool.and_eq_true] at h
      rw [Json.same_eq x y h.1, Json.sameItems_eq xs ys h.2]

theorem Json.sameFields_eq : ∀ fs gs : Fields F, Json.sameFields fs gs = true → fs = gs
  | [], gs, h => by
    cases gs with
    | nil => rfl
    | cons g gs => simp [Json.sameFields] at h
  | f :: fs, gs, h => by
    cases gs with
    | nil => simp [Json.sameFields] at h
    | cons g gs =>
      simp only [Json.sameFields, Bool.and_eq_true] at h
      rw [Json.sameField_eq f g h.1, Json.sameFields_eq fs gs h.2]

theorem Json.sameField_eq : ∀ f g : String × Json F, Json.sameField f g = true → f = g
  | (k, v), (l, w), h => by
    simp only [Json.sameField, Bool.and_eq_true, beq_iff_eq] at h
    rw [h.1, Json.same_eq v w h.2]

end

/-- The document after an update. -/
def updated (doc update : Json F) : Except MqlError (Json F) :=
  (applyUpdate doc update).map Json.object

/-- What maintains the side tables leaves the documents of the collection. -/
theorem sides_stay (coll id : String) (doc : Json F) :
    Staying (fun n => n = coll) ((multikeySideTables (F := F) coll) >>= fun sides =>
      sides.forM fun (side, field) => do
        deleteById side id
        insertMultikeyElements side id (fieldItems (doc.get field))) := by
  constructor
  intro t
  rw [Holds.bind_iff, holds_multikeySideTables]
  have hside : ∀ side ∈ sidesIn t coll, ¬side.1 = coll := by
    intro side hside
    obtain ⟨e, _, he⟩ := List.mem_filterMap.mp hside
    obtain ⟨rest, hrest, rfl⟩ := Option.map_eq_some_iff.mp he
    rw [stripSide_eq_some] at hrest
    rw [hrest]
    exact (coll_ne_sideTable coll _).symm
  have htracks := stays_tracks (F := F) fun n => n = coll
  have hloop := Along.forM htracks (f := fun side : String × String => do
      deleteById side.1 id
      insertMultikeyElements side.1 id (fieldItems (doc.get side.2))) (sidesIn t coll) (by
    intro side hmem
    apply Along.bind htracks (staying_deleteById (S := fun n => n = coll) (hside side hmem) id)
    intro _
    exact staying_insertElements side.1 id _)
  exact hloop.holds t

/-- A write puts the updated document in the place of the one it has read. -/
theorem updateDoc_spec {K : Crates F} {coll : String} {upd : Json F}
    {dcols : List (String × IndexType)} {cdefs : List (String × List String)} {row : DocRow F}
    {t : Tenant F} (hrow : (docsOf t coll).lookup row.id = some row.doc) :
    Holds (updateDoc K coll upd dcols cdefs row) t
      (fun _ t' => ∃ doc, updated row.doc upd = .ok doc ∧ ∀ id,
        (docsOf t' coll).lookup id = if id = row.id then some doc else (docsOf t coll).lookup id)
      fun _ _ => True := by
  unfold updateDoc
  rw [Holds.bind_iff]
  cases happly : applyUpdate row.doc upd with
  | error e => trivial
  | ok fields =>
    have hupdated : updated row.doc upd = .ok (.object fields) := by
      unfold updated
      rw [happly]
      rfl
    change Holds (if (Json.object fields).same row.doc then _ else _) t _ _
    split_ifs with hsame
    · refine ⟨_, hupdated, ?_⟩
      intro id
      rw [Json.same_eq _ _ hsame]
      split_ifs with hid
      · rw [hid, hrow]
      · rfl
    · unfold rewriteDocRow
      rw [Holds.bind_iff]
      have hupdate := updateRow_edits (K := K) (t := t) coll row.id
        (f := fun r => { r with
          doc := .object fields
          cells := assign (assignments (.object fields) dcols cdefs) r.cells })
        (g := fun _ => .object fields) fun _ => ⟨rfl, rfl⟩
      apply hupdate.mono
      · intro _ t₁ hedits
        apply ((sides_stay coll row.id (.object fields)).holds t₁).mono
        · intro _ t₂ hstays
          refine ⟨_, hupdated, ?_⟩
          intro id
          rw [hstays.docs coll rfl, hedits.here, lookup_changeDocs]
          split_ifs with hid
          · rw [hid, hrow]
            rfl
          · rfl
        · exact fun _ _ _ => trivial
      · exact fun _ _ _ => trivial

namespace Updating

variable {K : Crates F} {coll : String} {requests : ι → UpdateRequest F} {s s' : Updating ι F}

/-- The requests that have written a document, in the order of their writes. -/
def writers (s : Updating ι F) (id : String) : List ι :=
  (s.written.filter fun w => w.2 = id).map Prod.fst

def writtenBy (s : Updating ι F) (i : ι) : List String :=
  (s.written.filter fun w => w.1 = i).map Prod.snd

/-- A request has written what it has matched, but for what it has left to write. -/
def Accounted (s : Updating ι F) (i : ι) : Prop :=
  match s.phase i with
  | .idle => s.matched i = [] ∧ s.writtenBy i = []
  | .updating todo _ _ => s.writtenBy i ++ todo.map (·.id) = s.matched i
  | .returned => s.writtenBy i = s.matched i
  | .failed => True

/-- Each document is what the updates that have written it make of the first one. -/
structure Serial (requests : ι → UpdateRequest F) (coll : String) (t : Tenant F)
    (s : Updating ι F) : Prop where
  folded : ∀ id doc, (docsOf t coll).lookup id = some doc → ∃ final,
    s.docAt coll id = some final ∧
      (s.writers id).foldlM (fun d i => updated d (requests i).update) doc = .ok final
  accounted : ∀ i, s.Accounted i
  nodup : ∀ i, (s.matched i).Nodup

theorem serial_start (t : Tenant F) : Serial requests coll t (start t) where
  folded := fun _ doc hdoc => ⟨doc, hdoc, rfl⟩
  accounted := fun _ => ⟨rfl, rfl⟩
  nodup := fun _ => List.nodup_nil

omit [Sums F] [DecidableEq ι] in
theorem writers_append (s : Updating ι F) (t : Tenant F) (p : ι → UpdatePhase F) (i : ι)
    (id id' : String) :
    ({ s with tenant := t, phase := p, written := s.written ++ [(i, id)] } : Updating ι F).writers
      id' = s.writers id' ++ if id = id' then [i] else [] := by
  unfold writers
  rw [List.filter_append, List.map_append]
  by_cases hid : id = id' <;> simp [hid]

omit [Sums F] in
theorem writtenBy_append (s : Updating ι F) (t : Tenant F) (p : ι → UpdatePhase F) (i j : ι)
    (id : String) :
    ({ s with tenant := t, phase := p, written := s.written ++ [(i, id)] } : Updating ι F).writtenBy
      j = s.writtenBy j ++ if i = j then [id] else [] := by
  unfold writtenBy
  rw [List.filter_append, List.map_append]
  by_cases hij : i = j <;> simp [hij]

theorem Serial.read {t : Tenant F} (h : Serial requests coll t s) {i : ι} {query : Query}
    (hstep : s.step K coll requests (.read i query) = some s') : Serial requests coll t s' := by
  simp only [step] at hstep
  split at hstep
  · next hidle =>
    split_ifs at hstep with hids
    cases hstep
    have hacc := h.accounted i
    unfold Accounted at hacc
    rw [hidle] at hacc
    refine ⟨h.folded, ?_, ?_⟩
    · intro j
      by_cases hj : j = i
      · subst hj
        unfold Accounted
        simp only [setPhase, Function.update_self]
        exact congrArg (· ++ _) hacc.2
      · have hother := h.accounted j
        unfold Accounted at hother ⊢
        simp only [setPhase, Function.update_of_ne hj]
        exact hother
    · intro j
      by_cases hj : j = i
      · subst hj
        simp only [Function.update_self]
        exact matchedRows_nodup hids _
      · simp only [Function.update_of_ne hj]
        exact h.nodup j
  · cases hstep

theorem Serial.write {t : Tenant F} (h : Serial requests coll t s) {i : ι}
    (hund : s.Undisturbed coll (.write i)) (hstep : s.step K coll requests (.write i) = some s')
    (hfail : s'.phase i ≠ .failed) : Serial requests coll t s' := by
  simp only [step] at hstep
  simp only [Undisturbed] at hund
  split at hstep
  · next row todo dcols cdefs hphase =>
    rw [hphase] at hund
    have hspec := @updateDoc_spec _ _ K _ ((requests i).update) dcols cdefs _ _ hund
    have hacc := h.accounted i
    unfold Accounted at hacc
    rw [hphase] at hacc
    unfold Holds at hspec
    split at hstep
    · next t' hres =>
      rw [hres] at hspec
      obtain ⟨doc, hdoc, hdocs⟩ := hspec
      cases hstep
      refine ⟨?_, ?_, h.nodup⟩
      · intro id first hfirst
        obtain ⟨final, hfinal, hfold⟩ := h.folded id first hfirst
        have hwriters := writers_append s t'
            (Function.update s.phase i (.updating todo dcols cdefs))
          i row.id id
        by_cases hid : row.id = id
        · subst hid
          rw [if_pos rfl] at hwriters
          have hsame : row.doc = final := Option.some.inj (hund.symm.trans hfinal)
          refine ⟨doc, (hdocs row.id).trans (if_pos rfl), ?_⟩
          refine (congrArg (fun l => List.foldlM _ first l) hwriters).trans ?_
          rw [List.foldlM_append, hfold, ← hsame]
          change [i].foldlM (fun d i => updated d (requests i).update) row.doc = .ok doc
          rw [List.foldlM_cons, hdoc]
          rfl
        · rw [if_neg hid, List.append_nil] at hwriters
          refine ⟨final, (hdocs id).trans ((if_neg (Ne.symm hid)).trans hfinal), ?_⟩
          exact (congrArg (fun l => List.foldlM _ first l) hwriters).trans hfold
      · intro j
        have hwritten := writtenBy_append s t'
          (Function.update s.phase i (.updating todo dcols cdefs)) i j row.id
        by_cases hj : i = j
        · subst hj
          rw [if_pos rfl] at hwritten
          unfold Accounted
          simp only [setPhase, Function.update_self]
          refine (congrArg (· ++ _) hwritten).trans ?_
          rw [List.append_assoc]
          exact hacc
        · rw [if_neg hj, List.append_nil] at hwritten
          have hother := h.accounted j
          unfold Accounted at hother ⊢
          simp only [setPhase, Function.update_of_ne (Ne.symm hj)] at hwritten ⊢
          rw [hwritten]
          exact hother
    · next hres =>
      cases hstep
      exact absurd (Function.update_self _ _ _) hfail
  · cases hstep

theorem Serial.finish {t : Tenant F} (h : Serial requests coll t s) {i : ι}
    (hstep : s.step K coll requests (.finish i) = some s') : Serial requests coll t s' := by
  simp only [step] at hstep
  split at hstep
  · next hphase =>
    cases hstep
    refine ⟨h.folded, ?_, h.nodup⟩
    intro j
    have hother := h.accounted j
    by_cases hj : j = i
    · subst hj
      unfold Accounted at hother ⊢
      simp only [hphase, List.map_nil, List.append_nil] at hother
      simp only [setPhase, Function.update_self]
      exact hother
    · unfold Accounted at hother ⊢
      simp only [setPhase, Function.update_of_ne hj]
      exact hother
  · cases hstep

theorem Serial.step {t : Tenant F} (h : Serial requests coll t s) {e : UpdateEvent ι}
    (hund : s.Undisturbed coll e) (hstep : s.step K coll requests e = some s')
    (hfail : ∀ i, s'.phase i ≠ .failed) : Serial requests coll t s' := by
  cases e with
  | read i query => exact h.read hstep
  | write i => exact h.write hund hstep (hfail i)
  | finish i => exact h.finish hstep

theorem failed_step {e : UpdateEvent ι} (hstep : s.step K coll requests e = some s') {i : ι}
    (hi : s.phase i = .failed) : s'.phase i = .failed := by
  have hset : ∀ {j : ι} {p : UpdatePhase F}, s.phase j ≠ .failed →
      Function.update s.phase j p i = .failed := by
    intro j p hj
    have hij : i ≠ j := by
      rintro rfl
      exact hj hi
    rw [Function.update_of_ne hij]
    exact hi
  cases e with
  | read j query =>
    simp only [Updating.step] at hstep
    split at hstep
    · next hphase =>
      split_ifs at hstep
      cases hstep
      exact hset (by rw [hphase]; nofun)
    · cases hstep
  | write j =>
    simp only [Updating.step] at hstep
    split at hstep
    · next hphase =>
      split at hstep <;>
      · cases hstep
        exact hset (by rw [hphase]; nofun)
    · cases hstep
  | finish j =>
    simp only [Updating.step] at hstep
    split at hstep
    · next hphase =>
      cases hstep
      exact hset (by rw [hphase]; nofun)
    · cases hstep

theorem Reached.serial {t : Tenant F}
    (h : s.Reached K coll requests (fun s e => s.Undisturbed coll e) t)
    (hfail : ∀ i, s.phase i ≠ .failed) : Serial requests coll t s := by
  induction h with
  | refl => exact serial_start t
  | tail _ hnext ih =>
    obtain ⟨e, hund, hstep⟩ := hnext
    refine (ih ?_).step hund hstep hfail
    intro i hi
    exact hfail i (failed_step hstep hi)

omit [Sums F] in
theorem count_writers (s : Updating ι F) (i : ι) (id : String) :
    (s.writers id).count i = (s.writtenBy i).count id := by
  unfold writers writtenBy
  induction s.written with
  | nil => rfl
  | cons w written ih =>
    obtain ⟨j, id'⟩ := w
    by_cases hid : id' = id <;> by_cases hj : j = i <;> simp [hid, hj, ih]

end Updating

theorem updated_get {doc upd doc' : Json F} (hops : HasOperators upd)
    (h : updated doc upd = .ok doc') : ∃ fields fields', doc = .object fields ∧
      doc' = .object fields' ∧ applyUpdate (.object fields) upd = .ok fields' := by
  unfold updated at h
  cases happly : applyUpdate doc upd with
  | error e =>
    rw [happly] at h
    cases h
  | ok fields' =>
    rw [happly] at h
    cases h
    cases doc with
    | object fields => exact ⟨fields, fields', rfl, rfl, happly⟩
    | _ =>
      obtain ⟨ops, rfl⟩ := object_of_hasOperators hops
      have hany : (ops.any fun op => op.1.toList.head? == some '$') = true := hops
      unfold applyUpdate at happly
      dsimp only at happly
      rw [if_pos hany] at happly
      cases happly

omit [DecidableEq ι] in
theorem foldlM_frame {u : ι → Json F} {order : List ι} {doc doc' : Json F} {k : String}
    (hops : ∀ i ∈ order, HasOperators (u i)) (hk : ∀ i ∈ order, k ∉ touched (u i))
    (h : order.foldlM (fun d i => updated d (u i)) doc = .ok doc') : doc'.get k = doc.get k := by
  induction order generalizing doc with
  | nil =>
    cases h
    rfl
  | cons i order ih =>
    rw [List.foldlM_cons] at h
    cases hi : updated doc (u i) with
    | error e =>
      rw [hi] at h
      cases h
    | ok d =>
      rw [hi] at h
      have hrest := ih (fun j hj => hops j (List.mem_cons_of_mem _ hj))
        (fun j hj => hk j (List.mem_cons_of_mem _ hj)) h
      obtain ⟨fields, fields', rfl, rfl, happly⟩ := updated_get (hops i List.mem_cons_self) hi
      exact hrest.trans (applyUpdate_frame (hops i List.mem_cons_self) happly
        (hk i List.mem_cons_self))

omit [DecidableEq ι] in
/-- Of updates that name different fields, each has its effect on the first document. -/
theorem foldlM_reflects {u : ι → Json F} {order : List ι} {doc doc' : Json F}
    (hops : ∀ i ∈ order, HasOperators (u i))
    (hapart : order.Pairwise fun i j => ∀ k ∈ touched (u i), k ∉ touched (u j))
    (h : order.foldlM (fun d i => updated d (u i)) doc = .ok doc') :
    ∀ i ∈ order, ∃ alone, updated doc (u i) = .ok alone ∧
      ∀ k ∈ touched (u i), doc'.get k = alone.get k := by
  induction order generalizing doc with
  | nil => exact fun i hi => absurd hi List.not_mem_nil
  | cons i order ih =>
    obtain ⟨hfirst, hrest⟩ := List.pairwise_cons.mp hapart
    rw [List.foldlM_cons] at h
    cases hi : updated doc (u i) with
    | error e =>
      rw [hi] at h
      cases h
    | ok d =>
      rw [hi] at h
      intro j hj
      rcases List.mem_cons.mp hj with rfl | hj
      · refine ⟨d, hi, ?_⟩
        intro k hk
        exact foldlM_frame (fun m hm => hops m (List.mem_cons_of_mem _ hm))
          (fun m hm => hfirst m hm k hk) h
      · obtain ⟨alone, halone, hsame⟩ :=
          ih (fun m hm => hops m (List.mem_cons_of_mem _ hm)) hrest h j hj
        have hopsj := hops j (List.mem_cons_of_mem _ hj)
        obtain ⟨fields, fields', rfl, rfl, happly⟩ := updated_get (hops i List.mem_cons_self) hi
        obtain ⟨_, result, hd, rfl, hresult⟩ := updated_get hopsj halone
        cases hd
        have hagree : Agree (· ∈ touched (u j)) fields' fields := by
          intro k hk
          exact applyUpdate_frame (hops i List.mem_cons_self) happly
            fun hki => hfirst j hj k hki hk
        obtain ⟨other, hother, hequal⟩ := applyUpdate_agree hopsj hagree hresult
        refine ⟨.object other, ?_, ?_⟩
        · unfold updated
          rw [hother]
          rfl
        · intro k hk
          exact (hsame k hk).trans (hequal k hk)

/-- When all requests have returned, after a run in which a document is written only while it is
what its request has read, each document is what the updates that matched it make of the first
one, each of them once; and updates with operators on different fields leave in their fields what
each of them alone makes of the first document. -/
theorem updates_reflected (K : Crates F) (coll : String) (requests : ι → UpdateRequest F)
    (t : Tenant F) (s : Updating ι F)
    (h : s.Reached K coll requests (fun s e => s.Undisturbed coll e) t)
    (hreturned : ∀ i, s.phase i = .idle ∨ s.phase i = .returned) (id : String) (first : Json F)
    (hfirst : (docsOf t coll).lookup id = some first) :
    ∃ order : List ι, order.Nodup ∧ (∀ i, i ∈ order ↔ id ∈ s.matched i) ∧ ∃ final,
      s.docAt coll id = some final ∧
      order.foldlM (fun d i => updated d (requests i).update) first = .ok final ∧
      ((∀ i ∈ order, HasOperators (requests i).update) →
        (order.Pairwise fun i j => ∀ k ∈ touched (requests i).update,
          k ∉ touched (requests j).update) →
        ∀ i ∈ order, ∃ alone, updated first (requests i).update = .ok alone ∧
          ∀ k ∈ touched (requests i).update, final.get k = alone.get k) := by
  have hserial := h.serial (by
    intro i hi
    rcases hreturned i with heq | heq <;>
    · rw [hi] at heq
      cases heq)
  have hwritten : ∀ i, s.writtenBy i = s.matched i := by
    intro i
    have hacc := hserial.accounted i
    unfold Updating.Accounted at hacc
    rcases hreturned i with heq | heq
    · rw [heq] at hacc
      rw [hacc.1, hacc.2]
    · rw [heq] at hacc
      exact hacc
  obtain ⟨final, hfinal, hfold⟩ := hserial.folded id first hfirst
  refine ⟨s.writers id, ?_, ?_, final, hfinal, hfold, ?_⟩
  · rw [List.nodup_iff_count_le_one]
    intro i
    rw [Updating.count_writers, hwritten]
    exact List.nodup_iff_count_le_one.mp (hserial.nodup i) id
  · intro i
    rw [← List.count_pos_iff, Updating.count_writers, hwritten, List.count_pos_iff]
  · intro hops hapart
    exact foldlM_reflects hops hapart hfold

namespace Example

/-- `{"_id": "a", "n": 1}` -/
def counter : Json ℤ := .object [("_id", .string "a"), ("n", .number (.int 1 (by decide)))]

def counters : Tenant ℤ :=
  { (Tenant.empty : Tenant ℤ) with
    tables := (OrderedMap.empty : OrderedMap String (Table ℤ)).insert "users"
      (.documents [] [⟨"a", counter, fun _ => .null⟩]) }

/-- `{"$inc": {"n": 1}}` and `{"$set": {"name": "x"}}` -/
def increment : Json ℤ := .object [("$inc", .object [("n", .number (.int 1 (by decide)))])]

def rename : Json ℤ := .object [("$set", .object [("name", .string "x")])]

def twoUpdates : Bool → UpdateRequest ℤ
  | false => ⟨false, increment⟩
  | true => ⟨false, rename⟩

abbrev UpdateRun := Updating Bool ℤ

def inTurn (s : UpdateRun) : UpdateEvent Bool → Bool
  | .write i =>
    match s.phase i with
    | .updating (row :: _) _ _ => (s.docAt "users" row.id).any fun doc => doc.same row.doc
    | _ => true
  | _ => true

def stepUpdates (s : UpdateRun) (e : UpdateEvent Bool) : Option UpdateRun :=
  s.step crates "users" twoUpdates e

def playUpdates (s : UpdateRun) : List (UpdateEvent Bool) → Option UpdateRun
  | [] => some s
  | e :: events => (stepUpdates s e).bind fun s => playUpdates s events

/-- Every step is in turn where it happens. -/
def playsInTurn (s : UpdateRun) : List (UpdateEvent Bool) → Bool
  | [] => true
  | e :: events => inTurn s e && (stepUpdates s e).all fun s => playsInTurn s events

theorem undisturbed_of_inTurn {s : UpdateRun} {e : UpdateEvent Bool} (h : inTurn s e = true) :
    s.Undisturbed "users" e := by
  cases e with
  | write i =>
    simp only [inTurn, Updating.Undisturbed] at h ⊢
    cases hphase : s.phase i with
    | updating todo dcols cdefs =>
      cases todo with
      | nil => trivial
      | cons row todo =>
        rw [hphase] at h
        obtain ⟨doc, hdoc, hsame⟩ := (Option.any_eq_true _ _).mp h
        change s.docAt "users" row.id = some row.doc
        rw [hdoc, Json.same_eq _ _ hsame]
    | _ => trivial
  | _ => trivial

theorem reached_of_playsInTurn {t : Tenant ℤ} {s s' : UpdateRun} {events : List (UpdateEvent Bool)}
    (h : s.Reached crates "users" twoUpdates (fun s e => s.Undisturbed "users" e) t)
    (hturn : playsInTurn s events = true) (hplay : playUpdates s events = some s') :
    s'.Reached crates "users" twoUpdates (fun s e => s.Undisturbed "users" e) t := by
  induction events generalizing s with
  | nil =>
    cases hplay
    exact h
  | cons e events ih =>
    obtain ⟨s₁, hstep, hrest⟩ := Option.bind_eq_some_iff.mp hplay
    simp only [playsInTurn, Bool.and_eq_true, hstep, Option.all_some] at hturn
    exact ih (h.tail ⟨e, undisturbed_of_inTurn hturn.1, hstep⟩) hturn.2 hrest

theorem reached_of_play {t : Tenant ℤ} {s s' : UpdateRun} {events : List (UpdateEvent Bool)}
    (h : s.Reached crates "users" twoUpdates (fun _ _ => True) t)
    (hplay : playUpdates s events = some s') :
    s'.Reached crates "users" twoUpdates (fun _ _ => True) t := by
  induction events generalizing s with
  | nil =>
    cases hplay
    exact h
  | cons e events ih =>
    obtain ⟨s₁, hstep, hrest⟩ := Option.bind_eq_some_iff.mp hplay
    exact ih (h.tail ⟨e, trivial, hstep⟩) hrest

def hasReturned (s : UpdateRun) (i : Bool) : Bool :=
  match s.phase i with
  | .returned => true
  | _ => false

theorem returned_of_hasReturned {s : UpdateRun} {i : Bool} (h : hasReturned s i = true) :
    s.phase i = .returned := by
  unfold hasReturned at h
  split at h
  · next hphase => exact hphase
  · cases h

def updatesOf (events : List (UpdateEvent Bool)) : UpdateRun :=
  (playUpdates (.start counters) events).getD (.start .empty)

def oneByOne : List (UpdateEvent Bool) :=
  [.read false ⟨["a"], false⟩, .write false, .finish false,
    .read true ⟨["a"], false⟩, .write true, .finish true]

theorem play_oneByOne : playUpdates (.start counters) oneByOne = some (updatesOf oneByOne) := by
  have hplays : (playUpdates (.start counters) oneByOne).isSome = true := by decide +kernel
  obtain ⟨s, hs⟩ := Option.isSome_iff_exists.mp hplays
  rw [hs]
  exact congrArg some (congrArg (Option.getD · _) hs).symm

theorem updates_reflected_oneByOne :
    ∃ order : List Bool, order.Nodup ∧ (∀ i, i ∈ order ↔ "a" ∈ (updatesOf oneByOne).matched i) ∧
      ∃ final, (updatesOf oneByOne).docAt "users" "a" = some final ∧
        order.foldlM (fun d i => updated d (twoUpdates i).update) counter = .ok final := by
  have hreached : (updatesOf oneByOne).Reached crates "users" twoUpdates
      (fun s e => s.Undisturbed "users" e) counters :=
    reached_of_playsInTurn .refl (by decide +kernel) play_oneByOne
  have hreturned : ∀ i, (updatesOf oneByOne).phase i = .idle ∨
      (updatesOf oneByOne).phase i = .returned := by
    have hall : ∀ i, hasReturned (updatesOf oneByOne) i = true := by decide +kernel
    exact fun i => .inr (returned_of_hasReturned (hall i))
  obtain ⟨order, hnodup, horder, final, hfinal, hfold, _⟩ :=
    updates_reflected crates "users" twoUpdates counters _ hreached hreturned "a" counter rfl
  exact ⟨order, hnodup, horder, final, hfinal, hfold⟩

/-- Both requests read the document before one of them writes it. -/
def readsFirst : List (UpdateEvent Bool) :=
  [.read false ⟨["a"], false⟩, .read true ⟨["a"], false⟩, .write false, .write true,
    .finish false, .finish true]

def textAt (s : UpdateRun) (k : String) : Option String :=
  ((s.docAt "users" "a").bind fun doc => doc.get k).map Json.render

/-- The updates are on different fields and both requests return; the stored document has the old
value of the field that the first one has incremented. -/
theorem updates_lost : ∃ s : UpdateRun,
    s.Reached crates "users" twoUpdates (fun _ _ => True) counters ∧
    (∀ i, s.phase i = .returned ∧ s.matched i = ["a"] ∧ HasOperators (twoUpdates i).update) ∧
    touched (twoUpdates false).update = ["n"] ∧ touched (twoUpdates true).update = ["name"] ∧
    ((updated counter increment).toOption.bind fun doc => (doc.get "n").map Json.render) =
      some "2" ∧
    textAt s "n" = some "1" := by
  have hplays : (playUpdates (.start counters) readsFirst).isSome = true := by decide +kernel
  obtain ⟨s, hs⟩ := Option.isSome_iff_exists.mp hplays
  have hget : updatesOf readsFirst = s := congrArg (Option.getD · _) hs
  have hreturned : ∀ i, hasReturned (updatesOf readsFirst) i = true := by decide +kernel
  have hmatched : ∀ i, (updatesOf readsFirst).matched i = ["a"] := by decide +kernel
  have htext : textAt (updatesOf readsFirst) "n" = some "1" := by decide +kernel
  rw [hget] at hreturned hmatched htext
  refine ⟨s, reached_of_play .refl hs, ?_, rfl, rfl, by decide +kernel, htext⟩
  intro i
  refine ⟨returned_of_hasReturned (hreturned i), hmatched i, ?_⟩
  cases i with
  | false => exact (by decide +kernel : (["$inc"].any fun op => op.toList.head? == some '$') = true)
  | true => exact (by decide +kernel : (["$set"].any fun op => op.toList.head? == some '$') = true)

end Example

end BlueDB.Collections
