import BlueDB.Collections.Documents
import BlueDB.Collections.IndexMatch

/-!
# The documents that a sweep deletes

A sweep looks the time up under the whole path as one key, in the table that the query
engine takes the name of the collection for. It casts the number that it finds, and adds
the seconds in 64 bits.
-/

namespace BlueDB.Collections

variable {F : Type} {K : Crates F} {t t' : Tenant F} {value : F → ℚ}
  {coll path : String} {seconds now : ℤ}

/-- The time of a field as it is, in seconds. -/
def exactTime (K : Crates F) (value : F → ℚ) : Option (Json F) → Option ℚ
  | some (.number (.int i _)) => some i
  | some (.number (.float f)) => some (value f)
  | some (.string s) => (K.parseTime s).map fun e => (e : ℚ)
  | _ => none

def Due (K : Crates F) (value : F → ℚ) (seconds now : ℤ) (v : Option (Json F)) : Prop :=
  ∃ e, exactTime K value v = some e ∧ e + seconds ≤ now

/-- Toward zero, and to the nearest end of the range. -/
def saturate (q : ℚ) : ℤ := max i64Min (min i64Max (if 0 ≤ q then ⌊q⌋ else ⌈q⌉))

theorem saturate_range (q : ℚ) : i64Min ≤ saturate q ∧ saturate q ≤ i64Max := by
  have hle : i64Min ≤ i64Max := by decide
  unfold saturate
  omega

theorem saturate_int {i : ℤ} (h : i64Min ≤ i) (h' : i ≤ i64Max) : saturate i = i := by
  have hround : (if 0 ≤ (i : ℚ) then ⌊(i : ℚ)⌋ else ⌈(i : ℚ)⌉) = i := by simp
  rw [saturate, hround]
  omega

theorem saturate_large {q : ℚ} (h : 2 ^ 63 ≤ q) : saturate q = i64Max := by
  have hpos : 0 ≤ q := le_trans (by norm_num) h
  have hfloor : 2 ^ 63 ≤ ⌊q⌋ := by
    rw [Int.le_floor]
    exact_mod_cast h
  rw [saturate, if_pos hpos]
  unfold i64Min i64Max
  omega

/-- Now lies between a time and its cast, the seconds added to both. -/
def Between (seconds now : ℤ) (e : ℚ) : Prop :=
  min (saturate e : ℚ) e + seconds ≤ now ∧ now < max (saturate e : ℚ) e + seconds

/-- A sum that stays in the range puts a value on the side of now that its cast is on. -/
theorem cast_due (v : Option (Json F)) :
    ((∃ e, exactTime K value v = some e ∧ saturate e + seconds ≤ now) ↔
      Due K value seconds now v) ↔
    ¬ ∃ e, exactTime K value v = some e ∧ Between seconds now e := by
  unfold Due Between
  cases exactTime K value v with
  | none => simp
  | some e =>
    have hcast : saturate e + seconds ≤ now ↔ (saturate e : ℚ) + seconds ≤ now := by
      exact_mod_cast Iff.rfl
    simp only [Option.some.injEq, exists_eq_left', hcast]
    rcases le_total (saturate e : ℚ) e with hle | hle
    · rw [min_eq_left hle, max_eq_right hle]
      constructor
      · rintro h ⟨hlow, hhigh⟩
        exact absurd (h.mp hlow) (not_le.mpr hhigh)
      · intro h
        constructor
        · intro hlow
          exact not_lt.mp fun hhigh => h ⟨hlow, hhigh⟩
        · intro hdue
          linarith
    · rw [min_eq_right hle, max_eq_left hle]
      constructor
      · rintro h ⟨hlow, hhigh⟩
        exact absurd (h.mpr hlow) (not_le.mpr hhigh)
      · intro h
        constructor
        · intro hlow
          linarith
        · intro hdue
          exact not_lt.mp fun hhigh => h ⟨hdue, hhigh⟩

theorem wrong_iff {kept judged due between : Prop} (h : (kept ↔ judged) ↔ ¬between) :
    ((¬kept ↔ ¬due) ↔ (between ↔ ¬(judged ↔ due))) := by
  by_cases hbetween : between
  · simp only [hbetween, not_true_eq_false, iff_false] at h
    simp only [hbetween, true_iff]
    tauto
  · simp only [hbetween, not_false_eq_true, iff_true] at h
    simp only [hbetween, false_iff, not_not, h]
    tauto

theorem removeDocs_append (ids ids' : List String) (docs : Docs F) :
    removeDocs ids' (removeDocs ids docs) = removeDocs (ids ++ ids') docs := by
  unfold removeDocs
  rw [List.filter_filter]
  apply List.filter_congr
  intro p _
  simp [Bool.and_comm]

theorem deleteById_document {id : String}
    (hcoll : ∃ columns rows, t.tables.get coll = some (.documents columns rows)) :
    Holds (deleteById coll id) t (fun _ t' => Edits coll (removeDocs [id]) t t' ∧
      ∃ columns rows, t'.tables.get coll = some (.documents columns rows)) fun _ _ => False := by
  obtain ⟨columns, rows, hcoll⟩ := hcoll
  have hedits := deleteById_edits coll id (t := t)
  unfold deleteById at hedits ⊢
  rw [Holds.bind_iff, holds_table, hcoll] at hedits ⊢
  refine ⟨hedits, columns, rows.filter (·.id != id), ?_⟩
  change (t.tables.insert coll _).get coll = _
  rw [OrderedMap.get_insert, if_pos rfl]

theorem docsOf_view (t : Tenant F) (name : String) :
    docsOf t name = (viewOf t name).rows.map fun row => (row.id, row.doc) := by
  unfold docsOf docsIn viewOf
  cases t.tables.get name with
  | none => rfl
  | some content => cases content <;> rfl

theorem lookup_eq_some_iff {docs : Docs F} (h : (docs.map Prod.fst).Nodup) {id : String}
    {doc : Json F} : docs.lookup id = some doc ↔ (id, doc) ∈ docs := by
  induction docs with
  | nil => simp
  | cons p docs ih =>
    obtain ⟨id', doc'⟩ := p
    obtain ⟨hnot, hnodup⟩ := List.nodup_cons.mp h
    rw [List.lookup_cons, List.mem_cons]
    by_cases hid : id = id'
    · subst hid
      have hrest : (id, doc) ∉ docs := fun hmem => hnot (List.mem_map.mpr ⟨_, hmem, rfl⟩)
      simp [hrest, eq_comm]
    · have hbeq : (id == id') = false := by simpa using hid
      simp [hbeq, hid, ih hnodup]

variable [Sums F]

/-- The casts from and to floats, and the times of the calendar. -/
structure Casts (K : Crates F) (value : F → ℚ) : Prop where
  truncate : ∀ f, K.truncate f = saturate (value f)
  large : ∀ i : ℤ, 2 ^ 63 ≤ i → i < 2 ^ 64 → 2 ^ 63 ≤ value (Doubles.ofInt i)
  time : ∀ s e, K.parseTime s = some e → i64Min ≤ e ∧ e ≤ i64Max

theorem fieldEpoch_eq (h : Casts K value) (v : Option (Json F)) :
    fieldEpoch K v = (exactTime K value v).map saturate := by
  unfold fieldEpoch exactTime
  split
  · next n =>
    cases n with
    | int i range =>
      by_cases hi : i ≤ i64Max
      · simp [JsonNumber.asI64, hi, saturate_int range.1 hi]
      · have hlarge : 2 ^ 63 ≤ i := by
          unfold i64Max at hi
          omega
        have hq : (2 : ℚ) ^ 63 ≤ i := by exact_mod_cast hlarge
        simp [JsonNumber.asI64, hi, JsonNumber.asF64, h.truncate,
          saturate_large (h.large i hlarge range.2), saturate_large hq]
    | float f => simp [JsonNumber.asI64, JsonNumber.asF64, h.truncate]
  · next s =>
    cases hs : K.parseTime s with
    | none => simp [hs]
    | some e =>
      have hrange := h.time s e hs
      simp [hs, saturate_int hrange.1 hrange.2]
  · next hnumber hstring =>
    split
    · exact absurd rfl (hnumber _)
    · exact absurd rfl (hnumber _)
    · exact absurd rfl (hstring _)
    · rfl

theorem wrappingAddI64_iff {c : ℤ} (hc : i64Min ≤ c ∧ c ≤ i64Max) (hs : 0 ≤ seconds)
    (hs' : seconds ≤ i64Max) : wrappingAddI64 c seconds = c + seconds ↔ c + seconds ≤ i64Max := by
  unfold wrappingAddI64
  unfold i64Min i64Max at *
  rw [Int.bmod_def]
  split <;> omega

/-- The value that a sweep judges a document by: the one under the whole path as one key, in
the document of the same `_id` in the table that is read. -/
def judged (K : Crates F) (t : Tenant F) (coll path id : String) : Option (Json F) :=
  ((docsOf t (K.tableName coll)).lookup id).bind fun doc => doc.get path

def expiredIds (K : Crates F) (t : Tenant F) (coll path : String) (seconds now : ℤ) : List String :=
  ((docsOf t (K.tableName coll)).filter fun p => expired K path seconds now p.2).map Prod.fst

/-- The `_id`s of the rows that are expired. -/
def expiredRows (K : Crates F) (path : String) (seconds now : ℤ) (rows : List (DocRow F)) :
    List String :=
  (rows.filter fun row => expired K path seconds now row.doc).map (·.id)

theorem expiredIds_eq : expiredIds K t coll path seconds now =
    expiredRows K path seconds now (viewOf t (K.tableName coll)).rows := by
  rw [expiredIds, docsOf_view, List.filter_map, List.map_map]
  rfl

/-- A sweep deletes the documents of the expired `_id`s and nothing else. -/
theorem sweepTtl_edits (hcoll : ∃ columns rows, t.tables.get coll =
    some (.documents columns rows)) :
    ∃ t', sweepTtl K coll path seconds now t = .ok ⟨⟩ t' ∧
      Edits coll (removeDocs (expiredIds K t coll path seconds now)) t t' := by
  have hsweep : Holds (sweepTtl K coll path seconds now) t
      (fun _ t' => Edits coll (removeDocs (expiredIds K t coll path seconds now)) t t' ∧
        ∃ columns rows, t'.tables.get coll = some (.documents columns rows))
      fun _ _ => False := by
    unfold sweepTtl
    rw [Holds.bind_iff, holds_documentRows, expiredIds_eq]
    have hnone : removeDocs (F := F) (expiredRows K path seconds now []) = id := by
      funext docs
      simp [removeDocs, expiredRows]
    apply Holds.forM_log fun done t' =>
        Edits coll (removeDocs (expiredRows K path seconds now done)) t t' ∧
      ∃ columns rows, t'.tables.get coll = some (.documents columns rows)
    · exact ⟨hnone ▸ Edits.refl coll t, hcoll⟩
    · rintro done row rest - t' ⟨hedits, hdocs⟩
      split
      · next hexpired =>
        apply (deleteById_document hdocs).mono
        · rintro _ t'' ⟨hdelete, hdocs'⟩
          refine ⟨⟨?_, fun m hm => (hdelete.others m hm).trans (hedits.others m hm)⟩, hdocs'⟩
          rw [hdelete.here, hedits.here, removeDocs_append]
          simp [expiredRows, hexpired]
        · intro _ _ h
          exact h
      · next hkept =>
        refine ⟨?_, hdocs⟩
        simpa [expiredRows, hkept] using hedits
  unfold Holds at hsweep
  cases hrun : sweepTtl K coll path seconds now t with
  | ok a t' =>
    rw [hrun] at hsweep
    exact ⟨t', rfl, hsweep.1⟩
  | error e t' =>
    rw [hrun] at hsweep
    exact hsweep.elim

/-- The sums are in the range, and a document is judged by a time on the wrong side of now if
and only if that value and the one at the path are not both due. -/
structure SweepsDue (K : Crates F) (value : F → ℚ) (t : Tenant F) (coll path : String)
    (seconds now : ℤ) : Prop where
  sums : ∀ p ∈ docsOf t (K.tableName coll), ∀ e,
    exactTime K value (p.2.get path) = some e → saturate e + seconds ≤ i64Max
  judges : ∀ p ∈ docsOf t coll,
    (∃ e, exactTime K value (judged K t coll path p.1) = some e ∧ Between seconds now e) ↔
      ¬ (Due K value seconds now (judged K t coll path p.1) ↔
        Due K value seconds now (field p.2 path))

omit [Sums F] in
/-- At a path without a dot a document is judged by the right value. -/
theorem sweepsDue_of_undotted (hids : UniqueIds t) (hname : K.tableName coll = coll)
    (hpath : '.' ∉ path.toList) : SweepsDue K value t coll path seconds now ↔
      ∀ p ∈ docsOf t coll, ∀ e, exactTime K value (p.2.get path) = some e →
        saturate e + seconds ≤ i64Max ∧ ¬ Between seconds now e := by
  have hjudged : ∀ p ∈ docsOf t coll, judged K t coll path p.1 = p.2.get path := by
    intro p hp
    unfold judged
    rw [hname, (lookup_eq_some_iff (hids coll)).mpr hp, Option.bind_some]
  constructor
  · intro h p hp e he
    refine ⟨h.sums p (hname.symm ▸ hp) e he, fun hbetween => ?_⟩
    have hwrong := (h.judges p hp).mp ⟨e, (hjudged p hp).symm ▸ he, hbetween⟩
    rw [hjudged p hp, field_of_not_mem hpath] at hwrong
    exact hwrong Iff.rfl
  · intro h
    refine ⟨fun p hp e he => (h p (hname ▸ hp) e he).1, fun p hp => ?_⟩
    rw [hjudged p hp, field_of_not_mem hpath]
    exact iff_of_false (fun ⟨e, he, hbetween⟩ => (h p hp e he).2 hbetween) fun hne => hne Iff.rfl

/-- An `_id` is deleted when the sum for the value it is judged by is not after now. -/
theorem mem_expiredIds_iff (hcasts : Casts K value) (hids : UniqueIds t)
    (hsums : ∀ p ∈ docsOf t (K.tableName coll), ∀ e,
      exactTime K value (p.2.get path) = some e →
        wrappingAddI64 (saturate e) seconds = saturate e + seconds) (id : String) :
    id ∈ expiredIds K t coll path seconds now ↔
      ∃ e, exactTime K value (judged K t coll path id) = some e ∧ saturate e + seconds ≤ now := by
  have hexpired : ∀ p ∈ docsOf t (K.tableName coll), expired K path seconds now p.2 = true ↔
      ∃ e, exactTime K value (p.2.get path) = some e ∧ saturate e + seconds ≤ now := by
    intro p hp
    rw [expired, fieldEpoch_eq hcasts]
    cases he : exactTime K value (p.2.get path) with
    | none => simp
    | some e => simp [hsums p hp e he]
  have hjudged : ∀ e, exactTime K value (judged K t coll path id) = some e ↔
      ∃ doc, (id, doc) ∈ docsOf t (K.tableName coll) ∧
        exactTime K value (doc.get path) = some e := by
    intro e
    unfold judged
    cases hlookup : (docsOf t (K.tableName coll)).lookup id with
    | none =>
      have hno : ∀ doc, (id, doc) ∉ docsOf t (K.tableName coll) := by
        intro doc hmem
        rw [(lookup_eq_some_iff (hids _)).mpr hmem] at hlookup
        cases hlookup
      simp [hno, exactTime]
    | some doc =>
      have hdoc : ∀ doc', (id, doc') ∈ docsOf t (K.tableName coll) ↔ doc = doc' := by
        intro doc'
        rw [← lookup_eq_some_iff (hids _), hlookup, Option.some.injEq]
      simp [hdoc]
  simp only [expiredIds, List.mem_map, List.mem_filter, Prod.exists, exists_and_right,
    exists_eq_right]
  constructor
  · rintro ⟨doc, hmem, hdoc⟩
    obtain ⟨e, he, hle⟩ := (hexpired _ hmem).mp hdoc
    exact ⟨e, (hjudged e).mpr ⟨doc, hmem, he⟩, hle⟩
  · rintro ⟨e, he, hle⟩
    obtain ⟨doc, hmem, hdoc⟩ := (hjudged e).mp he
    exact ⟨doc, hmem, (hexpired _ hmem).mpr ⟨e, hdoc, hle⟩⟩

/-- A sweep deletes exactly the documents whose time at the path is due, without a sum that
wraps around, if and only if all sums are in the range and no document is judged by the
wrong value or on the wrong side of its cast. -/
theorem sweep_deletes_due (hcasts : Casts K value) (hids : UniqueIds t)
    (hcoll : ∃ columns rows, t.tables.get coll = some (.documents columns rows))
    (hs : 0 ≤ seconds) (hs' : seconds ≤ i64Max) :
    ∃ t', sweepTtl K coll path seconds now t = .ok ⟨⟩ t' ∧
      (∀ m, m ≠ coll → docsOf t' m = docsOf t m) ∧ (docsOf t' coll).Sublist (docsOf t coll) ∧
      (((∀ p ∈ docsOf t coll,
            p ∈ docsOf t' coll ↔ ¬ Due K value seconds now (field p.2 path)) ∧
          ∀ p ∈ docsOf t (K.tableName coll), ∀ c, fieldEpoch K (p.2.get path) = some c →
            wrappingAddI64 c seconds = c + seconds) ↔
        SweepsDue K value t coll path seconds now) := by
  obtain ⟨t', hrun, hedits⟩ : ∃ t', sweepTtl K coll path seconds now t = .ok ⟨⟩ t' ∧
      Edits coll (removeDocs (expiredIds K t coll path seconds now)) t t' := sweepTtl_edits hcoll
  have hsums : (∀ p ∈ docsOf t (K.tableName coll), ∀ c, fieldEpoch K (p.2.get path) = some c →
      wrappingAddI64 c seconds = c + seconds) ↔ ∀ p ∈ docsOf t (K.tableName coll), ∀ e,
        exactTime K value (p.2.get path) = some e → saturate e + seconds ≤ i64Max := by
    apply forall₂_congr
    intro p _
    rw [fieldEpoch_eq hcasts]
    cases exactTime K value (p.2.get path) with
    | none => simp
    | some e => simp [wrappingAddI64_iff (saturate_range e) hs hs']
  refine ⟨t', hrun, hedits.others, ?_, ?_⟩
  · rw [hedits.here]
    exact List.filter_sublist
  have hkept : (∀ p ∈ docsOf t (K.tableName coll), ∀ e,
      exactTime K value (p.2.get path) = some e → saturate e + seconds ≤ i64Max) →
      ((∀ p ∈ docsOf t coll, p ∈ docsOf t' coll ↔ ¬ Due K value seconds now (field p.2 path)) ↔
        ∀ p ∈ docsOf t coll,
          (∃ e, exactTime K value (judged K t coll path p.1) = some e ∧ Between seconds now e) ↔
            ¬ (Due K value seconds now (judged K t coll path p.1) ↔
              Due K value seconds now (field p.2 path))) := by
    intro hall
    apply forall₂_congr
    intro p hp
    have hmem : p ∈ docsOf t' coll ↔ p.1 ∉ expiredIds K t coll path seconds now := by
      rw [hedits.here]
      simp [removeDocs, hp]
    have hexact := fun q hq e he =>
      (wrappingAddI64_iff (saturate_range e) hs hs').mpr (hall q hq e he)
    rw [hmem, mem_expiredIds_iff hcasts hids hexact]
    exact wrong_iff (cast_due (judged K t coll path p.1))
  constructor
  · rintro ⟨hdeleted, hwrap⟩
    have hall := hsums.mp hwrap
    exact ⟨hall, (hkept hall).mp hdeleted⟩
  · rintro ⟨hall, hjudges⟩
    exact ⟨(hkept hall).mpr hjudges, hsums.mpr hall⟩

namespace Example

/-- No text is a time. -/
def numeric : Crates ℤ where
  accepts _ _ _ := true
  tableName name := name
  parseTime _ := none
  truncate f := saturate f

theorem numeric_casts : Casts numeric (fun f : ℤ => (f : ℚ)) where
  truncate _ := rfl
  large i h _ := by
    change (2 : ℚ) ^ 63 ≤ (i : ℚ)
    exact_mod_cast h
  time _ _ h := nomatch h

def sessions (docs : Docs ℤ) : Tenant ℤ :=
  { (Tenant.empty : Tenant ℤ) with
    tables := OrderedMap.empty.insert "sessions"
      (.documents [] (docs.map fun p => ⟨p.1, p.2, fun _ => .null⟩)) }

theorem docsOf_sessions (docs : Docs ℤ) (n : String) :
    docsOf (sessions docs) n = if n = "sessions" then docs else [] := by
  unfold docsOf sessions
  dsimp only
  rw [OrderedMap.get_insert]
  split
  · simp [docsIn, Function.comp_def]
  · rfl

theorem sessions_unique {docs : Docs ℤ} (h : (docs.map Prod.fst).Nodup) :
    UniqueIds (sessions docs) := by
  intro n
  rw [docsOf_sessions]
  split
  · exact h
  · exact List.nodup_nil

def seenAt (i : ℤ) (range : i64Min ≤ i ∧ i < 2 ^ 64) : Json ℤ :=
  .object [("at", .number (.int i range))]

end Example

open Example in
/-- The sum of the last time and one second wraps around to the first. -/
theorem last_time_deleted : ∃ t', sweepTtl numeric "sessions" "at" 1 0
      (sessions [("a", seenAt i64Max (by decide))]) = .ok ⟨⟩ t' ∧
    docsOf t' "sessions" = [] ∧
    ¬ Due numeric (fun f : ℤ => (f : ℚ)) 1 0 (field (seenAt i64Max (by decide)) "at") := by
  refine ⟨_, rfl, rfl, ?_⟩
  rintro ⟨e, he, hdue⟩
  have hfield : field (seenAt i64Max (by decide)) "at" =
      some (.number (.int i64Max (by decide))) := rfl
  rw [hfield] at he
  cases he
  norm_num [i64Max] at hdue

namespace Example

def twoSessions : Docs ℤ := [("a", seenAt 40 (by decide)), ("b", seenAt 41 (by decide))]

theorem sweepsDue_twoSessions :
    SweepsDue numeric (fun f : ℤ => (f : ℚ)) (sessions twoSessions) "sessions" "at" 60 100 := by
  have hdocs : docsOf (sessions twoSessions) "sessions" = twoSessions := docsOf_sessions _ _
  have hbetween : ∀ i : ℤ, i64Min ≤ i → i ≤ i64Max → ¬ Between 60 100 (i : ℚ) := by
    rintro i hlow hhigh ⟨hle, hlt⟩
    rw [saturate_int hlow hhigh, min_self] at hle
    rw [saturate_int hlow hhigh, max_self] at hlt
    exact absurd hle (not_le.mpr hlt)
  constructor
  · intro p hp e he
    change p ∈ docsOf (sessions twoSessions) "sessions" at hp
    rw [hdocs] at hp
    rcases List.mem_cons.mp hp with rfl | hp
    · cases he
      rw [saturate_int (by decide) (by decide)]
      decide
    · obtain rfl := List.mem_singleton.mp hp
      cases he
      rw [saturate_int (by decide) (by decide)]
      decide
  · intro p hp
    rw [hdocs] at hp
    have hjudged : judged numeric (sessions twoSessions) "sessions" "at" p.1 = field p.2 "at" := by
      rcases List.mem_cons.mp hp with rfl | hp
      · rfl
      · obtain rfl := List.mem_singleton.mp hp
        rfl
    rw [hjudged]
    simp only [iff_self, not_true_eq_false, iff_false, not_exists, not_and]
    intro e he
    rcases List.mem_cons.mp hp with rfl | hp
    · cases he
      exact hbetween 40 (by decide) (by decide)
    · obtain rfl := List.mem_singleton.mp hp
      cases he
      exact hbetween 41 (by decide) (by decide)

end Example

open Example in
theorem sweep_deletes_due_twoSessions :
    ∃ t', sweepTtl numeric "sessions" "at" 60 100 (sessions twoSessions) = .ok ⟨⟩ t' ∧
      ∀ p ∈ docsOf (sessions twoSessions) "sessions", p ∈ docsOf t' "sessions" ↔
        ¬ Due numeric (fun f : ℤ => (f : ℚ)) 60 100 (field p.2 "at") := by
  have hunique : UniqueIds (sessions twoSessions) := sessions_unique (by decide)
  have hcoll : ∃ columns rows, (sessions twoSessions).tables.get "sessions" =
      some (.documents columns rows) := ⟨_, _, rfl⟩
  have hsweep : ∃ t', sweepTtl numeric "sessions" "at" 60 100 (sessions twoSessions) = .ok ⟨⟩ t' ∧
      _ ∧ _ ∧ ((_ ∧ _) ↔ SweepsDue numeric _ _ "sessions" "at" 60 100) :=
    sweep_deletes_due numeric_casts hunique hcoll (by decide) (by decide)
  obtain ⟨t', hrun, -, -, hexact⟩ := hsweep
  exact ⟨t', hrun, (hexact.mpr sweepsDue_twoSessions).1⟩

end BlueDB.Collections
