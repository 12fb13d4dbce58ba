import BlueDB.Sql.Dml

/-!
# Checks of unique values

A row that is written brings a check for each of its unique values: no other
entry holds the value when the row is written, and the check is staged to be
made again by the commit. A row under a key that holds none stages the key, too.
-/

namespace BlueDB.Sql

variable {G : Engine} {c c' c'' : Conn G} {t : Name} {schema : Schema G} {id : UInt64}
  {catalog : Option (ColumnCatalog G)} {unique : List Name} {p : List UInt8} {key : G.Key}
  {row : DataRow G.Value}

/-- The open transaction of `c'` stages the keys and the checks of `c` and these. -/
def Stages (c c' : Conn G) (keys : StorageKey → Prop) (checks : UniqueIndexCheck G → Prop) : Prop :=
  ∃ x ∈ c.txn, ∃ x' ∈ c'.txn, (∀ k, k ∈ x'.uniqueChecks ↔ k ∈ x.uniqueChecks ∨ keys k) ∧
    ∀ ch, ch ∈ x'.uniqueIndexChecks ↔ ch ∈ x.uniqueIndexChecks ∨ checks ch

namespace Stages

variable {keys keys' : StorageKey → Prop} {checks checks' : UniqueIndexCheck G → Prop}

theorem refl (hc : c.txn.isSome = true) :
    Stages c c (fun _ => False) (fun _ => False) := by
  obtain ⟨x, hx⟩ := Option.isSome_iff_exists.mp hc
  exact ⟨x, hx, x, hx, by simp, by simp⟩

theorem trans (h : Stages c c' keys checks) (h' : Stages c' c'' keys' checks') :
    Stages c c'' (fun k => keys k ∨ keys' k) (fun ch => checks ch ∨ checks' ch) := by
  obtain ⟨x, hx, x', hx', hk, hch⟩ := h
  obtain ⟨y, hy, y', hy', hk', hch'⟩ := h'
  obtain rfl : x' = y := Option.some.inj (hx'.symm.trans hy)
  refine ⟨x, hx, y', hy', fun k => ?_, fun ch => ?_⟩
  · rw [hk', hk, or_assoc]
  · rw [hch', hch, or_assoc]

theorem congr (h : Stages c c' keys checks) (hkeys : ∀ k, keys k ↔ keys' k)
    (hchecks : ∀ ch, checks ch ↔ checks' ch) : Stages c c' keys' checks' := by
  obtain ⟨x, hx, x', hx', hk, hch⟩ := h
  refine ⟨x, hx, x', hx', fun k => ?_, fun ch => ?_⟩
  · rw [hk, hkeys]
  · rw [hch, hchecks]

end Stages

theorem stages_write (hc : c.txn.isSome = true) (w : Write (StorageKey.Value G)) :
    Stages c (c.write w) (fun _ => False) (fun _ => False) := by
  obtain ⟨x, hx⟩ := Option.isSome_iff_exists.mp hc
  unfold Conn.write
  rw [hx]
  exact ⟨x, hx, _, rfl, by simp, by simp⟩

def UniqueValue (schema : Schema G) (unique : List Name) (row : DataRow G.Value) (n : Name)
    (value : G.Key) : Prop :=
  ∃ i ∈ schema.indexes, i.name = n ∧ n ∈ unique ∧
    indexValue i (evalColumns schema) row = .ok value ∧ value ≠ G.noneKey

/-- The checks of a row that is stored under `key`. -/
def RowCheck (schema : Schema G) (unique : List Name) (t : Name) (id : UInt64) (key : G.Key)
    (row : DataRow G.Value) (ch : UniqueIndexCheck G) : Prop :=
  ∃ n value v, UniqueValue schema unique row n value ∧ keyBytes value = .ok v ∧
    ch = ⟨t, n, indexValuePrefix id n v, key⟩

def Unowned (s : Store G) (schema : Schema G) (unique : List Name) (id : UInt64) (key : G.Key)
    (row : DataRow G.Value) (p : List UInt8) : Prop :=
  ∀ n value v, UniqueValue schema unique row n value → keyBytes value = .ok v →
    ∀ p' k, p' ≠ p → readEntry s id n v p' = some k → k = key

/-- The error of a value that another row holds. -/
def Error.IsDuplicateEntry : Error G → Name → Prop
  | .uniqueViolation (.duplicateEntry _ n), n' => n = n'
  | _, _ => False

def Error.IsUniqueViolation : Error G → Prop
  | .uniqueViolation _ => True
  | _ => False

/-- The computation does not fail with a violation. -/
def Plain {α : Type} (x : Except (Error G) α) : Prop := ∀ e, x = .error e → ¬e.IsUniqueViolation

namespace Plain

variable {α β : Type}

theorem ok (a : α) : Plain (.ok a : Except (Error G) α) := fun _ h => absurd h (by simp)

theorem error {e : Error G} (he : ¬e.IsUniqueViolation) : Plain (.error e : Except (Error G) α) :=
  fun _ h => Except.error.inj h ▸ he

theorem bind {x : Except (Error G) α} {f : α → Except (Error G) β} (hx : Plain x)
    (hf : ∀ a, Plain (f a)) : Plain (x >>= f) := by
  intro e he
  cases x with
  | ok a => exact hf a e he
  | error e' =>
    obtain rfl : e' = e := Except.error.inj he
    exact hx e' rfl

theorem mapError {x : Except String α} {f : String → Error G}
    (hf : ∀ reason, ¬(f reason).IsUniqueViolation) : Plain (x.mapError f) := by
  cases x with
  | ok a => exact ok a
  | error reason => exact error (hf reason)

theorem mapM {f : α → Except (Error G) β} (hf : ∀ a, Plain (f a)) (l : List α) :
    Plain (l.mapM f) := by
  induction l with
  | nil => exact ok []
  | cons a l ih =>
    rw [List.mapM_cons]
    apply bind (hf a)
    intro b
    apply bind ih
    intro bs
    exact ok (b :: bs)

end Plain

theorem keyBytes_plain (key : G.Key) : Plain (keyBytes key) :=
  Plain.mapError fun _ => not_false

theorem indexValue_plain (i : SchemaIndex G) (columns : Option (List Name))
    (row : DataRow G.Value) : Plain (indexValue i columns row) := by
  unfold indexValue
  apply Plain.bind
  · exact Plain.mapError fun _ => not_false
  · intro value
    exact Plain.mapError fun _ => not_false

def owners (s : Store G) (id : UInt64) (n : Name) (v : List UInt8) : List G.Key :=
  (scanRange s (indexValuePrefix id n v) (prefixUpperBound (indexValuePrefix id n v))).filterMap
    (entryPk s)

theorem mem_owners {s : Store G} {n : Name} {v : List UInt8} {k : G.Key} :
    k ∈ owners s id n v ↔ ∃ p, readEntry s id n v p = some k := by
  unfold owners
  rw [List.mem_filterMap]
  constructor
  · intro ⟨key, hkey, hk⟩
    obtain ⟨p, rfl⟩ := indexValuePrefix_isPrefix.mp (mem_scanRange_prefixed.mp hkey).1
    exact ⟨p, hk⟩
  · intro ⟨p, hk⟩
    refine ⟨.indexEntry id n v p, mem_scanRange_prefixed.mpr ⟨?_, ?_⟩, hk⟩
    · exact indexValuePrefix_isPrefix.mpr ⟨p, rfl⟩
    · change (readEntry s id n v p).isSome = true
      rw [hk]
      rfl

theorem enforceUniqueIndex_free {n : Name} {value : G.Key} :
    Holds (enforceUniqueIndex id n value key) c
      (fun _ c' => c' = c ∧ ∀ v, keyBytes value = .ok v → ∀ p k,
        readEntry c.view id n v p = some k → k = key)
      (fun e c' => c' = c ∧ (e.IsUniqueViolation →
        (∃ v, keyBytes value = .ok v) ∧ e.IsDuplicateEntry n)) := by
  unfold enforceUniqueIndex
  rw [Holds.bind_iff]
  apply holds_ofExcept
  · intro v hv
    rw [Holds.bind_iff, Holds.get_iff]
    change Holds (if (owners c.view id n v).all (· = key) then _ else _) c _ _
    split_ifs with howners
    · refine ⟨rfl, ?_⟩
      intro v' hv' p k hk
      obtain rfl : v = v' := Except.ok.inj (hv.symm.trans hv')
      exact of_decide_eq_true (List.all_eq_true.mp howners k (mem_owners.mpr ⟨p, hk⟩))
    · exact ⟨rfl, fun _ => ⟨⟨v, hv⟩, rfl⟩⟩
  · intro e he
    exact ⟨rfl, fun hviolation => absurd hviolation (keyBytes_plain _ e he)⟩

def EntryCheck (t : Name) (id : UInt64) (columns : Option (List Name)) (unique : List Name)
    (key : G.Key) (row : DataRow G.Value) (i : SchemaIndex G) (ch : UniqueIndexCheck G) : Prop :=
  ∃ value v, i.name ∈ unique ∧ indexValue i columns row = .ok value ∧ value ≠ G.noneKey ∧
    keyBytes value = .ok v ∧ ch = ⟨t, i.name, indexValuePrefix id i.name v, key⟩

/-- A failed statement has staged some of its checks. -/
def StagesSome (c c' : Conn G) (checks : UniqueIndexCheck G → Prop) : Prop :=
  ∃ x ∈ c.txn, ∃ x' ∈ c'.txn, ∀ ch ∈ x'.uniqueIndexChecks, ch ∈ x.uniqueIndexChecks ∨ checks ch

theorem Stages.some {keys : StorageKey → Prop} {checks : UniqueIndexCheck G → Prop}
    (h : Stages c c' keys checks) : StagesSome c c' checks := by
  obtain ⟨x, hx, x', hx', -, hch⟩ := h
  exact ⟨x, hx, x', hx', fun ch hmem => (hch ch).mp hmem⟩

theorem StagesSome.mono {checks checks' : UniqueIndexCheck G → Prop}
    (h : StagesSome c c' checks) (hsub : ∀ ch, checks ch → checks' ch) :
    StagesSome c c' checks' := by
  obtain ⟨x, hx, x', hx', hch⟩ := h
  exact ⟨x, hx, x', hx', fun ch hmem => (hch ch hmem).imp_right (hsub ch)⟩

theorem StagesSome.refl (hc : c.txn.isSome = true) (checks : UniqueIndexCheck G → Prop) :
    StagesSome c c checks :=
  (Stages.refl hc).some.mono fun _ h => h.elim

theorem StagesSome.trans {checks checks' : UniqueIndexCheck G → Prop}
    (h : StagesSome c c' checks) (h' : StagesSome c' c'' checks') :
    StagesSome c c'' (fun ch => checks ch ∨ checks' ch) := by
  obtain ⟨x, hx, x', hx', hch⟩ := h
  obtain ⟨y, hy, y', hy', hch'⟩ := h'
  obtain rfl : x' = y := Option.some.inj (hx'.symm.trans hy)
  refine ⟨x, hx, y', hy', fun ch hmem => ?_⟩
  rw [← or_assoc]
  exact (hch' ch hmem).imp_left (hch ch)

theorem Stages.transSome {keys : StorageKey → Prop} {checks checks' : UniqueIndexCheck G → Prop}
    (h : Stages c c' keys checks) (h' : StagesSome c' c'' checks') :
    StagesSome c c'' (fun ch => checks ch ∨ checks' ch) :=
  h.some.trans h'

/-- What a failed write of a row leaves staged; a violation is one of its checks. -/
structure RowFailed (c c' : Conn G) (checks : UniqueIndexCheck G → Prop) (e : Error G) : Prop where
  staged : StagesSome c c' checks
  violation : e.IsUniqueViolation → ∃ ch, checks ch ∧ e.IsDuplicateEntry ch.indexName

theorem RowFailed.of_error (hc : c.txn.isSome = true) {checks : UniqueIndexCheck G → Prop}
    {e : Error G} (he : ¬e.IsUniqueViolation) : RowFailed c c checks e :=
  ⟨StagesSome.refl hc checks, fun h => absurd h he⟩

/-- The stores agree but on the entries of the row under `p`. -/
def SameButEntries (s s' : Store G) (id : UInt64) (p : List UInt8) : Prop :=
  ∀ k, (∀ n v, k ≠ .indexEntry id n v p) → s'.get k = s.get k

theorem stageUniqueIndexCheck_stages (hc : c.txn.isSome = true) {check : UniqueIndexCheck G}
    {post : Unit → Conn G → Prop} {fail : Error G → Conn G → Prop}
    (h : ∀ c', c'.view = c.view → Stages c c' (fun _ => False) (fun ch => ch = check) →
      post () c') :
    Holds (stageUniqueIndexCheck check) c post fail := by
  obtain ⟨x, hx⟩ := Option.isSome_iff_exists.mp hc
  apply h
  · simp [Conn.view, hx]
  · exact ⟨x, hx, { x with uniqueIndexChecks := x.uniqueIndexChecks ++ [check] }, by simp [hx],
      by simp, by simp⟩

theorem checkUnique_stages (hc : c.txn.isSome = true) {i : SchemaIndex G}
    {columns : Option (List Name)} {value : G.Key} (hvalue : indexValue i columns row = .ok value) :
    Holds (checkUnique t id unique i.name value key) c
      (fun _ c' => c'.view = c.view ∧
        Stages c c' (fun _ => False) (EntryCheck t id columns unique key row i) ∧
        (i.name ∈ unique → value ≠ G.noneKey → ∀ v, keyBytes value = .ok v → ∀ p k,
          readEntry c.view id i.name v p = some k → k = key))
      (fun e c' => RowFailed c c' (EntryCheck t id columns unique key row i) e) := by
  unfold checkUnique
  split_ifs with hunique
  · rw [Holds.bind_iff]
    apply enforceUniqueIndex_free.mono
    · intro _ c1 ⟨hsame, hfree⟩
      subst c1
      rw [Holds.bind_iff]
      apply holds_ofExcept
      · intro v hv
        apply stageUniqueIndexCheck_stages hc
        intro c1 hview hstages
        refine ⟨hview, hstages.congr (fun _ => Iff.rfl) fun ch => ?_, fun _ _ => hfree⟩
        constructor
        · intro hch
          exact ⟨value, v, hunique.1, hvalue, hunique.2, hv, hch⟩
        · intro ⟨value', v', _, hvalue', _, hv', hch⟩
          obtain rfl : value = value' := Except.ok.inj (hvalue.symm.trans hvalue')
          obtain rfl : v = v' := Except.ok.inj (hv.symm.trans hv')
          exact hch
      · intro e he
        exact RowFailed.of_error hc (keyBytes_plain _ e he)
    · intro e c1 ⟨hsame, hduplicate⟩
      rw [hsame]
      refine ⟨StagesSome.refl hc _, fun h => ?_⟩
      obtain ⟨⟨v, hv⟩, hnamed⟩ := hduplicate h
      exact ⟨_, ⟨value, v, hunique.1, hvalue, hunique.2, hv, rfl⟩, hnamed⟩
  · refine ⟨rfl, (Stages.refl hc).congr (fun _ => Iff.rfl) fun ch => ?_, ?_⟩
    · constructor
      · exact False.elim
      · intro ⟨value', v', hmem, hvalue', hne, _, _⟩
        obtain rfl : value = value' := Except.ok.inj (hvalue.symm.trans hvalue')
        exact hunique ⟨hmem, hne⟩
    · intro hmem hne
      exact absurd ⟨hmem, hne⟩ hunique

theorem applyIndexEntry_stages (hc : c.txn.isSome = true) {columns : Option (List Name)}
    {i : SchemaIndex G} (hp : keyBytes key = .ok p) :
    Holds (applyIndexEntry t id columns unique key row true i) c
      (fun _ c' => SameButEntries c.view c'.view id p ∧
        Stages c c' (fun _ => False) (EntryCheck t id columns unique key row i) ∧
        ∀ value v, i.name ∈ unique → indexValue i columns row = .ok value → value ≠ G.noneKey →
          keyBytes value = .ok v → ∀ p k, readEntry c.view id i.name v p = some k → k = key)
      (fun e c' => RowFailed c c' (EntryCheck t id columns unique key row i) e) := by
  unfold applyIndexEntry
  rw [Holds.bind_iff]
  apply holds_ofExcept
  · intro value hvalue
    rw [Holds.bind_iff]
    apply Holds.mono (checkUnique_stages hc hvalue)
    · intro _ c1 ⟨hview, hstages, hfree⟩
      have hc1 : c1.txn.isSome = true := by
        obtain ⟨-, -, x, hx, -⟩ := hstages
        rw [Option.mem_def.mp hx]
        rfl
      rw [Holds.bind_iff]
      apply holds_ofExcept
      · intro v hv
        rw [hp, Holds.bind_iff, Holds.ofExcept_ok, if_pos rfl]
        refine ⟨?_, ?_, ?_⟩
        · intro k hk
          rw [(buffered_write hc1 _).view, hview]
          exact Kv.get_write_of_ne (hk i.name v)
        · exact (hstages.trans (stages_write hc1 _)).congr (fun _ => or_self_iff)
            fun ch => or_iff_left not_false
        · intro value' v' hmem hvalue' hne hv'
          obtain rfl : value = value' := Except.ok.inj (hvalue.symm.trans hvalue')
          exact hfree hmem hne v' hv'
      · intro e he
        exact ⟨hstages.some, fun h => absurd h (keyBytes_plain _ e he)⟩
    · exact fun _ _ h => h
  · intro e he
    exact RowFailed.of_error hc (indexValue_plain _ _ _ e he)

theorem rowCheck_iff {ch : UniqueIndexCheck G} : RowCheck schema unique t id key row ch ↔
    ∃ i ∈ schema.indexes, EntryCheck t id (evalColumns schema) unique key row i ch := by
  constructor
  · intro ⟨n, value, v, ⟨i, hi, hname, hmem, hvalue, hne⟩, hv, hch⟩
    subst hname
    exact ⟨i, hi, value, v, hmem, hvalue, hne, hv, hch⟩
  · intro ⟨i, hi, value, v, hmem, hvalue, hne, hv, hch⟩
    exact ⟨i.name, value, v, ⟨i, hi, rfl, hmem, hvalue, hne⟩, hv, hch⟩

/-- What the entries of a row add to the checks, over the store they are written to. -/
structure EntriesStaged (c c' : Conn G) (schema : Schema G) (unique : List Name) (t : Name)
    (id : UInt64) (key : G.Key) (row : DataRow G.Value) (p : List UInt8) : Prop where
  same : SameButEntries c.view c'.view id p
  staged : Stages c c' (fun _ => False) (RowCheck schema unique t id key row)
  free : Unowned c.view schema unique id key row p

theorem applyIndexEntries_stages (hc : c.txn.isSome = true)
    (hat : TableAt c.view t schema id catalog) (hp : keyBytes key = .ok p)
    (hunique : readUniqueIndexes c.view t = unique) :
    Holds (applyIndexEntries t key row true) c
      (fun _ c' => EntriesStaged c c' schema unique t id key row p)
      (fun e c' => RowFailed c c' (RowCheck schema unique t id key row) e) := by
  unfold applyIndexEntries
  rw [Holds.bind_iff, Holds.get_iff]
  dsimp only
  rw [hat.indexDefs, hat.tableId, hat.schema, hunique]
  split_ifs with hnil
  · refine ⟨fun _ _ => rfl, (Stages.refl hc).congr (fun _ => Iff.rfl) fun ch => ?_, ?_⟩
    · rw [rowCheck_iff, hnil]
      simp
    · intro n value v ⟨i, hi, _⟩
      rw [hnil] at hi
      exact absurd hi List.not_mem_nil
  · rw [Holds.bind_iff, Holds.ofExcept_ok]
    change Holds (schema.indexes.forM
      (applyIndexEntry t id (evalColumns schema) unique key row true)) c _ _
    have hround : ∀ done i rest, schema.indexes = done ++ i :: rest → ∀ c1,
        (SameButEntries c.view c1.view id p ∧
          Stages c c1 (fun _ => False)
            (fun ch => ∃ i ∈ done, EntryCheck t id (evalColumns schema) unique key row i ch) ∧
          ∀ i ∈ done, ∀ value v, i.name ∈ unique → indexValue i (evalColumns schema) row =
            .ok value →
            value ≠ G.noneKey → keyBytes value = .ok v → ∀ p' k, p' ≠ p →
              readEntry c.view id i.name v p' = some k → k = key) →
        Holds (applyIndexEntry t id (evalColumns schema) unique key row true i) c1
          (fun _ c2 => SameButEntries c.view c2.view id p ∧
            Stages c c2 (fun _ => False)
              (fun ch => ∃ j ∈ done ++ [i],
                EntryCheck t id (evalColumns schema) unique key row j ch) ∧
            ∀ j ∈ done ++ [i], ∀ value v, j.name ∈ unique →
              indexValue j (evalColumns schema) row = .ok value → value ≠ G.noneKey →
                keyBytes value = .ok v → ∀ p' k, p' ≠ p →
                  readEntry c.view id j.name v p' = some k → k = key)
          (fun e c2 => RowFailed c c2 (RowCheck schema unique t id key row) e) := by
      intro done i rest hsplit c1 ⟨hsame, hstages, hfree⟩
      have hi : i ∈ schema.indexes := by simp [hsplit]
      have hc1 : c1.txn.isSome = true := by
        obtain ⟨-, -, x, hx, -⟩ := hstages
        rw [Option.mem_def.mp hx]
        rfl
      apply (applyIndexEntry_stages hc1 hp).mono
      · intro _ c2 ⟨hsame2, hstages2, hfree2⟩
        refine ⟨fun k hk => (hsame2 k hk).trans (hsame k hk), ?_, ?_⟩
        · apply (hstages.trans hstages2).congr (fun _ => or_self_iff)
          intro ch
          simp [or_and_right, exists_or]
        · intro j hj value v hmem hvalue hne hv p' k hp' hk
          rcases List.mem_append.mp hj with hj | hj
          · exact hfree j hj value v hmem hvalue hne hv p' k hp' hk
          · obtain rfl := List.mem_singleton.mp hj
            apply hfree2 value v hmem hvalue hne hv p' k
            rw [← hk]
            exact hsame (.indexEntry id j.name v p') fun n v' heq =>
              hp' (StorageKey.indexEntry.inj heq).2.2.2
      · intro e c2 hfailed
        constructor
        · apply (hstages.transSome hfailed.staged).mono
          intro ch hch
          rw [rowCheck_iff]
          rcases hch with ⟨j, hj, hch⟩ | hch
          · exact ⟨j, by simp [hsplit, hj], hch⟩
          · exact ⟨i, hi, hch⟩
        · intro h
          obtain ⟨ch, hch, hnamed⟩ := hfailed.violation h
          exact ⟨ch, rowCheck_iff.mpr ⟨i, hi, hch⟩, hnamed⟩
    apply (Holds.forM_log _ schema.indexes ⟨fun _ _ => rfl, ?_, by simp⟩ hround).mono
    · intro _ c1 ⟨hsame, hstages, hfree⟩
      refine ⟨hsame, hstages.congr (fun _ => Iff.rfl) fun ch => ?_, ?_⟩
      · rw [rowCheck_iff]
      · intro n value v ⟨i, hi, hname, hmem, hvalue, hne⟩ hv p' k hp' hk
        subst hname
        exact hfree i hi value v hmem hvalue hne hv p' k hp' hk
    · exact fun _ _ h => h
    · exact (Stages.refl hc).congr (fun _ => Iff.rfl) (by simp)

theorem Stages.isSome {keys : StorageKey → Prop} {checks : UniqueIndexCheck G → Prop}
    (h : Stages c c' keys checks) : c'.txn.isSome = true := by
  obtain ⟨-, -, x, hx, -⟩ := h
  rw [Option.mem_def.mp hx]
  rfl

theorem stageUniqueCheck_stages {k : StorageKey} {post : Unit → Conn G → Prop}
    {fail : Error G → Conn G → Prop} (hc : c.txn.isSome = true)
    (h : ∀ c', c'.view = c.view → Stages c c' (fun k' => k' = k) (fun _ => False) → post () c') :
    Holds (stageUniqueCheck k) c post fail := by
  obtain ⟨x, hx⟩ := Option.isSome_iff_exists.mp hc
  apply h
  · simp [Conn.view, hx]
  · exact ⟨x, hx, { x with uniqueChecks := x.uniqueChecks ++ [k] }, by simp [hx], by simp, by simp⟩

theorem removeEntry_stages (hc : c.txn.isSome = true) {columns : Option (List Name)}
    {i : SchemaIndex G} (hp : keyBytes key = .ok p) :
    Holds (applyIndexEntry t id columns unique key row false i) c
      (fun _ c' => (∃ n v, c' = c.write (.delete (.indexEntry id n v p))) ∧
        Stages c c' (fun _ => False) (fun _ => False))
      (fun e c' => c' = c ∧ ¬e.IsUniqueViolation) := by
  unfold applyIndexEntry
  rw [Holds.bind_iff]
  apply holds_ofExcept
  · intro value _
    rw [Holds.bind_iff]
    have hnone : ¬(i.name ∈ (if false = true then unique else []) ∧ value ≠ G.noneKey) := by simp
    unfold checkUnique
    rw [if_neg hnone, Holds.pure_iff, Holds.bind_iff]
    apply holds_ofExcept
    · intro v _
      rw [hp, Holds.bind_iff, Holds.ofExcept_ok, if_neg (by simp)]
      exact ⟨⟨_, v, rfl⟩, stages_write hc _⟩
    · exact fun e he => ⟨rfl, keyBytes_plain _ e he⟩
  · exact fun e he => ⟨rfl, indexValue_plain _ _ _ e he⟩

/-- The stores agree but on the entries of the row under `p`, of which some are gone. -/
structure EntriesRemoved (s s' : Store G) (id : UInt64) (p : List UInt8) : Prop where
  same : SameButEntries s s' id p
  entry : ∀ n v k, readEntry s' id n v p = some k → readEntry s id n v p = some k

theorem EntriesRemoved.refl (s : Store G) : EntriesRemoved s s id p :=
  ⟨fun _ _ => rfl, fun _ _ _ h => h⟩

theorem EntriesRemoved.delete {s s' : Store G} (h : EntriesRemoved s s' id p) (n : Name)
    (v : List UInt8) :
    EntriesRemoved s (s'.write (.delete (.indexEntry id n v p))) id p := by
  constructor
  · intro k hk
    rw [Kv.get_write_of_ne (by simpa using hk n v)]
    exact h.same k hk
  · intro n' v' k hk
    by_cases heq : StorageKey.indexEntry id n' v' p = .indexEntry id n v p
    · obtain ⟨-, rfl, rfl, -⟩ := StorageKey.indexEntry.inj heq
      have hgone : readEntry (s'.write (.delete (.indexEntry id n' v' p))) id n' v' p = none :=
        Kv.get_write_delete ..
      rw [hgone] at hk
      exact absurd hk (by simp)
    · apply h.entry
      rw [← hk]
      exact (Kv.get_write_of_ne heq).symm

theorem removeEntries_stages (hc : c.txn.isSome = true)
    (hat : TableAt c.view t schema id catalog) (hp : keyBytes key = .ok p) :
    Holds (applyIndexEntries t key row false) c
      (fun _ c' => EntriesRemoved c.view c'.view id p ∧
        Stages c c' (fun _ => False) (fun _ => False))
      (fun e c' => StagesSome c c' (fun _ => False) ∧ ¬e.IsUniqueViolation) := by
  unfold applyIndexEntries
  rw [Holds.bind_iff, Holds.get_iff]
  dsimp only
  rw [hat.indexDefs, hat.tableId]
  split_ifs with hnil
  · exact ⟨EntriesRemoved.refl _, Stages.refl hc⟩
  · rw [Holds.bind_iff, Holds.ofExcept_ok]
    apply Holds.forM (fun c' => EntriesRemoved c.view c'.view id p ∧
      Stages c c' (fun _ => False) (fun _ => False)) _ ⟨EntriesRemoved.refl _, Stages.refl hc⟩
    intro i _ c1 ⟨hremoved, hstages⟩
    apply (removeEntry_stages hstages.isSome hp).mono
    · intro _ c2 ⟨⟨n, v, hc2⟩, hstages2⟩
      constructor
      · rw [hc2, (buffered_write hstages.isSome _).view]
        exact hremoved.delete n v
      · exact (hstages.trans hstages2).congr (fun _ => or_self_iff) (fun _ => or_self_iff)
    · intro e c2 ⟨hsame, he⟩
      exact ⟨hsame ▸ hstages.some, he⟩

/-- A row is stored under `p`. -/
structure RowPut (s s' : Store G) (schema : Schema G) (id : UInt64)
    (catalog : Option (ColumnCatalog G)) (unique : List Name) (p : List UInt8) (key : G.Key)
    (row : DataRow G.Value) : Prop where
  bytes : keyBytes key = .ok p
  stored : readRow s' id p = some ⟨key, toPhysical catalog row⟩
  other : ∀ k, k ≠ .row id p → (∀ n v, k ≠ .indexEntry id n v p) → s'.get k = s.get k
  entry : ∀ n v k, readEntry s' id n v p = some k →
    readEntry s id n v p = some k ∨ k = key ∧ Indexed schema row n v
  free : Unowned s schema unique id key row p

theorem TableAt.of_other {s s' : Store G}
    (h : ∀ k, k ≠ .row id p → (∀ n v, k ≠ .indexEntry id n v p) → s'.get k = s.get k)
    {schema' : Schema G} {id' : UInt64} {catalog' : Option (ColumnCatalog G)}
    (hat : TableAt s t schema' id' catalog') : TableAt s' t schema' id' catalog' := by
  constructor
  · exact (h (.schema t) (by simp) (by simp)).trans hat.schema
  · exact (h (.tableid t) (by simp) (by simp)).trans hat.id
  · exact (h (.colcat t) (by simp) (by simp)).trans hat.catalog

theorem RowPut.uniqueIndexes {s s' : Store G}
    (h : RowPut s s' schema id catalog unique p key row) (t : Name) :
    readUniqueIndexes s' t = readUniqueIndexes s t :=
  congrArg (fun names : Option (List Name) => names.getD [])
    (h.other (.uniqueidx t) (by simp) (by simp))

theorem Unowned.congr {s s' : Store G} (h : Unowned s schema unique id key row p)
    (hsame : SameButEntries s s' id p) : Unowned s' schema unique id key row p := by
  intro n value v hvalue hv p' k hp' hk
  apply h n value v hvalue hv p' k hp'
  rw [← hk]
  exact (hsame (.indexEntry id n v p') fun n' v' heq =>
    hp' (StorageKey.indexEntry.inj heq).2.2.2).symm

theorem putRow_put (hc : c.txn.isSome = true) (hat : TableAt c.view t schema id catalog)
    (hp : keyBytes key = .ok p) (hunique : readUniqueIndexes c.view t = unique) :
    Holds (putRow t id catalog p key row) c
      (fun _ c' => RowPut c.view c'.view schema id catalog unique p key row ∧
        Stages c c' (fun _ => False) (RowCheck schema unique t id key row))
      (fun e c' => RowFailed c c' (RowCheck schema unique t id key row) e) := by
  unfold putRow
  rw [Holds.bind_iff]
  apply ((applyIndexEntries_holds hc hat hp).and (applyIndexEntries_stages hc hat hp hunique)).mono
  · intro _ c1 ⟨⟨ws, hws, hbuf⟩, hstaged⟩
    have hview : (c1.write (.put (.row id p) (⟨key, toPhysical catalog row⟩ : StoredRow G))).view =
        c1.view.write (.put (.row id p) ⟨key, toPhysical catalog row⟩) :=
      (buffered_write hbuf.isSome _).view
    change RowPut c.view (c1.write _).view schema id catalog unique p key row ∧ _
    refine ⟨?_, (hstaged.staged.trans (stages_write hbuf.isSome _)).congr (fun _ => or_self_iff)
      fun _ => or_iff_left not_false⟩
    rw [hview]
    constructor
    · exact hp
    · exact Kv.get_write_put ..
    · intro k hk hentry
      rw [Kv.get_write_of_ne hk]
      exact hstaged.same k hentry
    · intro n v k hk
      have hk1 : readEntry c1.view id n v p = some k := by
        rw [← hk]
        exact (Kv.get_write_of_ne (by simp)).symm
      by_cases hindexed : Indexed schema row n v
      · right
        rw [hbuf.view, hws.readEntry _ hindexed, if_pos rfl, Option.some.injEq] at hk1
        exact ⟨hk1.symm, hindexed⟩
      · left
        rw [← hk1, hbuf.view]
        refine (hws.get_of_ne _ fun n' v' hindexed' heq => ?_).symm
        obtain ⟨-, rfl, rfl, -⟩ := StorageKey.indexEntry.inj heq
        exact hindexed hindexed'
    · exact hstaged.free
  · exact fun _ _ h => h.2

/-- Staged by a row under `p`: its key, if it is new. -/
def FreshRow (s : Store G) (id : UInt64) (p : List UInt8) (k : StorageKey) : Prop :=
  k = .row id p ∧ readRow s id p = none

theorem retireRow_stages (hc : c.txn.isSome = true) (hat : TableAt c.view t schema id catalog)
    (hp : keyBytes key = .ok p) :
    Holds (retireRow t id catalog p key) c
      (fun _ c' => EntriesRemoved c.view c'.view id p ∧
        Stages c c' (FreshRow c.view id p) (fun _ => False))
      (fun e c' => StagesSome c c' (fun _ => False) ∧ ¬e.IsUniqueViolation) := by
  unfold retireRow
  rw [Holds.bind_iff, Holds.get_iff]
  cases hrow : readRow c.view id p with
  | some st =>
    apply (removeEntries_stages hc hat hp).mono
    · intro _ c1 ⟨hremoved, hstages⟩
      refine ⟨hremoved, hstages.congr (fun k => ?_) fun _ => Iff.rfl⟩
      simp [FreshRow, hrow]
    · exact fun _ _ h => h
  | none =>
    apply stageUniqueCheck_stages hc
    intro c1 hview hstages
    rw [hview]
    refine ⟨EntriesRemoved.refl _, hstages.congr (fun k => ?_) fun _ => Iff.rfl⟩
    simp [FreshRow, hrow]

theorem EntriesRemoved.tableAt {s s' : Store G} (h : EntriesRemoved s s' id p)
    (hat : TableAt s t schema id catalog) : TableAt s' t schema id catalog := by
  constructor
  · exact (h.same (.schema t) (by simp)).trans hat.schema
  · exact (h.same (.tableid t) (by simp)).trans hat.id
  · exact (h.same (.colcat t) (by simp)).trans hat.catalog

theorem EntriesRemoved.uniqueIndexes {s s' : Store G} (h : EntriesRemoved s s' id p) (t : Name) :
    readUniqueIndexes s' t = readUniqueIndexes s t :=
  congrArg (fun names : Option (List Name) => names.getD []) (h.same (.uniqueidx t) (by simp))

theorem insertRow_put (hc : c.txn.isSome = true) (hat : TableAt c.view t schema id catalog)
    (hunique : readUniqueIndexes c.view t = unique) :
    Holds (insertRow t id catalog key row) c
      (fun _ c' => ∃ p, RowPut c.view c'.view schema id catalog unique p key row ∧
        Stages c c' (FreshRow c.view id p) (RowCheck schema unique t id key row))
      (fun e c' => RowFailed c c' (RowCheck schema unique t id key row) e) := by
  unfold insertRow
  rw [Holds.bind_iff]
  apply holds_ofExcept
  · intro p hp
    rw [Holds.bind_iff]
    apply (retireRow_stages hc hat hp).mono
    · intro _ c1 ⟨hremoved, hstages⟩
      apply (putRow_put hstages.isSome (hremoved.tableAt hat) hp
        ((hremoved.uniqueIndexes t).trans hunique)).mono
      · intro _ c2 ⟨hput, hstages2⟩
        refine ⟨p, ⟨hp, hput.stored, ?_, ?_, ?_⟩, ?_⟩
        · intro k hk hentry
          exact (hput.other k hk hentry).trans (hremoved.same k hentry)
        · intro n v k hk
          exact (hput.entry n v k hk).imp_left (hremoved.entry n v k)
        · exact hput.free.congr fun k hk => (hremoved.same k hk).symm
        · exact (hstages.trans hstages2).congr (fun _ => or_iff_left not_false)
            fun _ => or_iff_right not_false
      · intro e c2 hfailed
        refine ⟨(hstages.transSome hfailed.staged).mono fun ch hch => ?_, hfailed.violation⟩
        exact hch.resolve_left not_false
    · intro e c1 ⟨hstaged, he⟩
      exact ⟨hstaged.mono fun _ h => h.elim, fun h => absurd h he⟩
  · exact fun e he => RowFailed.of_error hc (keyBytes_plain _ e he)

theorem appendRow_put {next : ℤ} (hc : c.txn.isSome = true)
    (hat : TableAt c.view t schema id catalog) (hunique : readUniqueIndexes c.view t = unique) :
    Holds (appendRow t id catalog next row) c
      (fun _ c' => ∃ p, RowPut c.view c'.view schema id catalog unique p (G.i64 next) row ∧
        Stages c c' (fun _ => False) (RowCheck schema unique t id (G.i64 next) row))
      (fun e c' => RowFailed c c' (RowCheck schema unique t id (G.i64 next) row) e) := by
  unfold appendRow
  rw [Holds.bind_iff]
  apply holds_ofExcept
  · intro p hp
    apply (putRow_put hc hat hp hunique).mono
    · exact fun _ _ h => ⟨p, h⟩
    · exact fun _ _ h => h
  · exact fun e he => RowFailed.of_error hc (keyBytes_plain _ e he)

/-- The row under `p` is gone, and with it some of its entries. -/
structure RowGone (s s' : Store G) (id : UInt64) (p : List UInt8) : Prop where
  stored : readRow s' id p = none
  other : ∀ k, k ≠ .row id p → (∀ n v, k ≠ .indexEntry id n v p) → s'.get k = s.get k
  entry : ∀ n v k, readEntry s' id n v p = some k → readEntry s id n v p = some k

theorem deleteRow_gone (hc : c.txn.isSome = true) (hat : TableAt c.view t schema id catalog) :
    Holds (deleteRow t id catalog key) c
      (fun _ c' => ∃ p, keyBytes key = .ok p ∧ RowGone c.view c'.view id p ∧
        Stages c c' (fun _ => False) (fun _ => False))
      (fun e c' => StagesSome c c' (fun _ => False) ∧ ¬e.IsUniqueViolation) := by
  unfold deleteRow
  rw [Holds.bind_iff]
  apply holds_ofExcept
  · intro p hp
    have hremove : Holds (removeEntries t id catalog p key) c
        (fun _ c' => EntriesRemoved c.view c'.view id p ∧
          Stages c c' (fun _ => False) (fun _ => False))
        (fun e c' => StagesSome c c' (fun _ => False) ∧ ¬e.IsUniqueViolation) := by
      unfold removeEntries
      rw [Holds.bind_iff, Holds.get_iff]
      cases readRow c.view id p with
      | some st => exact removeEntries_stages hc hat hp
      | none => exact ⟨EntriesRemoved.refl _, Stages.refl hc⟩
    rw [Holds.bind_iff]
    apply hremove.mono
    · intro _ c1 ⟨hremoved, hstages⟩
      have hview : (c1.write (.delete (.row id p))).view = c1.view.write (.delete (.row id p)) :=
        (buffered_write hstages.isSome _).view
      refine ⟨p, hp, ?_, (hstages.trans (stages_write hstages.isSome _)).congr
        (fun _ => or_self_iff) fun _ => or_self_iff⟩
      rw [hview]
      constructor
      · exact Kv.get_write_delete ..
      · intro k hk hentry
        exact (Kv.get_write_of_ne hk).trans (hremoved.same k hentry)
      · intro n v k hk
        apply hremoved.entry
        rw [← hk]
        exact (Kv.get_write_of_ne (by simp)).symm
    · exact fun _ _ h => h
  · exact fun e he => ⟨StagesSome.refl hc _, keyBytes_plain _ e he⟩

end BlueDB.Sql
