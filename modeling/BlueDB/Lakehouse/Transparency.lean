import BlueDB.Lakehouse.ObjectStore
import BlueDB.Lakehouse.Publish

/-!
# When the read cache is not noticed

The cache answers as the store below would as long as no write changes what it has
kept. Then a writer opens the version that the hint of its table names, and no tenant
is lost from the index.
-/

namespace BlueDB.Lakehouse

variable {M : Type} {S : ObjectStore M} {c : CachingObjectStore M}

/-- Everything that is kept is what the store below would answer. -/
def Coherent (S : ObjectStore M) (c : CachingObjectStore M) : Prop :=
  ReadCache.Coherent (fetch S) Request.key c

/-- A program that reads through the cache answers what `y` makes of the objects. -/
abbrev Reads {α : Type} (S : ObjectStore M) (x : StoreM M α)
    (y : Objects M → Except StoreError α) : Prop :=
  Answers (Coherent S) ReadCache.source x y

theorem reads_cached (r : Request) :
    Reads S (CachingObjectStore.cached S r) fun objects => fetch S objects r := by
  have hresult : ∀ c : CachingObjectStore M,
      answer (CachingObjectStore.cached S r c) = (c.read (fetch S) Request.key r).1 ∧
        stateAfter (CachingObjectStore.cached S r c) = (c.read (fetch S) Request.key r).2 := by
    intro c
    unfold CachingObjectStore.cached
    rcases c.read (fetch S) Request.key r with ⟨result, c'⟩
    cases result with
    | ok content => exact ⟨rfl, rfl⟩
    | error e => exact ⟨rfl, rfl⟩
  constructor
  · intro c hc
    rw [(hresult c).1]
    exact hc.read_eq r
  · intro c hc
    rw [(hresult c).2]
    exact hc.read Request.key_injective r
  · intro c _
    rw [(hresult c).2]
    exact ReadCache.source_read ..

theorem reads_passThrough {α : Type} (f : Objects M → Except StoreError α) :
    Reads S (CachingObjectStore.passThrough f) f := by
  have hresult : ∀ c : CachingObjectStore M,
      answer (CachingObjectStore.passThrough f c) = f c.source ∧
        stateAfter (CachingObjectStore.passThrough f c) = c := by
    intro c
    unfold CachingObjectStore.passThrough
    cases f c.source with
    | ok a => exact ⟨rfl, rfl⟩
    | error e => exact ⟨rfl, rfl⟩
  constructor
  · exact fun c _ => (hresult c).1
  · intro c hc
    rw [(hresult c).2]
    exact hc
  · intro c _
    rw [(hresult c).2]

theorem reads_get (path : Path) :
    Reads S (CachingObjectStore.get S path) fun objects => wholeObject path (objects path) :=
  reads_cached (.whole path)

theorem reads_getRange (path : Path) (start stop : ℕ) :
    Reads S (CachingObjectStore.getRange S path start stop) fun objects =>
      wholeObject path (objects path) >>= fun content => S.slice content start stop :=
  reads_cached (.range path start stop)

theorem reads_getRanges (path : Path) (ranges : List (ℕ × ℕ)) :
    Reads S (CachingObjectStore.getRanges S path ranges) fun objects =>
      ranges.mapM fun r => fetch S objects (.range path r.1 r.2) := by
  induction ranges with
  | nil => exact Answers.ofExcept (.ok [])
  | cons r ranges ih =>
    simp only [List.mapM_cons]
    apply Answers.bind (reads_getRange path r.1 r.2)
    intro content
    apply Answers.bind ih
    intro rest
    exact Answers.ofExcept (.ok (content :: rest))

theorem reads_getOpts (path : Path) (o : GetOptions) :
    Reads S (CachingObjectStore.getOpts S path o) fun objects =>
      S.getOpts path (objects path) o := by
  unfold CachingObjectStore.getOpts
  by_cases hplain : (o.plain && !o.head) = true
  · rw [if_pos hplain]
    obtain ⟨hplain, hhead⟩ : o.plain = true ∧ o.head = false := by simpa using hplain
    cases hrange : o.range with
    | none =>
      have heq := fun objects : Objects M =>
          S.getOpts_whole path (objects path) o hplain hhead hrange
      simp only [heq]
      exact reads_get path
    | some r =>
      cases r with
      | bounded start stop =>
        have heq := fun objects : Objects M =>
          S.getOpts_bounded path (objects path) o start stop hplain hhead hrange
        simp only [heq]
        exact reads_getRange path start stop
      | offset start => exact reads_passThrough _
      | suffix length => exact reads_passThrough _
  · rw [if_neg hplain]
    exact reads_passThrough _

def publishedTable (tableRoot : Path) (objects : Objects M) :
    Except StoreError (Option (ℕ × M)) :=
  if (objects (hintPath tableRoot)).isSome then do
    let hint ← wholeObject (hintPath tableRoot) (objects (hintPath tableRoot))
    let version ← parseVersion hint
    let file ← wholeObject (metadataPath tableRoot version)
      (objects (metadataPath tableRoot version))
    let m ← parseMetadata file
    return some (version, m)
  else .ok none

def recordedTenants (root : Path) (objects : Objects M) : Except StoreError (List String) :=
  if (objects (indexPath root)).isSome then do
    let index ← wholeObject (indexPath root) (objects (indexPath root))
    parseTenants index
  else .ok []

/-- Where a writer starts from what is published. -/
def openedAt (evolve : M → Option M) (create : M) : Option (ℕ × M) → ℕ × M
  | some (version, m) =>
    match evolve m with
    | some m' => (version + 1, m')
    | none => (version, m)
  | none => (0, create)

theorem reads_head (path : Path) :
    Reads S (CachingObjectStore.head path) fun objects => .ok (objects path).isSome :=
  reads_passThrough _

theorem reads_loadTable (tableRoot : Path) :
    Reads S (loadTable S tableRoot) (publishedTable tableRoot) := by
  have hreads : Reads S (loadTable S tableRoot) fun objects =>
      Except.ok (objects (hintPath tableRoot)).isSome >>= fun exists_ =>
        if exists_ then
          wholeObject (hintPath tableRoot) (objects (hintPath tableRoot)) >>= fun hint =>
            parseVersion hint >>= fun version =>
              wholeObject (metadataPath tableRoot version)
                  (objects (metadataPath tableRoot version)) >>= fun file =>
                parseMetadata file >>= fun m => .ok (some (version, m))
        else .ok none := by
    apply Answers.bind (reads_head _)
    intro exists_
    cases exists_ with
    | false => exact Answers.ofExcept (.ok none)
    | true =>
      apply Answers.bind (reads_get _)
      intro hint
      apply Answers.bind (Answers.ofExcept (parseVersion hint))
      intro version
      apply Answers.bind (reads_get _)
      intro file
      apply Answers.bind (Answers.ofExcept (parseMetadata file))
      intro m
      exact Answers.ofExcept (.ok (some (version, m)))
  exact hreads

theorem reads_readIndex (root : Path) : Reads S (readIndex S root) (recordedTenants root) := by
  have hreads : Reads S (readIndex S root) fun objects =>
      Except.ok (objects (indexPath root)).isSome >>= fun exists_ =>
        if exists_ then
          wholeObject (indexPath root) (objects (indexPath root)) >>= fun index =>
            parseTenants index
        else .ok [] := by
    apply Answers.bind (reads_head _)
    intro exists_
    cases exists_ with
    | false => exact Answers.ofExcept (.ok [])
    | true =>
      apply Answers.bind (reads_get _)
      intro index
      exact Answers.ofExcept (parseTenants index)
  exact hreads

theorem writeMetadata_returns (tableRoot : Path) (version : ℕ) (m : M)
    (c : CachingObjectStore M) : ∃ c', writeMetadata tableRoot version m c = .ok () c' :=
  ⟨_, rfl⟩

/-- A writer starts from the version that the last hint names. -/
theorem answer_openTable (hc : Coherent S c) (evolve : M → Option M) (create : M)
    (tableRoot : Path) : answer (openTable S evolve create tableRoot c) =
      (publishedTable tableRoot c.source).map (openedAt evolve create) := by
  rw [← (reads_loadTable tableRoot).answer c hc]
  change answer (EStateM.bind (loadTable S tableRoot) _ c) = _
  unfold EStateM.bind
  cases loadTable S tableRoot c with
  | error e c' => rfl
  | ok found c' =>
    cases found with
    | none => rfl
    | some p =>
      obtain ⟨version, m⟩ := p
      cases hevolve : evolve m with
      | none => simp [openedAt, hevolve, answer, Except.map, pure, EStateM.pure]
      | some m' =>
        obtain ⟨c'', hwrite⟩ := writeMetadata_returns tableRoot (version + 1) m' c'
        simp [openedAt, hevolve, answer, Except.map, bind, EStateM.bind, hwrite, pure, EStateM.pure]

/-- The writer of the tables opens what the schema asks for of the metadata that is read. -/
theorem openedAt_metadata {C : Crates} {found : Option (ℕ × TableMetadata)}
    {desired : IcebergSchema} {pkFieldId : ℕ} {sortFieldIds : List ℕ} {w : LakehouseWriter}
    (h : LakehouseWriter.openTable C (found.map Prod.snd) desired pkFieldId sortFieldIds = .ok w) :
    (openedAt (fun m => if m.schema.fields = (evolved m.schema desired).fields then none
        else some { m with schema := evolved m.schema desired })
      (newTable desired sortFieldIds) found).2 = w.metadata := by
  obtain ⟨-, rfl⟩ := LakehouseWriter.openTable_eq_ok.mp h
  cases found with
  | none => rfl
  | some p =>
    unfold openedAt openedTable
    dsimp only [Option.map_some]
    split_ifs <;> rfl

theorem recorded_registerTenant (hc : Coherent S c) {root : Path} {tenants : List String}
    (hrecorded : recordedTenants root c.source = .ok tenants) (tenant : String) :
    ∃ tenants', recordedTenants root (stateAfter (registerTenant S root tenant c)).source =
      .ok tenants' ∧ tenant ∈ tenants' ∧ ∀ t ∈ tenants, t ∈ tenants' := by
  have hreads := reads_readIndex (S := S) root
  have hanswer := hreads.answer c hc
  have hsource := hreads.view c hc
  rw [hrecorded] at hanswer
  change ∃ tenants', recordedTenants root
    (stateAfter (EStateM.bind (readIndex S root) _ c)).source = _ ∧ _
  unfold EStateM.bind
  cases hread : readIndex S root c with
  | error e c' =>
    rw [hread] at hanswer
    exact absurd hanswer nofun
  | ok found c' =>
    rw [hread] at hanswer hsource
    obtain rfl : found = tenants := Except.ok.inj hanswer
    change c'.source = c.source at hsource
    by_cases hmem : tenant ∈ found
    · refine ⟨found, ?_, hmem, fun _ h => h⟩
      simp only [if_pos hmem]
      exact (congrArg (recordedTenants root) hsource).trans hrecorded
    · refine ⟨found ++ [tenant], ?_, by simp, fun _ h => List.mem_append_left _ h⟩
      simp only [if_neg hmem]
      change recordedTenants root (Function.update c'.source (indexPath root) _) = _
      simp [recordedTenants, wholeObject, parseTenants, bind, Except.bind]

/-- No reader tells the store from the one below: every read answers what is in the
store below, a writer starts from the published version, and a registration keeps the
recorded tenants. -/
structure Transparent (S : ObjectStore M) (c : CachingObjectStore M) : Prop where
  get : ∀ path, answer (CachingObjectStore.get S path c) = wholeObject path (c.source path)
  getRange : ∀ path start stop, answer (CachingObjectStore.getRange S path start stop c) =
    fetch S c.source (.range path start stop)
  getRanges : ∀ path ranges, answer (CachingObjectStore.getRanges S path ranges c) =
    ranges.mapM fun r => fetch S c.source (.range path r.1 r.2)
  getOpts : ∀ path o, answer (CachingObjectStore.getOpts S path o c) =
    S.getOpts path (c.source path) o
  opens : ∀ evolve create tableRoot, answer (openTable S evolve create tableRoot c) =
    (publishedTable tableRoot c.source).map (openedAt evolve create)
  registers : ∀ root tenant tenants, recordedTenants root c.source = .ok tenants →
    ∃ tenants', recordedTenants root (stateAfter (registerTenant S root tenant c)).source =
      .ok tenants' ∧ tenant ∈ tenants' ∧ ∀ t ∈ tenants, t ∈ tenants'

theorem transparent_iff : Transparent S c ↔ Coherent S c := by
  constructor
  · intro h r content hkept
    have hanswer : answer (CachingObjectStore.cached S r c) = fetch S c.source r := by
      cases r with
      | whole path => exact h.get path
      | range path start stop => exact h.getRange path start stop
    unfold CachingObjectStore.cached ReadCache.read at hanswer
    rw [hkept] at hanswer
    exact hanswer.symm
  · intro hc
    constructor
    · exact fun path => (reads_get path).answer c hc
    · exact fun path start stop => (reads_getRange path start stop).answer c hc
    · exact fun path ranges => (reads_getRanges path ranges).answer c hc
    · exact fun path o => (reads_getOpts path o).answer c hc
    · exact answer_openTable hc
    · exact fun root tenant tenants hrecorded => recorded_registerTenant hc hrecorded tenant

/-- The call changes nothing that the cache keeps an answer of. -/
def Harmless (S : ObjectStore M) (c : CachingObjectStore M) (call : Call M) : Prop :=
  ∀ objects, callWrites call c.source = .ok objects → ∀ r content,
    c.kept (Request.key r) = some content → fetch S objects r = .ok content

def HarmlessRun (S : ObjectStore M) (c : CachingObjectStore M) : List (Call M) → Prop
  | [] => True
  | call :: calls => Harmless S c call ∧ HarmlessRun S (stepCall S c call) calls

theorem coherent_write (hc : Coherent S c) (f : Objects M → Except StoreError (Objects M)) :
    Coherent S (stateAfter (CachingObjectStore.write f c)) ↔
      ∀ objects, f c.source = .ok objects → Coherent S (c.change objects) := by
  unfold CachingObjectStore.write
  cases f c.source with
  | error e => exact ⟨fun _ _ h => absurd h nofun, fun _ => hc⟩
  | ok objects =>
    constructor
    · intro h objects' heq
      rw [← Except.ok.inj heq]
      exact h
    · exact fun h => h objects rfl

theorem coherent_stepCall (hc : Coherent S c) (call : Call M) :
    Coherent S (stepCall S c call) ↔ Harmless S c call := by
  have hread : ∀ {c'}, callWrites call c.source = .ok c.source → Coherent S c' →
      (Coherent S c' ↔ Harmless S c call) := by
    intro c' hwrites hc'
    refine ⟨fun _ objects hobjects => ?_, fun _ => hc'⟩
    rw [← Except.ok.inj (hwrites.symm.trans hobjects)]
    exact hc
  cases call with
  | get path => exact hread rfl ((reads_get path).inv c hc)
  | getRange path start stop => exact hread rfl ((reads_getRange path start stop).inv c hc)
  | getRanges path ranges => exact hread rfl ((reads_getRanges path ranges).inv c hc)
  | getOpts path o => exact hread rfl ((reads_getOpts path o).inv c hc)
  | head path => exact hread rfl ((reads_head path).inv c hc)
  | evict key => exact hread rfl (ReadCache.Coherent.evict hc key)
  | put path content => exact coherent_write hc (callWrites (.put path content))
  | delete path => exact coherent_write hc (callWrites (.delete path))
  | copy source target => exact coherent_write hc (callWrites (.copy source target))
  | copyIfNotExists source target =>
      exact coherent_write hc (callWrites (.copyIfNotExists source target))

theorem coherent_run (hc : Coherent S c) (calls : List (Call M)) :
    (∀ done, done <+: calls → Coherent S (runCalls S c done)) ↔ HarmlessRun S c calls := by
  induction calls generalizing c with
  | nil =>
    refine ⟨fun _ => trivial, fun _ done hdone => ?_⟩
    obtain rfl := List.prefix_nil.mp hdone
    exact hc
  | cons call calls ih =>
    constructor
    · intro h
      have hstep : Coherent S (stepCall S c call) := h [call] ⟨calls, rfl⟩
      refine ⟨(coherent_stepCall hc call).mp hstep, (ih hstep).mp fun done hdone => ?_⟩
      exact h (call :: done) (List.cons_prefix_cons.mpr ⟨rfl, hdone⟩)
    · rintro ⟨hharmless, hrest⟩ done hdone
      have hstep := (coherent_stepCall hc call).mpr hharmless
      cases done with
      | nil => exact hc
      | cons call' done =>
        obtain ⟨rfl, htail⟩ := List.cons_prefix_cons.mp hdone
        exact (ih hstep).mpr hrest done htail

/-- The cache of a server that has just started is empty. -/
def started (objects : Objects M) : CachingObjectStore M := ⟨objects, fun _ => none⟩

/-- In a run of calls the cache is never noticed exactly when no write changes what it
keeps an answer of. -/
theorem transparent_run (S : ObjectStore M) (objects : Objects M) (calls : List (Call M)) :
    (∀ done, done <+: calls → Transparent S (runCalls S (started objects) done)) ↔
      HarmlessRun S (started objects) calls := by
  simp only [transparent_iff]
  exact coherent_run (ReadCache.coherent_empty objects) calls

namespace Memory

/-- Only plain bytes are cut. -/
def slice {M : Type} : Content M → ℕ → ℕ → Except StoreError (Content M)
  | .bytes data, start, stop =>
    if start < stop ∧ start < data.length then .ok (.bytes ((data.take stop).drop start))
    else .error .invalidRange
  | _, _, _ => .error .invalidRange

def getOpts {M : Type} (path : Path) (object : Option (Content M)) (o : GetOptions) :
    Except StoreError (Content M) :=
  if o.plain then
    match o.range with
    | none => wholeObject path object
    | some (.bounded start stop) =>
      wholeObject path object >>= fun content => slice content start stop
    | some _ => .error .invalidRange
  else .error .precondition

def store (M : Type) : ObjectStore M where
  slice := slice
  getOpts := getOpts
  getOpts_whole := by
    intro path object o hplain _ hrange
    simp [getOpts, hplain, hrange]
  getOpts_bounded := by
    intro path object o start stop hplain _ hrange
    simp [getOpts, hplain, hrange]

/-- A table in its first version. -/
def objects : Objects ℕ := fun path =>
  if path = hintPath "t" then some (.versionHint 0)
  else if path = metadataPath "t" 0 then some (.metadata 10)
  else none

/-- A writer reads the hint, another one publishes. -/
def calls : List (Call ℕ) :=
  [.get (hintPath "t"), .put (metadataPath "t" 1) (.metadata 11),
    .put (hintPath "t") (.versionHint 1)]

/-- The hint that was read stays in the cache, and the next writer starts from it. -/
theorem stale_hint : ¬∀ calls done, done <+: calls →
    Transparent (store ℕ) (runCalls (store ℕ) (started objects) done) := by
  intro hall
  have hopens := (hall calls calls List.prefix_rfl).opens (fun _ => none) 0 "t"
  have hstale : answer (openTable (store ℕ) (fun _ => none) 0 "t"
      (runCalls (store ℕ) (started objects) calls)) = .ok (0, 10) := by decide +kernel
  have hfresh : (publishedTable "t" (runCalls (store ℕ) (started objects) calls).source).map
      (openedAt (fun _ => none) 0) = .ok (1, 11) := by decide +kernel
  rw [hstale, hfresh] at hopens
  exact absurd hopens (by decide)

end Memory

end BlueDB.Lakehouse
