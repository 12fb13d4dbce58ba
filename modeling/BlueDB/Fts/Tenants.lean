import BlueDB.Fts.Match
import BlueDB.Fts.Upkeep

/-!
# The indexes of several tenants

The tenants have their own tables, and one engine for all of them: it hears of the commits
of every tenant, and knows a table by its name alone. A tenant notices nothing of another
one that keeps to other names.
-/

namespace BlueDB.Fts

structure Server where
  tables : String → String → Option Table
  engine : FtsEngine

namespace Server

/-- What a tenant does to a table of its own, and what the server does on its own. -/
inductive Event
  | tenant (tenant name : String) (op : TableOp)
  | engine (op : EngineOp)

def new : Server := ⟨fun _ _ => none, .new⟩

def step (u : Unicode) (s : Server) : Event → Server
  | .tenant tenant name op =>
    let site := Site.run u name ⟨s.tables tenant name, s.engine⟩ op
    ⟨Function.update s.tables tenant (Function.update (s.tables tenant) name site.table),
      site.engine⟩
  | .engine op => { s with engine := s.engine.run u op }

def run (u : Unicode) (s : Server) (events : List Event) : Server := events.foldl (step u) s

def Event.isOf (tenant : String) : Event → Bool
  | .tenant t _ _ => t == tenant
  | .engine _ => false

/-- The run without what a tenant does. -/
def without (tenant : String) (events : List Event) : List Event :=
  events.filter fun ev => !ev.isOf tenant

variable {Query Score Answer : Type} [LinearOrder Score]

def answer (u : Unicode) (T : Tantivy Query Score)
    (parse : FieldKind → String → Except String Query)
    (execute : (String → Option Table) → List FtsStatement → Answer) (s : Server) (tenant : String)
    (params : List (Option String)) (stmts : List FtsStatement) : Except EngineError Answer :=
  (rewriteFor u T parse (s.engine.indexesOf u) params stmts).map fun rewritten =>
    execute (s.tables tenant) (rewritten.elim stmts fun q => [.query q])

/-- The tables that others than the tenant declare indexes of. -/
def declaredBeside (tenant : String) (events : List Event) : List String :=
  events.filterMap fun
    | .tenant t name (.createIndex ..) => if t = tenant then none else some name
    | _ => none

/-- The path of an index, without the kind. -/
def indexPath (table column : String) : String := "/" ++ table ++ "/" ++ column

structure Apart (tenant : String) (events : List Event) (asked : List String) : Prop where
  commits : ∀ name changes, .tenant tenant name (.commit changes) ∈ events →
    name ∉ declaredBeside tenant events
  indexes : ∀ name column analyzer kind,
    .tenant tenant name (.createIndex column analyzer kind) ∈ events →
      name ∉ declaredBeside tenant events ++ asked
  paths : ∀ name column analyzer kind,
    .tenant tenant name (.createIndex column analyzer kind) ∈ events →
    ∀ t name' column' analyzer' kind', t ≠ tenant →
      .tenant t name' (.createIndex column' analyzer' kind') ∈ events →
        indexPath name column ≠ indexPath name' column'

/-- The indexes that the tenant declares. -/
def Theirs (tenant : String) (events : List Event) (d : PersistedDef) : Prop :=
  ∃ analyzer, .tenant tenant d.table (.createIndex d.column analyzer d.kind) ∈ events

/-- The second server is the first one without what belongs to the tenant. -/
structure Purged (tenant : String) (names : List String) (theirs : PersistedDef → Prop)
    (s s' : Server) : Prop where
  tables : ∀ t ≠ tenant, s.tables t = s'.tables t
  indexes : s'.engine.indexes = s.engine.indexes.filter fun d => decide (d.table ∈ names)
  registered : s.engine.registry = s.engine.indexes.map InstalledDef.toPersistedDef
  registered' : s'.engine.registry = s'.engine.indexes.map InstalledDef.toPersistedDef
  distinct : (s.engine.indexes.map fun d => d.name).Nodup
  blobs : ∀ id, (∀ d, theirs d → d.indexId ≠ id) → s.engine.blobs id = s'.engine.blobs id
  aside : ∀ d ∈ s.engine.indexes, d.table ∉ names → theirs d.toPersistedDef
  inside : ∀ d ∈ s'.engine.indexes, ∀ d', theirs d' → d'.indexId ≠ d.indexId

variable {u : Unicode} {tenant name : String} {names : List String} {theirs : PersistedDef → Prop}
  {s s' : Server}

theorem filter_map_of_def {f : InstalledDef → InstalledDef}
    (hf : ∀ d, (f d).toPersistedDef = d.toPersistedDef) (l : List InstalledDef) :
    (l.map f).filter (fun d => decide (d.table ∈ names)) =
      (l.filter fun d => decide (d.table ∈ names)).map f := by
  rw [List.filter_map]
  congr 1
  apply List.filter_congr
  intro d _
  change decide ((f d).table ∈ names) = _
  rw [hf]

theorem install_filter (l : List InstalledDef) (d : InstalledDef) :
    (install l d).filter (fun d => decide (d.table ∈ names)) =
      if d.table ∈ names then install (l.filter fun d => decide (d.table ∈ names)) d
      else l.filter fun d => decide (d.table ∈ names) := by
  unfold install
  rw [List.filter_append, List.filter_filter]
  by_cases hname : d.table ∈ names
  · rw [if_pos hname, List.filter_cons, if_pos (decide_eq_true hname), List.filter_nil,
      List.filter_filter]
    congr 1
    apply List.filter_congr
    intro d' _
    exact Bool.and_comm ..
  · have hout : ¬ decide (d.table ∈ names) = true := by rwa [decide_eq_true_iff]
    rw [if_neg hname, List.filter_cons, if_neg hout, List.filter_nil, List.append_nil]
    apply List.filter_congr
    intro d' _
    cases hd' : decide (d'.table ∈ names) with
    | false => rfl
    | true =>
      have hne : d'.name ≠ d.name := by
        intro heq
        have htable : d'.table = d.table := congrArg IndexName.table heq
        rw [htable] at hd'
        exact hname (of_decide_eq_true hd')
      rw [Bool.true_and, bne_iff_ne]
      exact hne

namespace Purged

theorem start (tenant : String) (names : List String) (theirs : PersistedDef → Prop) :
    Purged tenant names theirs .new .new where
  tables _ _ := rfl
  indexes := rfl
  registered := rfl
  registered' := rfl
  distinct := List.Pairwise.nil
  blobs _ _ := rfl
  aside _ hd := absurd hd List.not_mem_nil
  inside _ hd := absurd hd List.not_mem_nil

theorem distinct' (h : Purged tenant names theirs s s') :
    (s'.engine.indexes.map fun d => d.name).Nodup := by
  rw [h.indexes]
  exact h.distinct.sublist (List.filter_sublist.map _)

theorem map_registered {l : List InstalledDef} {f : InstalledDef → InstalledDef}
    (hdef : ∀ d ∈ l, (f d).toPersistedDef = d.toPersistedDef) :
    l.map InstalledDef.toPersistedDef = (l.map f).map InstalledDef.toPersistedDef := by
  rw [List.map_map]
  apply List.map_congr_left
  intro d hd
  exact (hdef d hd).symm

/-- Indexes that change under their declarations, in both runs alike. -/
theorem remap (h : Purged tenant names theirs s s') {f f' : InstalledDef → InstalledDef}
    {tables tables' : String → String → Option Table} {blobs blobs' : String → Blobs}
    (hdef : ∀ d, (f d).toPersistedDef = d.toPersistedDef)
    (hsame : ∀ d ∈ s'.engine.indexes, f' d = f d)
    (htables : ∀ t ≠ tenant, tables t = tables' t)
    (hblobs : ∀ id, (∀ d, theirs d → d.indexId ≠ id) → blobs id = blobs' id) :
    Purged tenant names theirs ⟨tables, ⟨s.engine.indexes.map f, s.engine.registry, blobs⟩⟩
      ⟨tables', ⟨s'.engine.indexes.map f', s'.engine.registry, blobs'⟩⟩ where
  tables := htables
  indexes := by
    change s'.engine.indexes.map f' = (s.engine.indexes.map f).filter _
    rw [filter_map_of_def hdef, ← h.indexes]
    exact List.map_congr_left hsame
  registered := h.registered.trans (map_registered fun d _ => hdef d)
  registered' := by
    refine h.registered'.trans (map_registered fun d hd => ?_)
    rw [hsame d hd]
    exact hdef d
  distinct := by
    have heq : ((s.engine.indexes.map f).map fun d => d.name) =
        s.engine.indexes.map fun d => d.name := by
      rw [List.map_map]
      apply List.map_congr_left
      intro d _
      exact congrArg PersistedDef.name (hdef d)
    rw [heq]
    exact h.distinct
  blobs := hblobs
  aside d hd hname := by
    obtain ⟨d₀, hmem, rfl⟩ := List.mem_map.mp hd
    rw [hdef] at hname ⊢
    exact h.aside d₀ hmem hname
  inside d hd := by
    obtain ⟨d₀, hmem, rfl⟩ := List.mem_map.mp hd
    rw [hsame d₀ hmem, hdef]
    exact h.inside d₀ hmem

/-- Tables change, and those of the others in both runs alike. -/
theorem retable (h : Purged tenant names theirs s s')
    {tables tables' : String → String → Option Table}
    (htables : ∀ t ≠ tenant, tables t = tables' t) :
    Purged tenant names theirs ⟨tables, s.engine⟩ ⟨tables', s'.engine⟩ where
  __ := h
  tables := htables
  registered' := h.registered'

theorem observe_of_ne {d : InstalledDef} {c : ℤ × Option (List GValue)} (h : d.table ≠ name) :
    d.observe u (rowChange name c) = d := by
  have hne : (rowChange name c).table ≠ d.table := h.symm
  unfold InstalledDef.observe
  rw [if_neg hne]

theorem onCommit (h : Purged tenant names theirs s s')
    (changes : List (ℤ × Option (List GValue))) :
    Purged tenant names theirs
      ⟨s.tables, s.engine.onCommit u (changes.map (rowChange name))⟩
      ⟨s'.tables, s'.engine.onCommit u (changes.map (rowChange name))⟩ := by
  induction changes generalizing s s' with
  | nil => exact h
  | cons c rest ih =>
    exact ih (h.remap (f := fun d => d.observe u (rowChange name c)) (fun d => observe_def d _)
      (fun _ _ => rfl) h.tables h.blobs)

/-- A commit to a table that the second run has no index of. -/
theorem onCommit_aside (h : Purged tenant names theirs s s') (hname : name ∉ names)
    (changes : List (ℤ × Option (List GValue))) :
    Purged tenant names theirs
      ⟨s.tables, s.engine.onCommit u (changes.map (rowChange name))⟩ s' := by
  induction changes generalizing s with
  | nil => exact h
  | cons c rest ih =>
    have hsame : ∀ d ∈ s'.engine.indexes, id d = d.observe u (rowChange name c) := by
      intro d hd
      rw [h.indexes] at hd
      have htable := of_decide_eq_true (List.mem_filter.mp hd).2
      have hne : d.table ≠ name := by
        intro heq
        rw [heq] at htable
        exact hname htable
      exact (observe_of_ne hne).symm
    have hstep := h.remap (f := fun d => d.observe u (rowChange name c)) (fun d => observe_def d _)
      hsame h.tables h.blobs
    rw [List.map_id] at hstep
    exact ih hstep

theorem installDef (h : Purged tenant names theirs s s') {d : PersistedDef}
    (hname : d.table ∈ names) (hid : ∀ d', theirs d' → d'.indexId ≠ d.indexId) :
    Purged tenant names theirs ⟨s.tables, s.engine.installDef d.build⟩
      ⟨s'.tables, s'.engine.installDef d.build⟩ where
  __ := h
  indexes := by
    have hbuild : d.build.table ∈ names := hname
    change install s'.engine.indexes d.build = (install s.engine.indexes d.build).filter _
    rw [install_filter, if_pos hbuild, h.indexes]
  registered := rfl
  registered' := rfl
  distinct := install_names _ h.distinct
  aside d' hd' hout := by
    rcases mem_install.mp hd' with ⟨hd', -⟩ | rfl
    · exact h.aside d' hd' hout
    · exact absurd hname hout
  inside d' hd' := by
    rcases mem_install.mp hd' with ⟨hd', -⟩ | rfl
    · exact h.inside d' hd'
    · exact hid

theorem installDef_aside (h : Purged tenant names theirs s s') {d : PersistedDef}
    (hname : d.table ∉ names) (hd : theirs d) :
    Purged tenant names theirs ⟨s.tables, s.engine.installDef d.build⟩ s' where
  __ := h
  indexes := by
    have hbuild : d.build.table ∉ names := hname
    change s'.engine.indexes = (install s.engine.indexes d.build).filter _
    rw [install_filter, if_neg hbuild, h.indexes]
  registered := rfl
  registered' := h.registered'
  distinct := install_names _ h.distinct
  aside d' hd' hout := by
    rcases mem_install.mp hd' with ⟨hd', -⟩ | rfl
    · exact h.aside d' hd' hout
    · exact hd

theorem find_filter (h : Purged tenant names theirs s s') (index : IndexName) :
    s'.engine.find index = if index.table ∈ names then s.engine.find index else none := by
  unfold FtsEngine.find
  rw [h.indexes]
  split_ifs with hname
  · rw [List.find?_filter]
    apply List.find?_congr
    intro d _
    by_cases hd : d.name = index
    · have htable : d.table ∈ names := by
        have heq : d.table = index.table := congrArg IndexName.table hd
        rw [heq]
        exact hname
      simp [hd, htable]
    · simp [hd]
  · rw [List.find?_eq_none]
    intro d hd heq
    have htable := of_decide_eq_true (List.mem_filter.mp hd).2
    have hindex : d.table = index.table := congrArg IndexName.table (eq_of_beq heq)
    rw [hindex] at htable
    exact hname htable

theorem setBlobs (h : Purged tenant names theirs s s') {id : String} (b : Blobs) :
    Purged tenant names theirs ⟨s.tables, s.engine.setBlobs id b⟩
      ⟨s'.tables, s'.engine.setBlobs id b⟩ where
  __ := h
  registered' := h.registered'
  blobs id' hid' := by
    change Function.update s.engine.blobs id b id' = Function.update s'.engine.blobs id b id'
    by_cases heq : id' = id
    · rw [heq, Function.update_self, Function.update_self]
    · rw [Function.update_of_ne heq, Function.update_of_ne heq]
      exact h.blobs id' hid'

theorem setBlobs_aside (h : Purged tenant names theirs s s') {d : PersistedDef} (hd : theirs d)
    (b : Blobs) : Purged tenant names theirs ⟨s.tables, s.engine.setBlobs d.indexId b⟩ s' where
  __ := h
  registered' := h.registered'
  blobs id' hid' := by
    change Function.update s.engine.blobs d.indexId b id' = _
    rw [Function.update_of_ne (hid' d hd).symm]
    exact h.blobs id' hid'

theorem setSegment (h : Purged tenant names theirs s s') (index : IndexName) (live : LiveTier) :
    Purged tenant names theirs ⟨s.tables, s.engine.setSegment index live⟩
      ⟨s'.tables, s'.engine.setSegment index live⟩ := by
  apply h.remap
  · intro d
    split_ifs <;> rfl
  · exact fun _ _ => rfl
  · exact h.tables
  · exact h.blobs

theorem setSegment_aside (h : Purged tenant names theirs s s') {index : IndexName}
    (hname : index.table ∉ names) (live : LiveTier) :
    Purged tenant names theirs ⟨s.tables, s.engine.setSegment index live⟩ s' := by
  have hsame : ∀ d ∈ s'.engine.indexes,
      id d = if d.name = index then { d with segment := live } else d := by
    intro d hd
    rw [h.indexes] at hd
    have htable := of_decide_eq_true (List.mem_filter.mp hd).2
    have hne : d.name ≠ index := by
      intro heq
      have hindex : d.table = index.table := congrArg IndexName.table heq
      rw [hindex] at htable
      exact hname htable
    rw [if_neg hne]
    rfl
  have hstep := @Server.Purged.remap _ _ _ _ _ h
    (fun d => if d.name = index then { d with segment := live } else d) id _ _ _ _
    (by intro d; split_ifs <;> rfl) hsame h.tables h.blobs
  rw [List.map_id] at hstep
  exact hstep

theorem sealIndex (h : Purged tenant names theirs s s') {d : InstalledDef}
    (hd : d ∈ s'.engine.indexes) (outcome : SealOutcome) :
    Purged tenant names theirs ⟨s.tables, s.engine.sealIndex u d outcome⟩
      ⟨s'.tables, s'.engine.sealIndex u d outcome⟩ := by
  unfold FtsEngine.sealIndex
  rw [h.blobs d.indexId (h.inside d hd)]
  cases outcome with
  | finished => exact (h.setBlobs _).setSegment d.name .empty
  | aborted after => exact h.setBlobs _

theorem sealIndex_aside (h : Purged tenant names theirs s s') {d : InstalledDef}
    (hd : d ∈ s.engine.indexes) (hname : d.table ∉ names) (outcome : SealOutcome) :
    Purged tenant names theirs ⟨s.tables, s.engine.sealIndex u d outcome⟩ s' := by
  have hid := h.aside d hd hname
  cases outcome with
  | finished => exact @setSegment_aside _ _ _ _ _ (h.setBlobs_aside hid _) d.name hname .empty
  | aborted after => exact h.setBlobs_aside hid _

theorem compactIndex (h : Purged tenant names theirs s s') {d : InstalledDef}
    (hd : d ∈ s'.engine.indexes) :
    Purged tenant names theirs ⟨s.tables, s.engine.compactIndex u d⟩
      ⟨s'.tables, s'.engine.compactIndex u d⟩ := by
  unfold FtsEngine.compactIndex
  rw [h.blobs d.indexId (h.inside d hd)]
  exact h.setBlobs _

theorem reopen (h : Purged tenant names theirs s s') :
    Purged tenant names theirs ⟨s.tables, s.engine.reopen⟩ ⟨s'.tables, s'.engine.reopen⟩ := by
  rw [reopen_eq h.distinct h.registered, reopen_eq h.distinct' h.registered']
  exact h.remap (f := fun d => d.toPersistedDef.build) (fun _ => rfl) (fun _ _ => rfl) h.tables
    h.blobs

theorem engine (h : Purged tenant names theirs s s') (op : EngineOp) :
    Purged tenant names theirs (s.step u (.engine op)) (s'.step u (.engine op)) := by
  cases op with
  | sealIndex index outcome =>
    have hfind := h.find_filter index
    change Purged tenant names theirs ⟨_, s.engine.run u (.sealIndex index outcome)⟩
      ⟨_, s'.engine.run u (.sealIndex index outcome)⟩
    unfold FtsEngine.run
    dsimp only
    rw [hfind]
    by_cases hname : index.table ∈ names
    · rw [if_pos hname] at hfind ⊢
      cases hd : s.engine.find index with
      | none => exact h
      | some d =>
        rw [hd] at hfind
        exact h.sealIndex (find_some hfind).1 outcome
    · rw [if_neg hname]
      cases hd : s.engine.find index with
      | none => exact h
      | some d =>
        obtain ⟨hmem, rfl⟩ := find_some hd
        exact h.sealIndex_aside hmem hname outcome
  | compactIndex index =>
    have hfind := h.find_filter index
    change Purged tenant names theirs ⟨_, s.engine.run u (.compactIndex index)⟩
      ⟨_, s'.engine.run u (.compactIndex index)⟩
    unfold FtsEngine.run
    dsimp only
    rw [hfind]
    by_cases hname : index.table ∈ names
    · rw [if_pos hname] at hfind ⊢
      cases hd : s.engine.find index with
      | none => exact h
      | some d =>
        rw [hd] at hfind
        exact h.compactIndex (find_some hfind).1
    · rw [if_neg hname]
      cases hd : s.engine.find index with
      | none => exact h
      | some d =>
        obtain ⟨hmem, rfl⟩ := find_some hd
        exact h.setBlobs_aside (h.aside d hmem hname) _
  | reopen => exact h.reopen

theorem indexId_eq (d : PersistedDef) :
    d.indexId = idPrefix d.kind ++ indexPath d.table d.column := by
  unfold PersistedDef.indexId indexPath
  simp only [String.append_assoc]

theorem own (h : Purged tenant names theirs s s') {op : TableOp}
    (hcommit : ∀ changes, op = .commit changes → name ∉ names)
    (hcreate : ∀ column analyzer kind, op = .createIndex column analyzer kind →
      name ∉ names ∧ ∀ ordinal pk analyzer', theirs ⟨name, column, ordinal, pk, analyzer', kind⟩) :
    Purged tenant names theirs (s.step u (.tenant tenant name op)) s' := by
  have hbeside : ∀ (table : Option Table), ∀ t ≠ tenant, Function.update s.tables tenant
      (Function.update (s.tables tenant) name table) t = s'.tables t := by
    intro table t ht
    rw [Function.update_of_ne ht]
    exact h.tables t ht
  unfold Server.step Site.run
  cases op with
  | create columns pkColumn =>
    dsimp only
    split_ifs
    · exact h.retable (hbeside _)
    · exact h.retable (hbeside _)
  | drop => exact h.retable (hbeside _)
  | dropColumn column => exact h.retable (hbeside _)
  | commit changes =>
    dsimp only
    split
    · exact (h.onCommit_aside (hcommit changes rfl) changes).retable (hbeside _)
    · exact h.retable (hbeside _)
  | createIndex column analyzer kind =>
    dsimp only
    split
    · rename_i e hcreated
      obtain ⟨t, -, hcreated⟩ := Option.bind_eq_some_iff.mp hcreated
      obtain ⟨ordinal, -, rfl⟩ := Option.map_eq_some_iff.mp hcreated
      obtain ⟨hname, htheirs⟩ := hcreate column analyzer kind rfl
      exact Purged.retable (h.installDef_aside (d := ⟨name, column, ordinal, t.pkColumn,
        effectiveAnalyzer kind analyzer, kind⟩) hname (htheirs _ _ _)) (hbeside _)
    · exact h.retable (hbeside _)

theorem other (h : Purged tenant names theirs s s') {t : String} {op : TableOp} (ht : t ≠ tenant)
    (hname : ∀ column analyzer kind, op = .createIndex column analyzer kind → name ∈ names)
    (hid : ∀ column analyzer kind, op = .createIndex column analyzer kind →
      ∀ d, theirs d → d.indexId ≠ idPrefix kind ++ indexPath name column) :
    Purged tenant names theirs (s.step u (.tenant t name op)) (s'.step u (.tenant t name op)) := by
  have hbeside : ∀ (table : Option Table), ∀ t' ≠ tenant,
      Function.update s.tables t (Function.update (s.tables t) name table) t' =
        Function.update s'.tables t (Function.update (s'.tables t) name table) t' := by
    intro table t' ht'
    rw [h.tables t ht]
    by_cases heq : t' = t
    · rw [heq, Function.update_self, Function.update_self]
    · rw [Function.update_of_ne heq, Function.update_of_ne heq]
      exact h.tables t' ht'
  have htable : s.tables t name = s'.tables t name := congrFun (h.tables t ht) name
  unfold Server.step Site.run
  dsimp only
  rw [htable]
  cases op with
  | create columns pkColumn =>
    dsimp only
    split_ifs
    · exact h.retable (hbeside _)
    · exact h.retable (hbeside _)
  | drop => exact h.retable (hbeside _)
  | dropColumn column => exact h.retable (hbeside _)
  | commit changes =>
    dsimp only
    split
    · exact (h.onCommit changes).retable (hbeside _)
    · exact h.retable (hbeside _)
  | createIndex column analyzer kind =>
    cases htab : s'.tables t name with
    | none => exact h.retable (hbeside _)
    | some table =>
      dsimp only
      rw [Option.bind_some, Option.bind_some]
      unfold FtsEngine.createIndex
      cases hordinal : table.ordinal column with
      | none => exact h.retable (hbeside _)
      | some ordinal =>
        refine Purged.retable (h.installDef (d := ⟨name, column, ordinal, table.pkColumn,
          effectiveAnalyzer kind analyzer, kind⟩) (hname column analyzer kind rfl) ?_) (hbeside _)
        rw [indexId_eq]
        exact hid column analyzer kind rfl

/-- The indexes of a table that the tenant has none of are the same in both runs. -/
theorem indexesOf (h : Purged tenant names theirs s s') {table : String}
    (htable : ∀ d, theirs d → d.table = table → table ∈ names) :
    s.engine.indexesOf u table = s'.engine.indexesOf u table := by
  have hfilter : s'.engine.indexes.filter (fun d => d.table == table) =
      s.engine.indexes.filter fun d => d.table == table := by
    rw [h.indexes, List.filter_filter]
    apply List.filter_congr
    intro d hmem
    by_cases hd : d.table = table
    · have hname : d.table ∈ names := by
        by_contra hout
        exact hout (hd ▸ htable _ (h.aside d hmem hout) hd)
      simp [hd, hd ▸ hname]
    · simp [hd]
  unfold FtsEngine.indexesOf
  rw [← hfilter]
  apply List.map_congr_left
  intro d hd
  unfold FtsEngine.asIndexDef
  rw [h.blobs d.indexId (h.inside d (List.mem_of_mem_filter hd))]

end Purged

theorem idPrefix_append {kind kind' : IndexKind} {path path' : String}
    (hpath : ∃ rest, path.toList = '/' :: rest) (hpath' : ∃ rest, path'.toList = '/' :: rest)
    (h : idPrefix kind ++ path = idPrefix kind' ++ path') : path = path' := by
  have hlist := congrArg String.toList h
  obtain ⟨rest, hrest⟩ := hpath
  obtain ⟨rest', hrest'⟩ := hpath'
  rw [String.toList_append, String.toList_append, hrest, hrest'] at hlist
  apply String.toList_inj.mp
  rw [hrest, hrest']
  cases kind <;> cases kind' <;> simp_all [idPrefix]

theorem indexPath_slash (table column : String) :
    ∃ rest, (indexPath table column).toList = '/' :: rest := by
  refine ⟨table.toList ++ "/".toList ++ column.toList, ?_⟩
  unfold indexPath
  rw [String.toList_append, String.toList_append, String.toList_append]
  rfl

theorem mem_declaredBeside {events : List Event} {t column analyzer : String} {kind : IndexKind}
    (ht : t ≠ tenant) (h : .tenant t name (.createIndex column analyzer kind) ∈ events) :
    name ∈ declaredBeside tenant events := by
  refine List.mem_filterMap.mpr ⟨_, h, ?_⟩
  dsimp only
  rw [if_neg ht]

/-- A tenant that keeps apart leaves no trace with the others. -/
theorem Purged.run {events : List Event} {asked : List String} (hapart : Apart tenant events asked)
    {rest : List Event} (hrest : ∀ ev ∈ rest, ev ∈ events)
    (h : Purged tenant (declaredBeside tenant events) (Theirs tenant events) s s') :
    Purged tenant (declaredBeside tenant events) (Theirs tenant events) (s.run u rest)
      (s'.run u (without tenant rest)) := by
  induction rest generalizing s s' with
  | nil => exact h
  | cons ev rest ih =>
    have hev := hrest ev List.mem_cons_self
    have hlater : ∀ ev ∈ rest, ev ∈ events := fun ev' h' => hrest ev' (List.mem_cons_of_mem _ h')
    cases ev with
    | engine op => exact ih hlater (h.engine op)
    | tenant t name op =>
      by_cases ht : t = tenant
      · subst ht
        have hwithout : without t (.tenant t name op :: rest) = without t rest := by
          unfold without Event.isOf
          rw [List.filter_cons]
          simp
        rw [hwithout]
        apply ih hlater
        apply h.own
        · rintro changes rfl
          exact hapart.commits name changes hev
        · rintro column analyzer kind rfl
          have hout := hapart.indexes name column analyzer kind hev
          exact ⟨fun hmem => hout (List.mem_append_left _ hmem), fun _ _ _ => ⟨analyzer, hev⟩⟩
      · have hwithout : without tenant (.tenant t name op :: rest) =
            .tenant t name op :: without tenant rest := by
          unfold without Event.isOf
          rw [List.filter_cons]
          simp [ht]
        rw [hwithout]
        apply ih hlater
        apply h.other ht
        · rintro column analyzer kind rfl
          exact mem_declaredBeside ht hev
        · rintro column analyzer kind rfl d ⟨analyzer', hmem⟩ heq
          rw [indexId_eq] at heq
          exact hapart.paths d.table d.column analyzer' d.kind hmem t name column analyzer kind ht
            hev (idPrefix_append (indexPath_slash ..) (indexPath_slash ..) heq)

theorem answer_without (u : Unicode) (T : Tantivy Query Score)
    (parse : FieldKind → String → Except String Query)
    (execute : (String → Option Table) → List FtsStatement → Answer) (tenant other : String)
    (hne : other ≠ tenant) (events : List Event) (params : List (Option String))
    (stmts : List FtsStatement) (hapart : Apart tenant events (mentioned stmts)) :
    answer u T parse execute (new.run u events) other params stmts =
      answer u T parse execute (new.run u (without tenant events)) other params stmts := by
  have hpurged := Purged.run (u := u) hapart (fun _ h => h) (Purged.start ..)
  have hrewrite := @rewriteFor_congr _ _ _ u T parse _ _ params _ fun table htable =>
    hpurged.indexesOf (u := u) fun d ⟨analyzer, hmem⟩ heq =>
      absurd (List.mem_append_right _ (heq ▸ htable)) (hapart.indexes _ _ analyzer _ hmem)
  unfold answer
  rw [hrewrite, hpurged.tables other hne]

namespace TenantsExample

open LikeExample

/-- The keys that are kept of a table. -/
def execute (tables : String → Option Table) : List FtsStatement → List ℤ
  | [.query ⟨⟨[⟨.table name, _⟩], some (.inList _ list)⟩, _⟩] =>
    (tables name).elim [] fun t => (t.rows.entries.map Prod.fst).filter fun pk => some pk ∈ list
  | _ => []

def drafts : List FtsStatement :=
  [.query ⟨⟨[⟨.table "docs", 0⟩], some (.binary .atAt
    (.function "to_tsvector" [.string "english", .column "body"])
    (.function "to_tsquery" [.string "draft"]))⟩, []⟩]

def found (s : Server) : Except EngineError (List ℤ) :=
  answer ascii search (fun _ => parse) execute s "b" [] drafts

def declared : List Event :=
  [.tenant "b" "docs" (.create ["id", "body"] "id"),
    .tenant "b" "docs" (.createIndex "body" "english" .fulltext),
    .tenant "b" "docs" (.commit [(1, some [.other "1", .str "draft"])])]

/-- Another tenant declares an index of a table of its own. -/
def elsewhere (name : String) : List Event :=
  [.tenant "a" name (.create ["id", "body"] "id"),
    .tenant "a" name (.createIndex "body" "english" .fulltext)]

theorem of_mem_declared {name name' : String} {op : TableOp}
    (h : .tenant "a" name op ∈ declared ++ elsewhere name') : name = name' := by
  rcases List.mem_append.mp h with h | h
  · simp [declared] at h
  · simp only [elsewhere, List.mem_cons, List.not_mem_nil, or_false, Event.tenant.injEq] at h
    rcases h with h | h
    · exact h.2.1
    · exact h.2.1

theorem apart_notes : Apart "a" (declared ++ elsewhere "notes") (mentioned drafts) where
  commits name changes hmem := by
    obtain rfl := of_mem_declared hmem
    decide
  indexes name column analyzer kind hmem := by
    obtain rfl := of_mem_declared hmem
    decide
  paths name column analyzer kind hmem t name' column' analyzer' kind' ht hmem' := by
    obtain rfl := of_mem_declared hmem
    have hname' : name' = "docs" := by
      simp only [declared, elsewhere, List.cons_append, List.nil_append, List.mem_cons,
        List.not_mem_nil, or_false, Event.tenant.injEq] at hmem'
      rcases hmem' with h | h | h | h | h
      · exact h.2.1
      · exact h.2.1
      · exact h.2.1
      · exact absurd h.1 ht
      · exact absurd h.1 ht
    subst hname'
    intro heq
    have hlist := congrArg String.toList heq
    simp [indexPath] at hlist

theorem answer_without_notes :
    found (new.run ascii (declared ++ elsewhere "notes")) =
      found (new.run ascii (without "a" (declared ++ elsewhere "notes"))) :=
  answer_without ascii search (fun _ => parse) execute "a" "b" (by decide) _ [] drafts apart_notes

/-- An index of one tenant answers the queries of another one, without its rows. -/
theorem answered_by_namesake :
    ¬ ∀ events, found (new.run ascii events) = found (new.run ascii (without "a" events)) := by
  intro h
  have hleak := congrArg Except.toOption (h (.tenant "b" "docs" (.create ["id", "body"] "id") ::
    .tenant "b" "docs" (.commit [(1, some [.other "1", .str "draft"])]) :: elsewhere "docs"))
  exact absurd hleak (by decide +kernel)

end TenantsExample

end Server

end BlueDB.Fts
