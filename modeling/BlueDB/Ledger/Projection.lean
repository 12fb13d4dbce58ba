import BlueDB.Ledger.Books
import BlueDB.Sql.Database
import BlueDB.Sql.Keyspace

/-!
# The ledger as SQL tables

The accounts and the transfers are mirrored into two SQL tables. Each call of the
ledger writes the rows of the records it writes in the same batch, under the ids that
the tables have been given.
-/

namespace BlueDB.Ledger

open Sql (Name Conn StorageKey StoredRow DataType DataRow ColumnDef readRow readSchema readCatalog
  resolveTableId scanData fetchData keyBytes Exec executeStmt)

/-- The bytes of an ASCII name. -/
def nameOf (s : String) (h : s.toList.length < 256 ^ 4 := by decide) : Name :=
  ⟨s.toList.map fun c => UInt8.ofNat c.toNat, by rwa [List.length_map]⟩

inductive ProjValue
  | u128 (v : ℕ)
  | u64 (v : ℕ)
  | u32 (v : ℕ)
  | u16 (v : ℕ)
  | str (s : String)
  deriving DecidableEq

def ProjValue.sqlType : ProjValue → DataType
  | .u128 _ => .uint128
  | .u64 _ => .uint64
  | .u32 _ => .uint32
  | .u16 _ => .uint16
  | .str _ => .text

structure ProjColumn where
  name : Name
  sample : ProjValue

structure ProjectedTable where
  table : Name
  columns : List ProjColumn
  pk : Fin columns.length

abbrev ProjectedTable.Row (tbl : ProjectedTable) :=
  { values : List ProjValue // values.length = tbl.columns.length }

def ProjectedTable.Row.key {tbl : ProjectedTable} (values : tbl.Row) : ProjValue :=
  values.1.get (tbl.pk.cast values.2.symm)

/-- The scalars as values and keys of the SQL engine, whose `u128` keys have bytes. -/
structure Scalars (G : Sql.Engine) where
  toValue : ProjValue → G.Value
  toKey : ProjValue → G.Key
  bytes : U128 → List UInt8
  encoded : ∀ v : U128, G.toCmpBeBytes (toKey (.u128 v.val)) = .ok (bytes v)
  injective : Function.Injective bytes

def accountsTable : ProjectedTable where
  table := nameOf "ledger_accounts"
  columns := [
    ⟨nameOf "id", .u128 0⟩,
    ⟨nameOf "ledger", .u32 0⟩,
    ⟨nameOf "code", .u16 0⟩,
    ⟨nameOf "flags", .u16 0⟩,
    ⟨nameOf "debits_pending", .u128 0⟩,
    ⟨nameOf "debits_posted", .u128 0⟩,
    ⟨nameOf "credits_pending", .u128 0⟩,
    ⟨nameOf "credits_posted", .u128 0⟩,
    ⟨nameOf "user_data_128", .u128 0⟩,
    ⟨nameOf "user_data_64", .u64 0⟩,
    ⟨nameOf "user_data_32", .u32 0⟩,
    ⟨nameOf "timestamp", .u64 0⟩]
  pk := ⟨0, by decide⟩

def transfersTable : ProjectedTable where
  table := nameOf "ledger_transfers"
  columns := [
    ⟨nameOf "id", .u128 0⟩,
    ⟨nameOf "debit_account_id", .u128 0⟩,
    ⟨nameOf "credit_account_id", .u128 0⟩,
    ⟨nameOf "amount", .u128 0⟩,
    ⟨nameOf "pending_id", .u128 0⟩,
    ⟨nameOf "user_data_128", .u128 0⟩,
    ⟨nameOf "user_data_64", .u64 0⟩,
    ⟨nameOf "user_data_32", .u32 0⟩,
    ⟨nameOf "timeout", .u32 0⟩,
    ⟨nameOf "ledger", .u32 0⟩,
    ⟨nameOf "code", .u16 0⟩,
    ⟨nameOf "flags", .u16 0⟩,
    ⟨nameOf "timestamp", .u64 0⟩]
  pk := ⟨0, by decide⟩

def projectAccount (a : Account) : accountsTable.Row :=
  ⟨[.u128 a.id.val, .u32 a.ledger, .u16 a.code, .u16 a.flags.bits.toNat, .u128 a.debitsPending,
    .u128 a.debitsPosted, .u128 a.creditsPending, .u128 a.creditsPosted, .u128 a.userData128,
    .u64 a.userData64, .u32 a.userData32, .u64 a.timestamp], rfl⟩

def projectTransfer (t : Transfer) : transfersTable.Row :=
  ⟨[.u128 t.id.val, .u128 t.debitAccountId.val, .u128 t.creditAccountId.val, .u128 t.amount,
    .u128 t.pendingId.val, .u128 t.userData128, .u64 t.userData64, .u32 t.userData32,
    .u32 t.timeout, .u32 t.ledger, .u16 t.code, .u16 t.flags.bits.toNat, .u64 t.timestamp], rfl⟩

theorem projectAccount_key (a : Account) : (projectAccount a).key = .u128 a.id.val := rfl

theorem projectTransfer_key (t : Transfer) : (projectTransfer t).key = .u128 t.id.val := rfl

variable {G : Sql.Engine}

namespace ProjectedTable

def columnDefs (tbl : ProjectedTable) : List (ColumnDef G) :=
  (List.finRange tbl.columns.length).map fun i =>
    ⟨(tbl.columns.get i).name, (tbl.columns.get i).sample.sqlType, true, none, i = tbl.pk⟩

/-- `CREATE TABLE IF NOT EXISTS` -/
def ensure (tbl : ProjectedTable) : Exec G Unit := do
  if (readSchema (← get).view tbl.table).isSome then pure ()
  else executeStmt (.createTable tbl.table (some tbl.columnDefs))

def encodeRow (P : Scalars G) {tbl : ProjectedTable} (id : UInt64) (values : tbl.Row) :
    Except (Sql.Error G) (Write (StorageKey.Value G)) := do
  let bytes ← keyBytes (P.toKey values.key)
  return .put (.row id bytes) ⟨P.toKey values.key, .vec (values.1.map P.toValue)⟩

def encodeRows (P : Scalars G) {tbl : ProjectedTable} (live : Sql.Store G) (rows : List tbl.Row) :
    Except (Sql.Error G) (List (Write (StorageKey.Value G))) :=
  match resolveTableId live tbl.table with
  | some id => rows.mapM (encodeRow P id)
  | none => .ok []

end ProjectedTable

def ensureSchema : Exec G Unit := do
  accountsTable.ensure
  transfersTable.ensure

structure ProjectedLedger (G : Sql.Engine) where
  ledger : Store
  sql : Conn G

inductive LedgerCall
  | ensureSchema
  | createAccounts (now : ℕ) (specs : List Account)
  | createTransfers (now : ℕ) (batch : List Transfer)

/-- The ledger after a call, the tables apart. -/
def LedgerCall.apply (db : Store) : LedgerCall → Store
  | .ensureSchema => db
  | .createAccounts now specs =>
    match Ledger.createAccounts db now specs with
    | .ok (_, db') => db'
    | .error _ => db
  | .createTransfers now batch =>
    match Ledger.createTransfers db now batch with
    | .ok (_, db') => db'
    | .error _ => db

/-- The mutated accounts, in some order of their ids. -/
def dirtyAccounts (state : ApplyState) : List Account :=
  state.dirty.sort.filterMap state.working

namespace ProjectedLedger

/-- The records and their rows are one batch. -/
def commit (st : ProjectedLedger G) (ledger : Store) (rows : List (Write (StorageKey.Value G))) :
    ProjectedLedger G :=
  ⟨ledger, { st.sql with live := st.sql.live.commit rows }⟩

/-- A call that fails writes nothing. -/
def createAccounts (P : Scalars G) (st : ProjectedLedger G) (now : ℕ) (specs : List Account) :
    ProjectedLedger G :=
  match applyAccounts st.ledger now specs with
  | .error _ => st
  | .ok (_, w) =>
    match ProjectedTable.encodeRows P st.sql.live (w.accepted.map projectAccount) with
    | .error _ => st
    | .ok rows => st.commit (commitAccounts st.ledger w) rows

def createTransfers (P : Scalars G) (st : ProjectedLedger G) (now : ℕ) (batch : List Transfer) :
    ProjectedLedger G :=
  match applyTransfers st.ledger now batch with
  | .error _ => st
  | .ok (_, w) =>
    match ProjectedTable.encodeRows P st.sql.live ((dirtyAccounts w.state).map projectAccount),
        ProjectedTable.encodeRows P st.sql.live (w.accepted.map projectTransfer) with
    | .ok accountRows, .ok transferRows =>
      st.commit (commitTransfers st.ledger w) (accountRows ++ transferRows)
    | _, _ => st

def ensureSchema (st : ProjectedLedger G) : ProjectedLedger G :=
  match Ledger.ensureSchema st.sql with
  | .ok _ c => { st with sql := c }
  | .error _ c => { st with sql := c }

def call (P : Scalars G) (st : ProjectedLedger G) : LedgerCall → ProjectedLedger G
  | .ensureSchema => st.ensureSchema
  | .createAccounts now specs => st.createAccounts P now specs
  | .createTransfers now batch => st.createTransfers P now batch

def run (P : Scalars G) (st : ProjectedLedger G) (calls : List LedgerCall) : ProjectedLedger G :=
  calls.foldl (call P) st

/-- An empty ledger, in a database in which the tables have been ensured. -/
def ensured (strict : Bool) (now : ℤ) : ProjectedLedger G :=
  (⟨.empty, Conn.init strict now⟩ : ProjectedLedger G).ensureSchema

end ProjectedLedger

section

variable {P : Scalars G} {tbl : ProjectedTable} {tid : UInt64} {live : Sql.Store G} {α : Type}
  {idOf : α → U128} {project : α → tbl.Row} {records : U128 → Option α}

/-- The row as it is stored. -/
def projectedRow (P : Scalars G) (values : tbl.Row) : StoredRow G :=
  ⟨P.toKey values.key, .vec (values.1.map P.toValue)⟩

/-- The rows under a table id are those of the records, each under its id. -/
structure Mirrors (P : Scalars G) (live : Sql.Store G) (tid : UInt64) (records : U128 → Option α)
    (project : α → tbl.Row) : Prop where
  row : ∀ id, readRow live tid (P.bytes id) = (records id).map fun a => projectedRow P (project a)
  only : ∀ p, (readRow live tid p).isSome = true → ∃ id, p = P.bytes id

def rowWrite (P : Scalars G) (tid : UInt64) (id : U128) (values : tbl.Row) :
    Write (StorageKey.Value G) := .put (.row tid (P.bytes id)) (projectedRow P values)

theorem encodeRows_eq (hid : resolveTableId live tbl.table = some tid)
    (hkey : ∀ a, (project a).key = .u128 (idOf a).val) (as : List α) :
    ProjectedTable.encodeRows P live (as.map project) =
      .ok (as.map fun a => rowWrite P tid (idOf a) (project a)) := by
  have hrow : ∀ a, ProjectedTable.encodeRow P tid (project a) =
      .ok (rowWrite P tid (idOf a) (project a)) := by
    intro a
    have hbytes : (keyBytes (P.toKey (project a).key) : Except (Sql.Error G) _) =
        .ok (P.bytes (idOf a)) := by
      unfold keyBytes
      rw [hkey a, P.encoded]
      rfl
    unfold ProjectedTable.encodeRow
    rw [hbytes]
    rfl
  unfold ProjectedTable.encodeRows
  rw [hid]
  dsimp only
  induction as with
  | nil => rfl
  | cons a as ih =>
    rw [List.map_cons, List.mapM_cons, hrow a, ih]
    rfl

theorem Mirrors.put (h : Mirrors P live tid records project) (id : U128) (a : α) :
    Mirrors P (live.write (rowWrite P tid id (project a))) tid (Ledger.put records id a)
      project := by
  constructor
  · intro id'
    by_cases hid : id' = id
    · subst hid
      rw [put_self]
      exact Kv.get_write_put ..
    · rw [put_of_ne hid]
      refine Eq.trans (Kv.get_write_of_ne ?_) (h.row id')
      intro heq
      exact hid (P.injective (StorageKey.row.inj heq).2)
  · intro p hp
    by_cases hid : p = P.bytes id
    · exact ⟨id, hid⟩
    · refine h.only p ?_
      have hget : readRow (live.write (rowWrite P tid id (project a))) tid p = readRow live tid p :=
        Kv.get_write_of_ne fun heq => hid (StorageKey.row.inj heq).2
      rwa [hget] at hp

theorem Mirrors.puts (h : Mirrors P live tid records project) (as : List α) :
    Mirrors P (live.commit (as.map fun a => rowWrite P tid (idOf a) (project a))) tid
      (as.foldl (fun m a => Ledger.put m (idOf a) a) records) project := by
  induction as generalizing live records with
  | nil => exact h
  | cons a as ih => exact ih (h.put (idOf a) a)

theorem Mirrors.frame (h : Mirrors P live tid records project)
    {batch : List (Write (StorageKey.Value G))} (hbatch : ∀ w ∈ batch, ∀ p, w.key ≠ .row tid p) :
    Mirrors P (live.commit batch) tid records project := by
  have hget : ∀ p, readRow (live.commit batch) tid p = readRow live tid p := fun p =>
    Kv.get_commit_of_forall_ne fun w hw => hbatch w hw p
  constructor
  · intro id
    rw [hget]
    exact h.row id
  · intro p hp
    rw [hget] at hp
    exact h.only p hp

theorem foldl_put_of_nodup {as : List α} (hnodup : (as.map idOf).Nodup) (id : U128) :
    (∀ a ∈ as, idOf a = id →
      as.foldl (fun m a => Ledger.put m (idOf a) a) records id = some a) ∧
    ((∀ a ∈ as, idOf a ≠ id) →
      as.foldl (fun m a => Ledger.put m (idOf a) a) records id = records id) := by
  induction as generalizing records with
  | nil => exact ⟨fun a ha => absurd ha List.not_mem_nil, fun _ => rfl⟩
  | cons b as ih =>
    obtain ⟨hfresh, hrest⟩ := List.nodup_cons.mp hnodup
    have hcons := @ih (Ledger.put records (idOf b) b) hrest
    constructor
    · intro a ha hid
      rcases List.mem_cons.mp ha with rfl | ha
      · have hother : ∀ a' ∈ as, idOf a' ≠ id := by
          intro a' ha' heq
          exact hfresh (List.mem_map.mpr ⟨a', ha', heq.trans hid.symm⟩)
        rw [List.foldl_cons, hcons.2 hother, ← hid, put_self]
      · rw [List.foldl_cons]
        exact hcons.1 a ha hid
    · intro hne
      rw [List.foldl_cons, hcons.2 fun a ha => hne a (List.mem_cons_of_mem _ ha),
        put_of_ne (hne b List.mem_cons_self).symm]

end

theorem commitTransfers_accounts {db : Store} {w : TransferWork}
    (hkeys : ∀ id ∈ w.state.dirty, ∀ a, w.state.working id = some a → a.id = id) :
    (commitTransfers db w).accounts =
      (dirtyAccounts w.state).foldl (fun m a => put m a.id a) db.accounts := by
  have hmem : ∀ a, a ∈ dirtyAccounts w.state ↔
      ∃ id ∈ w.state.dirty, w.state.working id = some a := by
    intro a
    unfold dirtyAccounts
    rw [List.mem_filterMap]
    simp
  have hnodup : ((dirtyAccounts w.state).map Account.id).Nodup := by
    have hids : (dirtyAccounts w.state).map Account.id =
        w.state.dirty.sort.filter fun id => (w.state.working id).isSome := by
      unfold dirtyAccounts
      rw [List.map_filterMap]
      have hlist : ∀ ids : List U128, (∀ id ∈ ids, id ∈ w.state.dirty) →
          ids.filterMap (fun id => (w.state.working id).map Account.id) =
            ids.filter fun id => (w.state.working id).isSome := by
        intro ids hids
        induction ids with
        | nil => rfl
        | cons id ids ih =>
          obtain ⟨hid, hrest⟩ := List.forall_mem_cons.mp hids
          cases hwork : w.state.working id with
          | none => simpa [hwork] using ih hrest
          | some a => simpa [hwork, hkeys id hid a hwork] using ih hrest
      exact hlist _ fun id hid => (Finset.mem_sort _).mp hid
    rw [hids]
    exact (Finset.sort_nodup _ _).filter _
  funext id
  obtain ⟨hwritten, hkept⟩ := @foldl_put_of_nodup _ _ db.accounts _ hnodup id
  change (if id ∈ w.state.dirty then (w.state.working id).or (db.accounts id)
    else db.accounts id) = _
  split_ifs with hdirty
  · cases hwork : w.state.working id with
    | some a => exact (hwritten a ((hmem a).mpr ⟨id, hdirty, hwork⟩) (hkeys id hdirty a hwork)).symm
    | none =>
      refine (hkept fun a ha heq => ?_).symm
      obtain ⟨id', hid', hwork'⟩ := (hmem a).mp ha
      rw [hkeys id' hid' a hwork'] at heq
      rw [heq, hwork] at hwork'
      exact absurd hwork' nofun
  · refine (hkept fun a ha heq => ?_).symm
    obtain ⟨id', hid', hwork'⟩ := (hmem a).mp ha
    rw [hkeys id' hid' a hwork'] at heq
    exact hdirty (heq ▸ hid')

structure Ensured (live : Sql.Store G) (tbl : ProjectedTable) (id : UInt64) : Prop where
  schema : (readSchema live tbl.table).isSome = true
  id : resolveTableId live tbl.table = some id
  catalog : readCatalog live tbl.table = none

theorem Ensured.commit {live : Sql.Store G} {tbl : ProjectedTable} {id : UInt64}
    (h : Ensured live tbl id) {batch : List (Write (StorageKey.Value G))}
    (hrows : ∀ w ∈ batch, ∃ tid p, w.key = .row tid p) : Ensured (live.commit batch) tbl id := by
  have hget : ∀ k : StorageKey, (∀ tid p, k ≠ .row tid p) →
      (live.commit batch).get k = live.get k := by
    intro k hk
    refine Kv.get_commit_of_forall_ne fun w hw heq => ?_
    obtain ⟨tid, p, hkey⟩ := hrows w hw
    exact hk tid p (heq.symm.trans hkey)
  constructor
  · exact (congrArg Option.isSome (hget (.schema tbl.table) nofun)).trans h.schema
  · exact (hget (.tableid tbl.table) nofun).trans h.id
  · exact (hget (.colcat tbl.table) nofun).trans h.catalog

namespace ProjectedLedger

variable {P : Scalars G} {st : ProjectedLedger G} {i j : UInt64}

/-- The two tables have the rows of the records, and the ledger is sound. -/
structure Agrees (P : Scalars G) (st : ProjectedLedger G) (i j : UInt64) : Prop where
  inv : Inv st.ledger
  idle : st.sql.txn = none
  accounts : Ensured st.sql.live accountsTable i
  transfers : Ensured st.sql.live transfersTable j
  apart : i ≠ j
  accountRows : Mirrors P st.sql.live i st.ledger.accounts projectAccount
  transferRows : Mirrors P st.sql.live j st.ledger.transfers projectTransfer

theorem agrees_ensured (P : Scalars G) (strict : Bool) (now : ℤ) :
    Agrees P (ensured strict now) 1 2 := by
  have hempty : ∀ {α : Type} {tbl : ProjectedTable} (project : α → tbl.Row) (tid : UInt64),
      Mirrors P (ensured (G := G) strict now).sql.live tid (fun _ => none) project := by
    intro α tbl project tid
    have hnone : ∀ p, readRow (ensured (G := G) strict now).sql.live tid p = none := by
      intro p
      cases strict <;> rfl
    exact ⟨fun id => hnone _, fun p hp => by rw [hnone p] at hp; exact absurd hp nofun⟩
  have hledger : (ensured (G := G) strict now).ledger = .empty := by cases strict <;> rfl
  constructor
  · rw [hledger]
    exact Inv.empty
  · cases strict <;> rfl
  · cases strict <;> exact ⟨rfl, rfl, rfl⟩
  · cases strict <;> exact ⟨rfl, rfl, rfl⟩
  · decide
  · rw [hledger]
    exact hempty _ _
  · rw [hledger]
    exact hempty _ _

theorem ensure_of_present {tbl : ProjectedTable} {c : Conn G}
    (h : (readSchema c.view tbl.table).isSome = true) : tbl.ensure c = .ok () c := by
  change (if (readSchema c.view tbl.table).isSome = true then pure ()
    else executeStmt (.createTable tbl.table (some tbl.columnDefs)) : Exec G Unit) c = _
  rw [if_pos h]
  rfl

theorem Agrees.ensureSchema (h : Agrees P st i j) : Agrees P st.ensureSchema i j := by
  have hview : st.sql.view = st.sql.live := by
    unfold Conn.view
    rw [h.idle]
  have hsame : Ledger.ensureSchema st.sql = .ok () st.sql := by
    have haccounts := @ProjectedLedger.ensure_of_present _ accountsTable st.sql
      (by rw [hview]; exact h.accounts.schema)
    have htransfers := @ProjectedLedger.ensure_of_present _ transfersTable st.sql
      (by rw [hview]; exact h.transfers.schema)
    change EStateM.bind accountsTable.ensure (fun _ => transfersTable.ensure) st.sql = _
    unfold EStateM.bind
    rw [haccounts]
    exact htransfers
  unfold ProjectedLedger.ensureSchema
  rw [hsame]
  exact h

theorem rowWrites_keys {tbl : ProjectedTable} {α : Type} {project : α → tbl.Row} {idOf : α → U128}
    {tid : UInt64} {as : List α} {w : Write (StorageKey.Value G)}
    (hw : w ∈ as.map fun a => rowWrite P tid (idOf a) (project a)) :
    ∃ p, w.key = .row tid p := by
  obtain ⟨a, -, rfl⟩ := List.mem_map.mp hw
  exact ⟨_, rfl⟩

theorem Agrees.createAccounts (h : Agrees P st i j) (now : ℕ) (specs : List Account) :
    Agrees P (st.createAccounts P now specs) i j ∧ (st.createAccounts P now specs).ledger =
      LedgerCall.apply st.ledger (.createAccounts now specs) := by
  obtain ⟨results, w, hw, -, hsteps⟩ := exists_accountCall h.inv [] now specs
  have hrows := @encodeRows_eq _ P _ _ _ _ Account.id projectAccount h.accounts.id
    projectAccount_key w.accepted
  have hkeys : ∀ v ∈ w.accepted.map fun a => rowWrite P i a.id (projectAccount a),
      ∃ p, v.key = .row i p := fun v hv => rowWrites_keys hv
  have hnew : st.createAccounts P now specs = st.commit (commitAccounts st.ledger w)
      (w.accepted.map fun a => rowWrite P i a.id (projectAccount a)) := by
    unfold ProjectedLedger.createAccounts
    rw [hw]
    dsimp only
    rw [hrows]
  have hledger : LedgerCall.apply st.ledger (.createAccounts now specs) =
      commitAccounts st.ledger w := by
    simp only [LedgerCall.apply, Ledger.createAccounts, hw, bind, Except.bind]
  rw [hnew]
  refine ⟨?_, hledger.symm⟩
  constructor
  · exact h.inv.steps hsteps
  · exact h.idle
  · exact h.accounts.commit fun v hv => ⟨i, hkeys v hv⟩
  · exact h.transfers.commit fun v hv => ⟨i, hkeys v hv⟩
  · exact h.apart
  · exact h.accountRows.puts w.accepted
  · refine h.transferRows.frame fun v hv p heq => ?_
    obtain ⟨p', hkey⟩ := hkeys v hv
    exact h.apart (StorageKey.row.inj (hkey.symm.trans heq)).1

theorem Agrees.createTransfers (h : Agrees P st i j) (now : ℕ) (batch : List Transfer) :
    Agrees P (st.createTransfers P now batch) i j ∧ (st.createTransfers P now batch).ledger =
      LedgerCall.apply st.ledger (.createTransfers now batch) := by
  obtain ⟨swept, results, w, hw, hcall⟩ := exists_transferCall lazilyExpired h.inv [] now batch
  have hinv : Inv (commitTransfers st.ledger w) :=
    (h.inv.steps hcall.sweepSteps).steps hcall.runSteps
  have hkeyed : ∀ id ∈ w.state.dirty, ∀ a, w.state.working id = some a → a.id = id := by
    intro id hid a ha
    refine hinv.sound.accountKeys id a ?_
    change (if id ∈ w.state.dirty then (w.state.working id).or (st.ledger.accounts id)
      else st.ledger.accounts id) = some a
    rw [if_pos hid, ha]
    rfl
  have haccounts := @encodeRows_eq _ P _ _ _ _ Account.id projectAccount h.accounts.id
    projectAccount_key (dirtyAccounts w.state)
  have htransfers := @encodeRows_eq _ P _ _ _ _ Transfer.id projectTransfer h.transfers.id
    projectTransfer_key w.accepted
  have hnew : st.createTransfers P now batch = st.commit (commitTransfers st.ledger w)
      ((dirtyAccounts w.state).map (fun a => rowWrite P i a.id (projectAccount a)) ++
        w.accepted.map fun t => rowWrite P j t.id (projectTransfer t)) := by
    unfold ProjectedLedger.createTransfers applyTransfers
    rw [hw]
    dsimp only
    rw [haccounts, htransfers]
  have hledger : LedgerCall.apply st.ledger (.createTransfers now batch) =
      commitTransfers st.ledger w := by
    simp only [LedgerCall.apply, Ledger.createTransfers, createTransfersWith, hw, bind, Except.bind]
  have hkeys : ∀ v ∈ (dirtyAccounts w.state).map (fun a => rowWrite P i a.id (projectAccount a)) ++
      w.accepted.map (fun t => rowWrite P j t.id (projectTransfer t)),
      ∃ tid p, v.key = .row tid p := by
    intro v hv
    rcases List.mem_append.mp hv with hv | hv
    · exact ⟨i, rowWrites_keys hv⟩
    · exact ⟨j, rowWrites_keys hv⟩
  rw [hnew]
  refine ⟨?_, hledger.symm⟩
  constructor
  · exact hinv
  · exact h.idle
  · exact h.accounts.commit hkeys
  · exact h.transfers.commit hkeys
  · exact h.apart
  · change Mirrors P (st.sql.live.commit _) i (commitTransfers st.ledger w).accounts projectAccount
    rw [Kv.commit_append, commitTransfers_accounts hkeyed]
    refine (h.accountRows.puts (dirtyAccounts w.state)).frame fun v hv p heq => ?_
    obtain ⟨p', hkey⟩ := rowWrites_keys hv
    exact h.apart (StorageKey.row.inj (heq.symm.trans hkey)).1
  · change Mirrors P (st.sql.live.commit _) j
      (commitTransfers st.ledger w).transfers projectTransfer
    rw [Kv.commit_append]
    refine Mirrors.puts (h.transferRows.frame fun v hv p heq => ?_) w.accepted
    obtain ⟨p', hkey⟩ := rowWrites_keys hv
    exact h.apart (StorageKey.row.inj (hkey.symm.trans heq)).1

theorem ensureSchema_ledger (st : ProjectedLedger G) :
    st.ensureSchema.ledger = st.ledger := by
  unfold ProjectedLedger.ensureSchema
  cases Ledger.ensureSchema st.sql <;> rfl

theorem Agrees.call (h : Agrees P st i j) (call : LedgerCall) :
    Agrees P (st.call P call) i j ∧ (st.call P call).ledger = call.apply st.ledger := by
  cases call with
  | ensureSchema => exact ⟨h.ensureSchema, ensureSchema_ledger st⟩
  | createAccounts now specs => exact h.createAccounts now specs
  | createTransfers now batch => exact h.createTransfers now batch

theorem Agrees.run (h : Agrees P st i j) (calls : List LedgerCall) :
    Agrees P (st.run P calls) i j ∧
      (st.run P calls).ledger = calls.foldl LedgerCall.apply st.ledger := by
  induction calls generalizing st with
  | nil => exact ⟨h, rfl⟩
  | cons call calls ih =>
    obtain ⟨hcall, hledger⟩ := h.call call
    have hrest := ih hcall
    rw [hledger] at hrest
    exact hrest

end ProjectedLedger

/-- A `SELECT` from the table finds the rows of the records, one for each id. -/
structure Queried (P : Scalars G) (live : Sql.Store G) (tbl : ProjectedTable) {α : Type}
    (records : U128 → Option α) (project : α → tbl.Row) : Prop where
  scan : ∃ rows, scanData live tbl.table = .ok rows ∧ (rows.map Prod.fst).Nodup ∧
    ∀ key row, (key, row) ∈ rows ↔ ∃ id a, records id = some a ∧
      key = P.toKey (.u128 id.val) ∧ row = .vec ((project a).1.map P.toValue)
  fetch : ∀ id : U128, fetchData live tbl.table (P.toKey (.u128 id.val)) =
    .ok ((records id).map fun a => .vec ((project a).1.map P.toValue))

theorem Mirrors.queried {P : Scalars G} {live : Sql.Store G} {tbl : ProjectedTable} {tid : UInt64}
    {α : Type} {records : U128 → Option α} {project : α → tbl.Row} {idOf : α → U128}
    (h : Mirrors P live tid records project) (hensured : Ensured live tbl tid)
    (hkey : ∀ a, (project a).key = .u128 (idOf a).val)
    (hids : ∀ id a, records id = some a → idOf a = id) : Queried P live tbl records project := by
  have hbytes : ∀ id : U128, (keyBytes (P.toKey (.u128 id.val)) : Except (Sql.Error G) _) =
      .ok (P.bytes id) := by
    intro id
    unfold keyBytes
    rw [P.encoded]
    rfl
  have hstored : ∀ p st, readRow live tid p = some st ↔ ∃ id a, p = P.bytes id ∧
      records id = some a ∧ st = projectedRow P (project a) := by
    intro p st
    constructor
    · intro hst
      obtain ⟨id, rfl⟩ := h.only p (by rw [hst]; rfl)
      rw [h.row, Option.map_eq_some_iff] at hst
      obtain ⟨a, ha, rfl⟩ := hst
      exact ⟨id, a, rfl, ha, rfl⟩
    · rintro ⟨id, a, rfl, ha, rfl⟩
      rw [h.row, ha]
      rfl
  have hrowKey : ∀ id a, records id = some a →
      (projectedRow P (project a)).key = P.toKey (.u128 id.val) := by
    intro id a ha
    change P.toKey (project a).key = _
    rw [hkey a, hids id a ha]
  have htable : ∀ {β : Type} (f : UInt64 → Except (Sql.Error G) β),
      (Sql.tableId live tbl.table >>= f) = f tid := by
    intro β f
    unfold Sql.tableId
    rw [hensured.id]
    rfl
  constructor
  · refine ⟨Sql.logicalRows live none (Sql.scanTable live tid), ?_, ?_, ?_⟩
    · unfold scanData Sql.collectRows
      rw [htable, hensured.catalog]
      rfl
    · have hascending := Sql.scanRange_ascending live (Sql.dataPrefix tid)
        (prefixUpperBound (Sql.dataPrefix tid))
      unfold Sql.logicalRows
      rw [List.map_filterMap]
      refine List.pairwise_filterMap.mpr (hascending.imp_of_mem fun {k k'} hk hk' hlt => ?_)
      obtain ⟨p, rfl, -⟩ := Sql.mem_scanTable.mp hk
      obtain ⟨p', rfl, -⟩ := Sql.mem_scanTable.mp hk'
      rintro key hkey₁ key' hkey₂ rfl
      simp only [Option.map_eq_some_iff] at hkey₁ hkey₂
      obtain ⟨_, ⟨st, hst, rfl⟩, rfl⟩ := hkey₁
      obtain ⟨_, ⟨st', hst', rfl⟩, heq⟩ := hkey₂
      obtain ⟨id, a, rfl, ha, rfl⟩ := (hstored p st).mp hst
      obtain ⟨id', a', rfl, ha', rfl⟩ := (hstored p' st').mp hst'
      dsimp only at heq
      rw [hrowKey id a ha, hrowKey id' a' ha'] at heq
      have hsame := hbytes id'
      rw [heq, hbytes id, Except.ok.injEq] at hsame
      rw [hsame] at hlt
      exact lt_irrefl _ hlt
    · intro key row
      rw [Sql.mem_logicalRows_scanTable]
      constructor
      · rintro ⟨p, st, hst, heq⟩
        obtain ⟨id, a, -, ha, rfl⟩ := (hstored p st).mp hst
        obtain ⟨rfl, rfl⟩ := Prod.mk.inj heq
        exact ⟨id, a, ha, hrowKey id a ha, rfl⟩
      · rintro ⟨id, a, ha, rfl, rfl⟩
        refine ⟨P.bytes id, projectedRow P (project a), (hstored _ _).mpr ⟨id, a, rfl, ha, rfl⟩, ?_⟩
        rw [hrowKey id a ha]
        rfl
  · intro id
    unfold fetchData
    rw [htable, hbytes, hensured.catalog]
    change Except.ok _ = Except.ok _
    rw [h.row]
    cases records id <;> rfl

/-- After any calls the ledger is the one that they lead to without the tables, and the
tables have the rows of its accounts and transfers. -/
theorem projection_mirrors (P : Scalars G) (strict : Bool) (now : ℤ) (calls : List LedgerCall) :
    ((ProjectedLedger.ensured (G := G) strict now).run P calls).ledger =
        calls.foldl LedgerCall.apply .empty ∧
      Queried P ((ProjectedLedger.ensured strict now).run P calls).sql.live accountsTable
        ((ProjectedLedger.ensured (G := G) strict now).run P calls).ledger.accounts
        projectAccount ∧
      Queried P ((ProjectedLedger.ensured strict now).run P calls).sql.live transfersTable
        ((ProjectedLedger.ensured (G := G) strict now).run P calls).ledger.transfers
        projectTransfer := by
  obtain ⟨h, hledger⟩ := (ProjectedLedger.agrees_ensured P strict now).run calls
  have hempty : (ProjectedLedger.ensured (G := G) strict now).ledger = .empty := by
    cases strict <;> rfl
  rw [hempty] at hledger
  exact ⟨hledger, h.accountRows.queried h.accounts projectAccount_key h.inv.sound.accountKeys,
    h.transferRows.queried h.transfers projectTransfer_key h.inv.sound.transferKeys⟩

namespace Tables

inductive Key
  | none
  | i64 (n : ℤ)
  | scalar (v : ProjValue)
  deriving DecidableEq

/-- A tag that sorts null last, the sign, and the big-endian bytes; a text as it is. -/
def toCmpBeBytes : Key → List UInt8
  | .none => [0x01]
  | .i64 n => 0x00 :: (if 0 ≤ n then 0x01 else 0x00) :: beBytes 8 (n % 2 ^ 64).toNat
  | .scalar (.u128 v) => 0x00 :: 0x01 :: beBytes 16 v
  | .scalar (.u64 v) => 0x00 :: 0x01 :: beBytes 8 v
  | .scalar (.u32 v) => 0x00 :: 0x01 :: beBytes 4 v
  | .scalar (.u16 v) => 0x00 :: 0x01 :: beBytes 2 v
  | .scalar (.str s) => 0x00 :: s.toList.map fun c => UInt8.ofNat c.toNat

/-- An engine with the scalars as values and keys, in which no expression is evaluated. -/
def engine : Sql.Engine where
  Key := Key
  Value := Option ProjValue
  Expr := Empty
  decKey := inferInstance
  decValue := inferInstance
  decExpr := inferInstance
  null := none
  noneKey := .none
  i64 := .i64
  asI64
    | .i64 n => some n
    | _ => none
  keyOf v := .ok ((v.map Key.scalar).getD .none)
  toCmpBeBytes k := .ok (toCmpBeBytes k)
  displayKey _ := ""
  evaluate _ e := e.elim
  mentions e := e.elim

def scalars : Scalars engine where
  toValue := some
  toKey := .scalar
  bytes v := 0x00 :: 0x01 :: beBytes 16 v.val
  encoded _ := rfl
  injective := by
    intro v w h
    simp only [List.cons.injEq, true_and] at h
    exact Fin.ext (beBytes_inj v.isLt w.isLt h)

/-- Two accounts, a transfer and a pending one with a timeout, and a call after its expiry. -/
def calls : List LedgerCall := [
  .createAccounts 10 [sampleAccount 1 .none, sampleAccount 2 .none],
  .createTransfers 20 [sampleTransfer 100 1 2 5 .none,
    { sampleTransfer 101 2 1 7 .pending with timeout := 1 }],
  .ensureSchema,
  .createTransfers 2000000000 [sampleTransfer 102 1 2 1 .none]]

def ran : ProjectedLedger engine := (ProjectedLedger.ensured true 0).run scalars calls

/-- The row of an account. -/
def row (a : Account) : DataRow (Option ProjValue) := .vec ((projectAccount a).1.map some)

/-- The sweep of the last call shows in the row of account 2, and so does its transfer. -/
theorem projection_mirrors_swept :
    fetchData ran.sql.live accountsTable.table (.scalar (.u128 2)) =
        .ok (some (row { sampleAccount 2 .none with creditsPosted := 6, timestamp := 11 })) ∧
      fetchData ran.sql.live transfersTable.table (.scalar (.u128 103)) = .ok none := by
  obtain ⟨hledger, haccounts, htransfers⟩ := projection_mirrors scalars true 0 calls
  have haccount : (calls.foldl LedgerCall.apply .empty).accounts 2 =
      some { sampleAccount 2 .none with creditsPosted := 6, timestamp := 11 } := by decide +kernel
  have htransfer : (calls.foldl LedgerCall.apply .empty).transfers 103 = none := by decide +kernel
  constructor
  · refine (haccounts.fetch 2).trans ?_
    rw [hledger, haccount]
    rfl
  · refine (htransfers.fetch 103).trans ?_
    rw [hledger, htransfer]
    rfl

end Tables

end BlueDB.Ledger
