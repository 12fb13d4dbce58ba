import BlueDB.Evidence.Model
import BlueDB.Ledger.Model
import BlueDB.Sql.Keyspace
import BlueDB.Sql.Laws

/-!
# One keyspace for every tenant and every layer

All records live in one ordered store. A key is the length-prefixed tenant, a tag
for the kind of record, and what tells the records of a kind apart. Two records
never share a key, and the byte range of a scan holds nothing but the records the
scan is for.
-/

namespace BlueDB.Keyspace

open Sql (Name Engine)

abbrev Bytes := List UInt8

def tagJsoncat : UInt8 := 0x09
def tagViews : UInt8 := 0x0B
def tagExternalBase : UInt8 := 0x10
def tagCdc : UInt8 := tagExternalBase + 6

/-- A fresh key with the prefix of the tenant and a tag. -/
def tagged (tenant : Name) (tag : UInt8) : Bytes := lengthPrefixed 4 tenant.1 ++ [tag]

/-- A key that ends with a name. -/
def nameKey (tag : UInt8) (tenant table : Name) : Bytes := tagged tenant tag ++ table.1

def schemaKey : Name → Name → Bytes := nameKey Sql.tagSchema
def metaKey : Name → Name → Bytes := nameKey Sql.tagMeta
def colcatKey : Name → Name → Bytes := nameKey Sql.tagColcat
def pkcatKey : Name → Name → Bytes := nameKey Sql.tagPkcat
def jsoncatKey : Name → Name → Bytes := nameKey tagJsoncat
def uniqueidxKey : Name → Name → Bytes := nameKey Sql.tagUniqueidx
def tableidKey : Name → Name → Bytes := nameKey Sql.tagTableid

def schemaPrefix (tenant : Name) : Bytes := tagged tenant Sql.tagSchema
def metaPrefix (tenant : Name) : Bytes := tagged tenant Sql.tagMeta
def viewsKey (tenant : Name) : Bytes := tagged tenant tagViews
def tableidSeqKey (tenant : Name) : Bytes := tagged tenant Sql.tagTableidSeq

def dataPrefix (tenant : Name) (id : UInt64) : Bytes :=
  tagged tenant Sql.tagData ++ beBytes 8 id.toNat

def indexPrefix (tenant : Name) (id : UInt64) (index : Name) : Bytes :=
  tagged tenant Sql.tagIndex ++ (beBytes 8 id.toNat ++ lengthPrefixed 4 index.1)

section Engine

variable {G : Engine}

def rowKey (tenant : Name) (id : UInt64) (key : G.Key) : Except String Bytes := do
  let pk ← G.toCmpBeBytes key
  return dataPrefix tenant id ++ pk

def indexValuePrefix (tenant : Name) (id : UInt64) (index : Name) (value : G.Key) :
    Except String Bytes := do
  let valueBytes ← G.toCmpBeBytes value
  return indexPrefix tenant id index ++ orderPreserving valueBytes

def indexEntryKey (tenant : Name) (id : UInt64) (index : Name) (value pk : G.Key) :
    Except String Bytes := do
  let valueBytes ← G.toCmpBeBytes value
  let pkBytes ← G.toCmpBeBytes pk
  return indexPrefix tenant id index ++ orderPreserving valueBytes ++ pkBytes

end Engine

/-- A key of a layer above SQL; every caller passes a tag of `tagExternalBase` or more. -/
def externalKey (tenant : Name) (tag : UInt8) (suffix : Bytes) : Bytes :=
  tagged tenant tag ++ suffix

def externalPrefix (tenant : Name) (tag : UInt8) : Bytes := tagged tenant tag

def cdcKey (tenant : Name) (seq : Int64) : Bytes :=
  externalKey tenant tagCdc (beBytes 8 seq.toUInt64.toNat)

def tagAccount : UInt8 := tagExternalBase
def tagTransfer : UInt8 := tagExternalBase + 1
def tagPendingState : UInt8 := tagExternalBase + 2
def tagExpiry : UInt8 := tagExternalBase + 3
def tagFailed : UInt8 := tagExternalBase + 4
def tagTsWatermark : UInt8 := tagExternalBase + 5

open Ledger (U128)

/-- A key that ends with an id of the ledger. -/
def idKey (tag : UInt8) (tenant : Name) (id : U128) : Bytes :=
  externalKey tenant tag (beBytes 16 id)

def accountKey : Name → U128 → Bytes := idKey tagAccount
def transferKey : Name → U128 → Bytes := idKey tagTransfer
def pendingStateKey : Name → U128 → Bytes := idKey tagPendingState
def failedKey : Name → U128 → Bytes := idKey tagFailed

/-- The bytes of `ts`. -/
def watermarkKey (tenant : Name) : Bytes := externalKey tenant tagTsWatermark [0x74, 0x73]

def expiryKey (tenant : Name) (expiresAt : UInt64) (pendingId : U128) : Bytes :=
  externalKey tenant tagExpiry (beBytes 8 expiresAt.toNat ++ beBytes 16 pendingId)

def expiryPrefix (tenant : Name) : Bytes := externalPrefix tenant tagExpiry

/-- One more, unless that overflows. -/
def saturatingSucc (n : UInt64) : UInt64 := if n.toNat + 1 < 2 ^ 64 then n + 1 else n

def expiryScanEnd (tenant : Name) (now : UInt64) : Bytes :=
  externalKey tenant tagExpiry (beBytes 8 (saturatingSucc now).toNat)

/-- The records of the SQL layer. -/
inductive SqlRecord (G : Engine)
  | schema (table : Name)
  | row (id : UInt64) (pk : G.Key)
  | indexEntry (id : UInt64) (index : Name) (value pk : G.Key)
  | metadata (table : Name)
  | colcat (table : Name)
  | tableid (table : Name)
  | tableidSeq
  | pkcat (table : Name)
  | jsoncat (table : Name)
  | uniqueidx (table : Name)
  | views
  | cdc (seq : Int64)

inductive LedgerRecord
  | account (id : U128)
  | transfer (id : U128)
  | pendingState (id : U128)
  | expiry (expiresAt : UInt64) (pendingId : U128)
  | failed (id : U128)
  | watermark

/-- A record of the evidence layer, with numbers of the types the source gives them. -/
abbrev EvidenceRecord := { r : Evidence.RecordKey // r.Fits }

inductive Record (G : Engine)
  | sql (r : SqlRecord G)
  | ledger (r : LedgerRecord)
  | evidence (r : EvidenceRecord)

section Keys

variable {G : Engine}

def SqlRecord.key (tenant : Name) : SqlRecord G → Except String Bytes
  | .schema table => .ok (schemaKey tenant table)
  | .row id pk => rowKey tenant id pk
  | .indexEntry id index value pk => indexEntryKey tenant id index value pk
  | .metadata table => .ok (metaKey tenant table)
  | .colcat table => .ok (colcatKey tenant table)
  | .tableid table => .ok (tableidKey tenant table)
  | .tableidSeq => .ok (tableidSeqKey tenant)
  | .pkcat table => .ok (pkcatKey tenant table)
  | .jsoncat table => .ok (jsoncatKey tenant table)
  | .uniqueidx table => .ok (uniqueidxKey tenant table)
  | .views => .ok (viewsKey tenant)
  | .cdc seq => .ok (cdcKey tenant seq)

def LedgerRecord.key (tenant : Name) : LedgerRecord → Bytes
  | .account id => accountKey tenant id
  | .transfer id => transferKey tenant id
  | .pendingState id => pendingStateKey tenant id
  | .expiry expiresAt pendingId => expiryKey tenant expiresAt pendingId
  | .failed id => failedKey tenant id
  | .watermark => watermarkKey tenant

def Record.key (tenant : Name) : Record G → Except String Bytes
  | .sql r => r.key tenant
  | .ledger r => .ok (r.key tenant)
  | .evidence r => .ok (Evidence.Key.encode ⟨tenant, r.1⟩)

def SqlRecord.tag : SqlRecord G → UInt8
  | .schema _ => Sql.tagSchema
  | .row _ _ => Sql.tagData
  | .indexEntry _ _ _ _ => Sql.tagIndex
  | .metadata _ => Sql.tagMeta
  | .colcat _ => Sql.tagColcat
  | .tableid _ => Sql.tagTableid
  | .tableidSeq => Sql.tagTableidSeq
  | .pkcat _ => Sql.tagPkcat
  | .jsoncat _ => tagJsoncat
  | .uniqueidx _ => Sql.tagUniqueidx
  | .views => tagViews
  | .cdc _ => tagCdc

/-- What follows the tag. -/
def SqlRecord.suffix : SqlRecord G → Except String Bytes
  | .row id pk => (G.toCmpBeBytes pk).map fun p => beBytes 8 id.toNat ++ p
  | .indexEntry id index value pk => do
    let v ← G.toCmpBeBytes value
    let p ← G.toCmpBeBytes pk
    return beBytes 8 id.toNat ++ (lengthPrefixed 4 index.1 ++ (orderPreserving v ++ p))
  | .schema table | .metadata table | .colcat table | .tableid table | .pkcat table
  | .jsoncat table | .uniqueidx table => .ok table.1
  | .tableidSeq | .views => .ok []
  | .cdc seq => .ok (beBytes 8 seq.toUInt64.toNat)

def LedgerRecord.tag : LedgerRecord → UInt8
  | .account _ => tagAccount
  | .transfer _ => tagTransfer
  | .pendingState _ => tagPendingState
  | .expiry _ _ => tagExpiry
  | .failed _ => tagFailed
  | .watermark => tagTsWatermark

def LedgerRecord.suffix : LedgerRecord → Bytes
  | .account id | .transfer id | .pendingState id | .failed id => beBytes 16 id
  | .expiry expiresAt pendingId => beBytes 8 expiresAt.toNat ++ beBytes 16 pendingId
  | .watermark => [0x74, 0x73]

def Record.tag : Record G → UInt8
  | .sql r => r.tag
  | .ledger r => r.tag
  | .evidence r => r.1.tag

def Record.suffix : Record G → Except String Bytes
  | .sql r => r.suffix
  | .ledger r => .ok r.suffix
  | .evidence r => .ok r.1.suffix

theorem SqlRecord.key_eq (tenant : Name) (r : SqlRecord G) :
    r.key tenant = r.suffix.map (tagged tenant r.tag ++ ·) := by
  cases r with
  | row id pk =>
    change rowKey tenant id pk = ((G.toCmpBeBytes pk).map _).map _
    unfold rowKey
    cases G.toCmpBeBytes pk with
    | error e => rfl
    | ok p => exact congrArg Except.ok (List.append_assoc ..)
  | indexEntry id index value pk =>
    simp only [key, indexEntryKey, suffix]
    cases G.toCmpBeBytes value with
    | error e => rfl
    | ok v =>
      cases G.toCmpBeBytes pk with
      | error e => rfl
      | ok p =>
        apply congrArg Except.ok
        unfold indexPrefix
        simp only [List.append_assoc]
        rfl
  | tableidSeq | views => exact congrArg Except.ok (List.append_nil _).symm
  | _ => rfl

theorem LedgerRecord.key_eq (tenant : Name) (r : LedgerRecord) :
    r.key tenant = tagged tenant r.tag ++ r.suffix := by
  cases r <;> rfl

theorem Record.key_eq (tenant : Name) (r : Record G) :
    r.key tenant = r.suffix.map (tagged tenant r.tag ++ ·) := by
  cases r with
  | sql r => exact r.key_eq tenant
  | ledger r => exact congrArg Except.ok (r.key_eq tenant)
  | evidence r =>
    apply congrArg Except.ok
    exact (List.append_assoc (lengthPrefixed 4 tenant.1) [r.1.tag] r.1.suffix).symm

theorem Record.exists_suffix {tenant : Name} {r : Record G} {k : Bytes} (h : r.key tenant = .ok k) :
    ∃ suffix, r.suffix = .ok suffix ∧ k = tagged tenant r.tag ++ suffix := by
  rw [r.key_eq] at h
  cases hsuffix : r.suffix with
  | error e =>
    rw [hsuffix] at h
    exact absurd h (by simp [Except.map])
  | ok suffix =>
    rw [hsuffix] at h
    exact ⟨suffix, rfl, (Except.ok.inj h).symm⟩

theorem tagged_append_inj {tenant tenant' : Name} {tag tag' : UInt8} {x y : Bytes}
    (h : tagged tenant tag ++ x = tagged tenant' tag' ++ y) :
    tenant = tenant' ∧ tag = tag' ∧ x = y := by
  unfold tagged at h
  rw [List.append_assoc, List.append_assoc] at h
  obtain ⟨htenant, hrest⟩ := selfDelimiting_lengthPrefixed 4 _ _ _ _ h
  obtain ⟨htag, hx⟩ := List.cons.inj hrest
  exact ⟨htenant, htag, hx⟩

end Keys

section Injective

variable {G : Engine}

/-- Keys of one type, null among them. -/
def SameType (O : Sql.KeyOrder G) (a b : G.Key) : Prop :=
  a = G.noneKey ∨ b = G.noneKey ∨ (O.compare a b).isSome = true

theorem eq_of_toCmpBeBytes {O : Sql.KeyOrder G} {a b : G.Key} {bytes : Bytes}
    (h : SameType O a b) (ha : G.toCmpBeBytes a = .ok bytes) (hb : G.toCmpBeBytes b = .ok bytes) :
    a = b := by
  by_contra hne
  rcases h with rfl | rfl | hcompare
  · exact absurd (O.none_last (Ne.symm hne) hb ha) (lt_irrefl _)
  · exact absurd (O.none_last hne ha hb) (lt_irrefl _)
  · obtain ⟨o, ho⟩ := Option.isSome_iff_exists.mp hcompare
    have hbytes := O.compare_bytes ho ha hb
    rw [compareBytes_eq_eq.mpr rfl] at hbytes
    subst o
    exact hne (O.eq_of_compare ho)

/-- The same record, with keys of the same comparable bytes. -/
def SqlRecord.Alike : SqlRecord G → SqlRecord G → Prop
  | .row id pk, .row id' pk' => id = id' ∧ G.toCmpBeBytes pk = G.toCmpBeBytes pk'
  | .indexEntry id index value pk, .indexEntry id' index' value' pk' =>
    id = id' ∧ index = index' ∧ G.toCmpBeBytes value = G.toCmpBeBytes value' ∧
      G.toCmpBeBytes pk = G.toCmpBeBytes pk'
  | r, r' => r = r'

def Record.Alike : Record G → Record G → Prop
  | .sql r, .sql r' => r.Alike r'
  | r, r' => r = r'

/-- The primary keys of one table are of one type, and so are the values of one index. -/
def Record.SameTypes (O : Sql.KeyOrder G) : Record G → Record G → Prop
  | .sql (.row id pk), .sql (.row id' pk') => id = id' → SameType O pk pk'
  | .sql (.indexEntry id index value pk), .sql (.indexEntry id' index' value' pk') =>
    id = id' → SameType O pk pk' ∧ (index = index' → SameType O value value')
  | _, _ => True

theorem row_suffix {id : UInt64} {pk : G.Key} {suffix : Bytes}
    (h : (SqlRecord.row id pk : SqlRecord G).suffix = .ok suffix) :
    ∃ p, G.toCmpBeBytes pk = .ok p ∧ suffix = beBytes 8 id.toNat ++ p := by
  simp only [SqlRecord.suffix] at h
  cases hp : G.toCmpBeBytes pk with
  | error e =>
    rw [hp] at h
    exact absurd h (by simp [Except.map])
  | ok p =>
    rw [hp] at h
    exact ⟨p, rfl, (Except.ok.inj h).symm⟩

theorem indexEntry_suffix {id : UInt64} {index : Name} {value pk : G.Key} {suffix : Bytes}
    (h : (SqlRecord.indexEntry id index value pk : SqlRecord G).suffix = .ok suffix) :
    ∃ v p, G.toCmpBeBytes value = .ok v ∧ G.toCmpBeBytes pk = .ok p ∧
      suffix = beBytes 8 id.toNat ++ (lengthPrefixed 4 index.1 ++ (orderPreserving v ++ p)) := by
  simp only [SqlRecord.suffix] at h
  cases hv : G.toCmpBeBytes value with
  | error e =>
    rw [hv] at h
    exact absurd h (by simp [bind, Except.bind])
  | ok v =>
    cases hp : G.toCmpBeBytes pk with
    | error e =>
      rw [hv, hp] at h
      exact absurd h (by simp [bind, Except.bind])
    | ok p =>
      rw [hv, hp] at h
      exact ⟨v, p, rfl, rfl, (Except.ok.inj h).symm⟩

theorem int64_beBytes_inj {m n : Int64}
    (h : beBytes 8 m.toUInt64.toNat = beBytes 8 n.toUInt64.toNat) : m = n := by
  have hnat := beBytes_inj (UInt64.toNat_lt _) (UInt64.toNat_lt _) h
  rw [← Int64.toInt64_toUInt64 m, UInt64.toNat_inj.mp hnat, Int64.toInt64_toUInt64]

theorem selfDelimiting_id : SelfDelimiting fun id : U128 => beBytes 16 id :=
  SelfDelimiting.of_length (fun _ => length_beBytes _ _) fun a b h =>
    Fin.ext (beBytes_inj (lt_of_lt_of_le a.2 (by decide)) (lt_of_lt_of_le b.2 (by decide)) h)

theorem SqlRecord.alike {r r' : SqlRecord G} {suffix : Bytes} (htag : r.tag = r'.tag)
    (h : r.suffix = .ok suffix) (h' : r'.suffix = .ok suffix) : r.Alike r' := by
  cases r <;> cases r' <;> first
    | exact absurd htag (ne_of_beq_false rfl)
    | rfl
    | skip
  case row.row id pk id' pk' =>
    obtain ⟨p, hp, rfl⟩ := row_suffix h
    obtain ⟨p', hp', heq⟩ := row_suffix h'
    obtain ⟨hid, rfl⟩ := Sql.selfDelimiting_tableId _ _ _ _ heq
    exact ⟨hid, hp.trans hp'.symm⟩
  case indexEntry.indexEntry id index value pk id' index' value' pk' =>
    obtain ⟨v, p, hv, hp, rfl⟩ := indexEntry_suffix h
    obtain ⟨v', p', hv', hp', heq⟩ := indexEntry_suffix h'
    obtain ⟨hid, hrest⟩ := Sql.selfDelimiting_tableId _ _ _ _ heq
    obtain ⟨hindex, hrest⟩ := selfDelimiting_lengthPrefixed 4 _ _ _ _ hrest
    obtain ⟨rfl, rfl⟩ := selfDelimiting_orderPreserving _ _ _ _ hrest
    exact ⟨hid, hindex, hv.trans hv'.symm, hp.trans hp'.symm⟩
  case cdc.cdc seq seq' =>
    have hseq := (Except.ok.inj h).trans (Except.ok.inj h').symm
    exact congrArg SqlRecord.cdc (int64_beBytes_inj hseq)
  all_goals
    have hname := Subtype.ext ((Except.ok.inj h).trans (Except.ok.inj h').symm)
    rw [hname]
    rfl

theorem LedgerRecord.suffix_inj {r r' : LedgerRecord} (htag : r.tag = r'.tag)
    (h : r.suffix = r'.suffix) : r = r' := by
  cases r <;> cases r' <;> first
    | exact absurd htag (ne_of_beq_false rfl)
    | rfl
    | skip
  case expiry.expiry e id e' id' =>
    obtain ⟨he, hid⟩ := Sql.selfDelimiting_tableId _ _ _ _ h
    rw [he, selfDelimiting_id.injective hid]
  all_goals rw [selfDelimiting_id.injective h]

/-- The layer that a tag belongs to: SQL, ledger or evidence. -/
def layer (tag : UInt8) : ℕ :=
  if tag < tagExternalBase ∨ tag = tagCdc then 0 else if tag < tagCdc then 1 else 2

theorem SqlRecord.layer_tag (r : SqlRecord G) : layer r.tag = 0 := by
  cases r <;> rfl

theorem LedgerRecord.layer_tag (r : LedgerRecord) : layer r.tag = 1 := by
  cases r <;> rfl

theorem EvidenceRecord.layer_tag (r : EvidenceRecord) : layer r.1.tag = 2 := by
  obtain ⟨r, -⟩ := r
  cases r <;> rfl

theorem Record.alike {r r' : Record G} {suffix : Bytes} (htag : r.tag = r'.tag)
    (h : r.suffix = .ok suffix) (h' : r'.suffix = .ok suffix) : r.Alike r' := by
  have hlayer : layer r.tag = layer r'.tag := congrArg layer htag
  cases r with
  | sql r =>
    change layer r.tag = _ at hlayer
    rw [r.layer_tag] at hlayer
    cases r' with
    | sql r' => exact r.alike htag h h'
    | ledger r' => exact absurd (hlayer.trans r'.layer_tag) (by decide)
    | evidence r' => exact absurd (hlayer.trans (EvidenceRecord.layer_tag r')) (by decide)
  | ledger r =>
    change layer r.tag = _ at hlayer
    rw [r.layer_tag] at hlayer
    cases r' with
    | sql r' => exact absurd (hlayer.trans r'.layer_tag) (by decide)
    | ledger r' =>
      have hsuffix := (Except.ok.inj h).trans (Except.ok.inj h').symm
      exact congrArg Record.ledger (LedgerRecord.suffix_inj htag hsuffix)
    | evidence r' => exact absurd (hlayer.trans (EvidenceRecord.layer_tag r')) (by decide)
  | evidence r =>
    change layer r.1.tag = _ at hlayer
    rw [EvidenceRecord.layer_tag r] at hlayer
    cases r' with
    | sql r' | ledger r' => exact absurd (hlayer.trans r'.layer_tag) (by decide)
    | evidence r' =>
      have hsuffix := (Except.ok.inj h).trans (Except.ok.inj h').symm
      exact congrArg Record.evidence
        (Subtype.ext (Evidence.RecordKey.suffix_inj r.2 r'.2 htag hsuffix))

theorem Record.alike_of_key {tenant tenant' : Name} {r r' : Record G} {k : Bytes}
    (h : r.key tenant = .ok k) (h' : r'.key tenant' = .ok k) : tenant = tenant' ∧ r.Alike r' := by
  obtain ⟨suffix, hsuffix, rfl⟩ := Record.exists_suffix h
  obtain ⟨suffix', hsuffix', heq⟩ := Record.exists_suffix h'
  obtain ⟨htenant, htag, rfl⟩ := tagged_append_inj heq
  exact ⟨htenant, Record.alike htag hsuffix hsuffix'⟩

theorem Record.Alike.eq {O : Sql.KeyOrder G} {tenant : Name} {r r' : Record G} {k : Bytes}
    (halike : r.Alike r') (htypes : r.SameTypes O r') (h : r.key tenant = .ok k) : r = r' := by
  obtain ⟨suffix, hsuffix, -⟩ := Record.exists_suffix h
  cases r with
  | sql r =>
    cases r' with
    | sql r' =>
      cases r with
      | row id pk =>
        cases r' with
        | row id' pk' =>
          obtain ⟨rfl, hpk⟩ := halike
          obtain ⟨p, hp, -⟩ := row_suffix hsuffix
          rw [eq_of_toCmpBeBytes (htypes rfl) hp (hpk.symm.trans hp)]
        | _ => exact absurd halike (by simp [Record.Alike, SqlRecord.Alike])
      | indexEntry id index value pk =>
        cases r' with
        | indexEntry id' index' value' pk' =>
          obtain ⟨rfl, rfl, hvalue, hpk⟩ := halike
          obtain ⟨v, p, hv, hp, -⟩ := indexEntry_suffix hsuffix
          obtain ⟨hpkType, hvalueType⟩ := htypes rfl
          rw [eq_of_toCmpBeBytes hpkType hp (hpk.symm.trans hp),
            eq_of_toCmpBeBytes (hvalueType rfl) hv (hvalue.symm.trans hv)]
        | _ => exact absurd halike (by simp [Record.Alike, SqlRecord.Alike])
      | _ => exact congrArg Record.sql halike
    | _ => exact halike
  | _ => exact halike

end Injective

def tagEvidenceEntry : UInt8 := tagExternalBase + 7
def tagGraphEdge : UInt8 := tagExternalBase + 12
def tagGraphOut : UInt8 := tagExternalBase + 13
def tagGraphIn : UInt8 := tagExternalBase + 14

def entryKey (tenant chain : Name) (seq : Int64) : Bytes :=
  externalKey tenant tagEvidenceEntry (lengthPrefixed 4 chain.1 ++ beBytes 8 seq.toUInt64.toNat)

def entryPrefix (tenant chain : Name) : Bytes :=
  externalKey tenant tagEvidenceEntry (lengthPrefixed 4 chain.1)

def graphOutPrefix (tenant graph src : Name) : Bytes :=
  externalKey tenant tagGraphOut (lengthPrefixed 4 graph.1 ++ lengthPrefixed 4 src.1)

def graphInPrefix (tenant graph dst : Name) : Bytes :=
  externalKey tenant tagGraphIn (lengthPrefixed 4 graph.1 ++ lengthPrefixed 4 dst.1)

/-- All the keys of a graph under one of its three tags. -/
def graphPrefix (tenant : Name) (tag : UInt8) (graph : Name) : Bytes :=
  externalKey tenant tag (lengthPrefixed 4 graph.1)

/-- The range scans of the layers. -/
inductive Scan (G : Engine)
  | schemas
  | metadata
  | tableData (id : UInt64)
  | index (id : UInt64) (index : Name)
  | indexValue (id : UInt64) (index : Name) (value : G.Key)
  | changeLog
  | changesAfter (after : Int64)
  | expired (now : UInt64)
  | chainEntries (chain : Name)
  | chainRange (chain : Name) (lo hi : Int64)
  | chainFrom (chain : Name) (after : Int64)
  | outNeighbors (graph src : Name) (floor : Int64)
  | inNeighbors (graph dst : Name) (floor : Int64)
  | graphEdges (graph : Name)
  | graphOuts (graph : Name)
  | graphIns (graph : Name)

/-- One more, unless that overflows. -/
def saturatingSuccI64 (n : Int64) : Int64 := if n = Int64.maxValue then n else n + 1

def prefixRange (p : Bytes) : Bytes × Option Bytes := (p, prefixUpperBound p)

namespace Scan

variable {G : Engine}

/-- Where the scan starts, and where it stops. -/
def range (tenant : Name) : Scan G → Except String (Bytes × Option Bytes)
  | .schemas => .ok (prefixRange (schemaPrefix tenant))
  | .metadata => .ok (prefixRange (metaPrefix tenant))
  | .tableData id => .ok (prefixRange (dataPrefix tenant id))
  | .index id n => .ok (prefixRange (indexPrefix tenant id n))
  | .indexValue id n value => (indexValuePrefix tenant id n value).map prefixRange
  | .changeLog => .ok (prefixRange (externalPrefix tenant tagCdc))
  | .changesAfter after =>
    .ok (cdcKey tenant (saturatingSuccI64 after), prefixUpperBound (externalPrefix tenant tagCdc))
  | .expired now => .ok (expiryPrefix tenant, some (expiryScanEnd tenant now))
  | .chainEntries chain => .ok (prefixRange (entryPrefix tenant chain))
  | .chainRange chain lo hi => .ok (entryKey tenant chain lo,
      if hi = Int64.maxValue then prefixUpperBound (entryPrefix tenant chain)
      else some (entryKey tenant chain (hi + 1)))
  | .chainFrom chain after => .ok (entryKey tenant chain (saturatingSuccI64 after),
      prefixUpperBound (entryPrefix tenant chain))
  | .outNeighbors graph src floor => .ok
      (graphOutPrefix tenant graph src ++ Evidence.weightObe floor,
        prefixUpperBound (graphOutPrefix tenant graph src))
  | .inNeighbors graph dst floor => .ok
      (graphInPrefix tenant graph dst ++ Evidence.weightObe floor,
        prefixUpperBound (graphInPrefix tenant graph dst))
  | .graphEdges graph => .ok (prefixRange (graphPrefix tenant tagGraphEdge graph))
  | .graphOuts graph => .ok (prefixRange (graphPrefix tenant tagGraphOut graph))
  | .graphIns graph => .ok (prefixRange (graphPrefix tenant tagGraphIn graph))

def Reads : Scan G → Record G → Prop
  | .schemas, .sql (.schema _) => True
  | .metadata, .sql (.metadata _) => True
  | .tableData id, .sql (.row id' _) => id' = id
  | .index id n, .sql (.indexEntry id' n' _ _) => id' = id ∧ n' = n
  | .indexValue id n value, .sql (.indexEntry id' n' value' _) =>
    id' = id ∧ n' = n ∧ G.toCmpBeBytes value' = G.toCmpBeBytes value
  | .changeLog, .sql (.cdc _) => True
  | .changesAfter _, .sql (.cdc _) => True
  | .expired _, .ledger (.expiry _ _) => True
  | .chainEntries chain, .evidence ⟨.entry chain' _, _⟩ => chain' = chain
  | .chainRange chain _ _, .evidence ⟨.entry chain' _, _⟩ => chain' = chain
  | .chainFrom chain _, .evidence ⟨.entry chain' _, _⟩ => chain' = chain
  | .outNeighbors graph src _, .evidence ⟨.graphOut graph' src' _ _ _, _⟩ =>
    graph' = graph ∧ src' = src
  | .inNeighbors graph dst _, .evidence ⟨.graphIn graph' dst' _ _ _, _⟩ =>
    graph' = graph ∧ dst' = dst
  | .graphEdges graph, .evidence ⟨.graphEdge graph' _ _ _, _⟩ => graph' = graph
  | .graphOuts graph, .evidence ⟨.graphOut graph' _ _ _ _, _⟩ => graph' = graph
  | .graphIns graph, .evidence ⟨.graphIn graph' _ _ _ _, _⟩ => graph' = graph
  | _, _ => False

def tag : Scan G → UInt8
  | .schemas => Sql.tagSchema
  | .metadata => Sql.tagMeta
  | .tableData _ => Sql.tagData
  | .index _ _ | .indexValue _ _ _ => Sql.tagIndex
  | .changeLog | .changesAfter _ => tagCdc
  | .expired _ => tagExpiry
  | .chainEntries _ | .chainRange _ _ _ | .chainFrom _ _ => tagEvidenceEntry
  | .outNeighbors _ _ _ | .graphOuts _ => tagGraphOut
  | .inNeighbors _ _ _ | .graphIns _ => tagGraphIn
  | .graphEdges _ => tagGraphEdge

/-- What the suffixes of the records start with. -/
def stem : Scan G → Except String Bytes
  | .schemas | .metadata | .changeLog | .changesAfter _ | .expired _ => .ok []
  | .tableData id => .ok (beBytes 8 id.toNat)
  | .index id n => .ok (beBytes 8 id.toNat ++ lengthPrefixed 4 n.1)
  | .indexValue id n value => (G.toCmpBeBytes value).map fun v =>
      beBytes 8 id.toNat ++ (lengthPrefixed 4 n.1 ++ orderPreserving v)
  | .chainEntries chain | .chainRange chain _ _ | .chainFrom chain _ =>
    .ok (lengthPrefixed 4 chain.1)
  | .outNeighbors graph node _ | .inNeighbors graph node _ =>
    .ok (lengthPrefixed 4 graph.1 ++ lengthPrefixed 4 node.1)
  | .graphEdges graph | .graphOuts graph | .graphIns graph => .ok (lengthPrefixed 4 graph.1)

end Scan

section Scans

variable {G : Engine}

/-- A range between two strings that start with `p` has nothing else in it. -/
theorem isPrefix_of_inRange {p start k : Bytes} {stop : Option Bytes} (hstart : p <+: start)
    (hstop : stop = prefixUpperBound p ∨ ∃ e, stop = some e ∧ p <+: e) (hk : InRange start stop k) :
    p <+: k := by
  obtain ⟨hge, hlt⟩ := hk
  rw [← inRange_prefixUpperBound_iff]
  refine ⟨(inRange_prefixUpperBound_iff.mpr hstart).1.trans hge, ?_⟩
  rcases hstop with rfl | ⟨e, rfl, he⟩
  · exact hlt
  · intro bound hbound
    exact (hlt e rfl).trans ((inRange_prefixUpperBound_iff.mpr he).2 bound hbound)

theorem isPrefix_of_prefixRange {p start k : Bytes} {stop : Option Bytes}
    (h : prefixRange p = (start, stop)) (hk : InRange start stop k) : p <+: k := by
  obtain ⟨rfl, rfl⟩ := Prod.mk.inj h
  exact isPrefix_of_inRange (List.prefix_refl _) (Or.inl rfl) hk

theorem Scan.isPrefix {scan : Scan G} {tenant : Name} {start k : Bytes} {stop : Option Bytes}
    (h : scan.range tenant = .ok (start, stop)) (hk : InRange start stop k) :
    ∃ stem, scan.stem = .ok stem ∧ (tagged tenant scan.tag ++ stem) <+: k := by
  cases scan with
  | schemas | metadata | changeLog =>
    refine ⟨[], rfl, ?_⟩
    rw [List.append_nil]
    exact isPrefix_of_prefixRange (Except.ok.inj h) hk
  | tableData | chainEntries | graphEdges | graphOuts | graphIns | index id n =>
    exact ⟨_, rfl, isPrefix_of_prefixRange (Except.ok.inj h) hk⟩
  | indexValue id n value =>
    simp only [range, indexValuePrefix, stem] at h ⊢
    cases hv : G.toCmpBeBytes value with
    | error e =>
      rw [hv] at h
      exact absurd h (by simp [bind, Except.bind, Except.map])
    | ok v =>
      rw [hv] at h
      refine ⟨_, rfl, ?_⟩
      have hpre := isPrefix_of_prefixRange (Except.ok.inj h) hk
      unfold indexPrefix at hpre
      simp only [List.append_assoc] at hpre ⊢
      exact hpre
  | changesAfter after =>
    obtain ⟨rfl, rfl⟩ := Prod.mk.inj (Except.ok.inj h)
    refine ⟨[], rfl, ?_⟩
    rw [List.append_nil]
    exact isPrefix_of_inRange (List.prefix_append ..) (Or.inl rfl) hk
  | expired now =>
    obtain ⟨rfl, rfl⟩ := Prod.mk.inj (Except.ok.inj h)
    refine ⟨[], rfl, ?_⟩
    rw [List.append_nil]
    exact isPrefix_of_inRange (List.prefix_refl _) (Or.inr ⟨_, rfl, List.prefix_append ..⟩) hk
  | chainRange chain lo hi =>
    obtain ⟨rfl, rfl⟩ := Prod.mk.inj (Except.ok.inj h)
    refine ⟨_, rfl, ?_⟩
    have hentry : ∀ seq, (tagged tenant tagEvidenceEntry ++ lengthPrefixed 4 chain.1) <+:
        entryKey tenant chain seq := by
      intro seq
      unfold entryKey externalKey
      rw [← List.append_assoc]
      exact List.prefix_append ..
    apply isPrefix_of_inRange (hentry lo) _ hk
    split_ifs with hmax
    · exact Or.inl rfl
    · exact Or.inr ⟨_, rfl, hentry _⟩
  | chainFrom chain after =>
    obtain ⟨rfl, rfl⟩ := Prod.mk.inj (Except.ok.inj h)
    refine ⟨_, rfl, isPrefix_of_inRange ?_ (Or.inl rfl) hk⟩
    unfold entryKey externalKey
    rw [← List.append_assoc]
    exact List.prefix_append ..
  | outNeighbors | inNeighbors =>
    obtain ⟨rfl, rfl⟩ := Prod.mk.inj (Except.ok.inj h)
    exact ⟨_, rfl, isPrefix_of_inRange (List.prefix_append ..) (Or.inl rfl) hk⟩

theorem Scan.reads {scan : Scan G} {r : Record G} {stem suffix : Bytes} (htag : scan.tag = r.tag)
    (hstem : scan.stem = .ok stem) (hsuffix : r.suffix = .ok suffix) (hpre : stem <+: suffix) :
    scan.Reads r := by
  obtain ⟨more, hmore⟩ := hpre
  have lp := selfDelimiting_lengthPrefixed 4
  cases r with
  | sql r =>
    cases r <;> cases scan <;> first
      | exact absurd htag (ne_of_beq_false rfl)
      | trivial
      | skip
    case row.tableData id' pk id =>
      obtain ⟨p, -, rfl⟩ := row_suffix hsuffix
      obtain rfl := Except.ok.inj hstem
      exact (Sql.selfDelimiting_tableId _ _ _ _ hmore).1.symm
    case indexEntry.index id' n' value pk id n =>
      obtain ⟨v, p, -, -, rfl⟩ := indexEntry_suffix hsuffix
      obtain rfl := Except.ok.inj hstem
      rw [List.append_assoc] at hmore
      obtain ⟨hid, hrest⟩ := Sql.selfDelimiting_tableId _ _ _ _ hmore
      exact ⟨hid.symm, (lp _ _ _ _ hrest).1.symm⟩
    case indexEntry.indexValue id' n' value' pk id n value =>
      obtain ⟨v', p, hv', -, rfl⟩ := indexEntry_suffix hsuffix
      simp only [Scan.stem] at hstem
      cases hv : G.toCmpBeBytes value with
      | error e =>
        rw [hv] at hstem
        exact absurd hstem (by simp [Except.map])
      | ok v =>
        rw [hv] at hstem
        obtain rfl := Except.ok.inj hstem
        simp only [List.append_assoc] at hmore
        obtain ⟨hid, hrest⟩ := Sql.selfDelimiting_tableId _ _ _ _ hmore
        obtain ⟨hn, hrest⟩ := lp _ _ _ _ hrest
        obtain ⟨rfl, -⟩ := selfDelimiting_orderPreserving _ _ _ _ hrest
        exact ⟨hid.symm, hn.symm, hv'.trans hv.symm⟩
  | ledger r =>
    cases r <;> cases scan <;> first
      | exact absurd htag (ne_of_beq_false rfl)
      | trivial
  | evidence r =>
    obtain ⟨r, hr⟩ := r
    obtain rfl := Except.ok.inj hsuffix
    cases r <;> cases scan <;> first
      | exact absurd htag (ne_of_beq_false rfl)
      | obtain rfl := Except.ok.inj hstem
    case entry.chainEntries => exact (lp _ _ _ _ hmore).1.symm
    case entry.chainRange => exact (lp _ _ _ _ hmore).1.symm
    case entry.chainFrom => exact (lp _ _ _ _ hmore).1.symm
    case graphEdge.graphEdges => exact (lp _ _ _ _ hmore).1.symm
    case graphOut.graphOuts => exact (lp _ _ _ _ hmore).1.symm
    case graphIn.graphIns => exact (lp _ _ _ _ hmore).1.symm
    case graphOut.outNeighbors =>
      rw [List.append_assoc] at hmore
      obtain ⟨hgraph, hrest⟩ := lp _ _ _ _ hmore
      exact ⟨hgraph.symm, (lp _ _ _ _ hrest).1.symm⟩
    case graphIn.inNeighbors =>
      rw [List.append_assoc] at hmore
      obtain ⟨hgraph, hrest⟩ := lp _ _ _ _ hmore
      exact ⟨hgraph.symm, (lp _ _ _ _ hrest).1.symm⟩

theorem Scan.reads_of_inRange {scan : Scan G} {tenant tenant' : Name} {r : Record G}
    {start k : Bytes} {stop : Option Bytes} (h : scan.range tenant = .ok (start, stop))
    (hkey : r.key tenant' = .ok k) (hk : InRange start stop k) :
    tenant' = tenant ∧ scan.Reads r := by
  obtain ⟨stem, hstem, more, hmore⟩ := Scan.isPrefix h hk
  obtain ⟨suffix, hsuffix, rfl⟩ := Record.exists_suffix hkey
  rw [List.append_assoc] at hmore
  obtain ⟨rfl, htag, rfl⟩ := tagged_append_inj hmore
  exact ⟨rfl, Scan.reads htag hstem hsuffix (List.prefix_append ..)⟩

end Scans

/-- Two records never share a key, whatever their tenants and layers, and a scan
meets the records it is for and no others. Keys of the engine count up to their
comparable bytes, which tell apart the keys of one type. -/
theorem keyspace_disjoint {G : Engine} (O : Sql.KeyOrder G) :
    (∀ tenant tenant' (r r' : Record G) k, r.key tenant = .ok k → r'.key tenant' = .ok k →
      tenant = tenant' ∧ r.Alike r' ∧ (r.SameTypes O r' → r = r')) ∧
    (∀ tenant (scan : Scan G) start stop, scan.range tenant = .ok (start, stop) →
      ∀ tenant' (r : Record G) k, r.key tenant' = .ok k → InRange start stop k →
        tenant' = tenant ∧ scan.Reads r) ∧
    ∀ a b bytes, SameType O a b → G.toCmpBeBytes a = .ok bytes → G.toCmpBeBytes b = .ok bytes →
      a = b := by
  refine ⟨?_, ?_, ?_⟩
  · intro tenant tenant' r r' k h h'
    obtain ⟨htenant, halike⟩ := Record.alike_of_key h h'
    exact ⟨htenant, halike, fun htypes => halike.eq htypes h⟩
  · intro tenant scan start stop hrange tenant' r k hkey hk
    exact Scan.reads_of_inRange hrange hkey hk
  · intro a b bytes htypes ha hb
    exact eq_of_toCmpBeBytes htypes ha hb

theorem keyspace_disjoint_seven :
    (Record.sql (.row 1 (.i64 7)) : Record Sql.Ints.engine).Alike (.sql (.row 1 (.i64 7))) :=
  ((keyspace_disjoint Sql.Ints.keyOrder).1 Sql.Ints.t Sql.Ints.t _ _ _ rfl rfl).2.1

/-- A row of the tenant `t` and an account of the tenant `u`. -/
example : (Record.sql (.row 1 (.i64 7)) : Record Sql.Ints.engine).key Sql.Ints.t =
      .ok [0, 0, 0, 1, 0x74, 0x02, 0, 0, 0, 0, 0, 0, 0, 1, 0, 1, 0, 0, 0, 0, 0, 0, 0, 7] ∧
    (Record.ledger .watermark : Record Sql.Ints.engine).key Sql.Ints.u =
      .ok [0, 0, 0, 1, 0x75, 0x15, 0x74, 0x73] := by decide

end BlueDB.Keyspace
