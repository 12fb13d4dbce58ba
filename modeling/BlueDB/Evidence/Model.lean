import BlueDB.Lib.Framing
import BlueDB.Lib.Kv

/-!
# Records of the evidence store

Chains of entries, their Merkle frontier and nodes, idempotency records and the
weighted graph that entries project into, all in one tenant-prefixed key space.
Text is its UTF-8 bytes. Sequence numbers and sizes that the server assigns are
natural numbers; those a caller passes in are integers.
-/

namespace BlueDB.Evidence

/-- Text that is a component of a key, where its length is a `u32`. -/
abbrev Name := Sized UInt8 (256 ^ 4)

/-- Bytes of a record field; a length is a `usize`. -/
abbrev Blob := Sized UInt8 (256 ^ 8)

/-- A SHA-256 value. -/
abbrev Digest := Vector UInt8 32

inductive Merge where
  | set
  | max
  deriving DecidableEq

inductive EdgeOp where
  | upsert (merge : Merge)
  | delete
  deriving DecidableEq

structure EdgeDelta where
  graph : Name
  src : Name
  dst : Name
  weight : Int64
  etype : Name
  op : EdgeOp
  deriving DecidableEq

/-- One event to append, as the caller describes it. -/
structure EntryInput where
  etype : Blob
  payload : Blob
  atTime : Blob
  edges : Sized EdgeDelta (256 ^ 8)
  deriving DecidableEq

structure EntryRecord where
  etype : Blob
  payload : Blob
  atTime : Blob
  edges : Sized EdgeDelta (256 ^ 8)
  leafHash : Option Digest
  redacted : Bool
  deriving DecidableEq

structure IdemRecord where
  baseSeq : ℕ
  seqs : List ℕ
  fingerprint : Digest
  deriving DecidableEq

structure ChainMeta where
  verified : Bool
  deriving DecidableEq

/-- The roots of the full subtrees that cover `size` leaves. The peaks are a
stack: the source's vector read from its end. -/
structure Frontier where
  size : ℕ
  peaks : List Digest
  deriving DecidableEq

def Frontier.default : Frontier := ⟨0, []⟩

inductive EvidenceError where
  | idemConflict
  | chainModeConflict (chain : Name)
  | entryNotFound (chain : Name) (seq : ℤ)
  | notWriter
  | notVerified (chain : Name)
  | invalidArgument (message : String)
  | verifiedNoDelete (chain : Name)
  | storage (message : String)
  deriving DecidableEq

/-- A record's key within its tenant. -/
inductive RecordKey where
  | entry (chain : Name) (seq : ℤ)
  | seqCounter (chain : Name)
  | idem (chain : Name) (token : List UInt8)
  | merkle (chain : Name)
  | chainMeta (chain : Name)
  | graphEdge (graph src dst etype : Name)
  | graphOut (graph src : Name) (weight : Int64) (dst etype : Name)
  | graphIn (graph dst : Name) (weight : Int64) (src etype : Name)
  | merkleNode (chain : Name) (level index : ℕ)
  deriving DecidableEq

structure Key where
  tenant : Name
  record : RecordKey
  deriving DecidableEq

/-- What a record holds, once decoded. Adjacency keys carry a marker only. -/
abbrev RecordKey.Value : RecordKey → Type
  | .entry _ _ => EntryRecord
  | .seqCounter _ => ℕ
  | .idem _ _ => IdemRecord
  | .merkle _ => Frontier
  | .chainMeta _ => ChainMeta
  | .graphEdge _ _ _ _ => Int64
  | .graphOut _ _ _ _ _ => Unit
  | .graphIn _ _ _ _ _ => Unit
  | .merkleNode _ _ _ => Digest

abbrev Value (k : Key) : Type := k.record.Value

abbrev Store := Kv Value

abbrev Batch := List (Write Value)

def tagExternalBase : ℕ := 0x10

def RecordKey.tag : RecordKey → UInt8
  | .entry _ _ => UInt8.ofNat (tagExternalBase + 7)
  | .seqCounter _ => UInt8.ofNat (tagExternalBase + 8)
  | .idem _ _ => UInt8.ofNat (tagExternalBase + 9)
  | .merkle _ => UInt8.ofNat (tagExternalBase + 10)
  | .chainMeta _ => UInt8.ofNat (tagExternalBase + 11)
  | .graphEdge _ _ _ _ => UInt8.ofNat (tagExternalBase + 12)
  | .graphOut _ _ _ _ _ => UInt8.ofNat (tagExternalBase + 13)
  | .graphIn _ _ _ _ _ => UInt8.ofNat (tagExternalBase + 14)
  | .merkleNode _ _ _ => UInt8.ofNat (tagExternalBase + 15)

/-- A length-prefixed component. -/
def pushLp (name : Name) : List UInt8 := lengthPrefixed 4 name.1

/-- Big-endian two's complement. -/
def i64be (n : ℤ) : List UInt8 := beBytes 8 (n % 2 ^ 64).toNat

/-- Order-preserving bytes of a signed weight: the sign bit flipped. -/
def weightObe (w : Int64) : List UInt8 := beBytes 8 (w.toUInt64 ^^^ Int64.minValue.toUInt64).toNat

def RecordKey.suffix : RecordKey → List UInt8
  | .entry chain seq => pushLp chain ++ i64be seq
  | .seqCounter chain => pushLp chain
  | .idem chain token => pushLp chain ++ token
  | .merkle chain => pushLp chain
  | .chainMeta chain => pushLp chain
  | .graphEdge graph src dst etype => pushLp graph ++ (pushLp src ++ (pushLp dst ++ pushLp etype))
  | .graphOut graph src weight dst etype =>
      pushLp graph ++ (pushLp src ++ (weightObe weight ++ (pushLp dst ++ pushLp etype)))
  | .graphIn graph dst weight src etype =>
      pushLp graph ++ (pushLp dst ++ (weightObe weight ++ (pushLp src ++ pushLp etype)))
  | .merkleNode chain level index => pushLp chain ++ (UInt8.ofNat level :: beBytes 8 index)

/-- `<tenant> <tag> <suffix>`. -/
def externalKey (tenant : Name) (tag : UInt8) (suffix : List UInt8) : List UInt8 :=
  pushLp tenant ++ tag :: suffix

def Key.encode (k : Key) : List UInt8 := externalKey k.tenant k.record.tag k.record.suffix

/-- The numbers in a key lie in the fixed-width types the source gives them. -/
def RecordKey.Fits : RecordKey → Prop
  | .entry _ seq => -2 ^ 63 ≤ seq ∧ seq < 2 ^ 63
  | .merkleNode _ level index => level < 256 ∧ index < 2 ^ 64
  | _ => True

theorem selfDelimiting_pushLp : SelfDelimiting pushLp := selfDelimiting_lengthPrefixed 4

theorem i64be_inj {m n : ℤ} (hm : -2 ^ 63 ≤ m ∧ m < 2 ^ 63) (hn : -2 ^ 63 ≤ n ∧ n < 2 ^ 63)
    (h : i64be m = i64be n) : m = n := by
  have := beBytes_inj (by omega) (by omega) h
  omega

theorem selfDelimiting_weightObe : SelfDelimiting weightObe := by
  apply SelfDelimiting.of_length (w := 8)
  · intro w
    exact length_beBytes _ _
  · intro a b h
    have hnat := beBytes_inj (UInt64.toNat_lt _) (UInt64.toNat_lt _) h
    have hxor := UInt64.toNat_inj.mp hnat
    have hword : a.toUInt64 = b.toUInt64 := by
      have := congrArg (· ^^^ Int64.minValue.toUInt64) hxor
      simpa [UInt64.xor_assoc] using this
    rw [← Int64.toInt64_toUInt64 a, hword, Int64.toInt64_toUInt64]

theorem RecordKey.suffix_inj {k k' : RecordKey} (hk : k.Fits) (hk' : k'.Fits)
    (htag : k.tag = k'.tag) (h : k.suffix = k'.suffix) : k = k' := by
  have lp := selfDelimiting_pushLp
  have obe := selfDelimiting_weightObe
  cases k <;> cases k' <;>
    first | (simp only [RecordKey.tag] at htag; exact absurd htag (by decide)) | skip
  all_goals simp only [RecordKey.suffix] at h
  case entry.entry chain seq chain' seq' =>
    obtain ⟨rfl, hseq⟩ := lp _ _ _ _ h
    rw [i64be_inj hk hk' hseq]
  case seqCounter.seqCounter => rw [lp.injective h]
  case idem.idem =>
    obtain ⟨rfl, hidem⟩ := lp _ _ _ _ h
    rw [hidem]
  case merkle.merkle => rw [lp.injective h]
  case chainMeta.chainMeta => rw [lp.injective h]
  case graphEdge.graphEdge =>
    obtain ⟨rfl, hsrc⟩ := lp _ _ _ _ h
    obtain ⟨rfl, hdst⟩ := lp _ _ _ _ hsrc
    obtain ⟨rfl, hetype⟩ := lp _ _ _ _ hdst
    rw [lp.injective hetype]
  case graphOut.graphOut =>
    obtain ⟨rfl, hnode⟩ := lp _ _ _ _ h
    obtain ⟨rfl, hweight⟩ := lp _ _ _ _ hnode
    obtain ⟨rfl, hother⟩ := obe _ _ _ _ hweight
    obtain ⟨rfl, hetype⟩ := lp _ _ _ _ hother
    rw [lp.injective hetype]
  case graphIn.graphIn =>
    obtain ⟨rfl, hnode⟩ := lp _ _ _ _ h
    obtain ⟨rfl, hweight⟩ := lp _ _ _ _ hnode
    obtain ⟨rfl, hother⟩ := obe _ _ _ _ hweight
    obtain ⟨rfl, hetype⟩ := lp _ _ _ _ hother
    rw [lp.injective hetype]
  case merkleNode.merkleNode chain level index chain' level' index' =>
    obtain ⟨rfl, hnode⟩ := lp _ _ _ _ h
    obtain ⟨hlevel, hindex⟩ := List.cons.inj hnode
    have hl : level % 256 = level' % 256 := by simpa using congrArg UInt8.toNat hlevel
    rw [Nat.mod_eq_of_lt hk.1, Nat.mod_eq_of_lt hk'.1] at hl
    rw [hl, beBytes_inj hk.2 hk'.2 hindex]

/-- The graph of an edge record. -/
def RecordKey.graph? : RecordKey → Option Name
  | .graphEdge graph _ _ _ => some graph
  | .graphOut graph _ _ _ _ => some graph
  | .graphIn graph _ _ _ _ => some graph
  | _ => none

/-- Scan prefix of all the keys of `graph` under one of the three graph tags. -/
def graphPrefix (tenant : Name) (tag : UInt8) (graph : Name) : List UInt8 :=
  externalKey tenant tag (pushLp graph)

theorem graphPrefix_isPrefix {tenant graph g : Name} {k : Key} (hk : k.record.graph? = some g)
    (tag : UInt8) : graphPrefix tenant tag graph <+: k.encode ↔
      k.tenant = tenant ∧ k.record.tag = tag ∧ g = graph := by
  have lp := selfDelimiting_pushLp
  have hsuffix : ∃ rest, k.record.suffix = pushLp g ++ rest := by
    obtain ⟨t, record⟩ := k
    cases record <;> simp only [RecordKey.graph?, Option.some.injEq, reduceCtorEq] at hk <;>
      subst hk <;> simp only [RecordKey.suffix] <;> exact ⟨_, rfl⟩
  obtain ⟨rest, hrest⟩ := hsuffix
  constructor
  · rintro ⟨more, hmore⟩
    simp only [graphPrefix, Key.encode, externalKey, hrest, List.append_assoc] at hmore
    obtain ⟨htenant, htail⟩ := lp _ _ _ _ hmore
    obtain ⟨htag, htail⟩ := List.cons.inj htail
    obtain ⟨hgraph, _⟩ := lp _ _ _ _ htail
    exact ⟨htenant.symm, htag.symm, hgraph.symm⟩
  · rintro ⟨rfl, rfl, rfl⟩
    exact ⟨rest, by simp [graphPrefix, Key.encode, externalKey, hrest]⟩

end BlueDB.Evidence
