import BlueDB.Evidence.Graph
import BlueDB.Lib.ByteTuples
import BlueDB.Lib.LevelSearch
import BlueDB.Lib.Unframing
import BlueDB.Lib.WidestPath

/-!
# Traversal

The edges of a node are a range of adjacency keys, which have the weight in front of the
neighbor. All scans of a traversal read one view of the store.
-/

namespace BlueDB.Evidence

instance linearOrderInt64 : LinearOrder Int64 where
  le_refl _ := Int64.le_refl _
  le_trans _ _ _ := Int64.le_trans
  le_antisymm _ _ := Int64.le_antisymm
  le_total := Int64.le_total
  lt_iff_le_not_ge _ _ := Std.LawfulOrderLT.lt_iff ..
  toDecidableLE := inferInstance

instance boundedOrderInt64 : BoundedOrder Int64 where
  top := Int64.maxValue
  le_top := Int64.le_maxValue
  bot := Int64.minValue
  bot_le := Int64.minValue_le

/-- Bytes that a string can have. -/
def Utf8 (bytes : List UInt8) : Prop := (ByteArray.mk bytes.toArray).IsValidUTF8

instance (bytes : List UInt8) : Decidable (Utf8 bytes) :=
  inferInstanceAs (Decidable (ByteArray.mk bytes.toArray).IsValidUTF8)

def malformedSegment : EvidenceError := .storage "malformed adjacency key segment"

/-- A length-prefixed string at a place of the buffer, and the place behind it. The length
is a `u32`, so that the string is short enough for a name. -/
def readLp (buf : List UInt8) (pos : ℕ) : Except EvidenceError (Name × ℕ) :=
  match bytesAt buf pos 4 with
  | none => .error malformedSegment
  | some len => match bytesAt buf (pos + 4) (beValue len) with
    | none => .error malformedSegment
    | some bytes =>
      if h : bytes.length < 256 ^ 4 ∧ Utf8 bytes then
        .ok (⟨bytes, h.1⟩, pos + 4 + beValue len)
      else .error malformedSegment

def weightFromObe (bytes : List UInt8) : Int64 :=
  (UInt64.ofNat (beValue bytes) ^^^ Int64.minValue.toUInt64).toInt64

/-- The neighbor, the weight and the type behind the prefix of an adjacency key. -/
def parseTail (tail : List UInt8) : Except EvidenceError (Name × Int64 × Name) :=
  match bytesAt tail 0 8 with
  | none => .error (.storage "adjacency key too short for weight")
  | some bytes => do
    let (neighbor, pos) ← readLp tail 8
    let (etype, _) ← readLp tail pos
    return (neighbor, weightFromObe bytes, etype)

/-- The live keys of a range, in the order of their bytes. -/
def scanRange (s : Store) (start : List UInt8) (stop : Option (List UInt8)) : List Key :=
  (s.scan fun k => !decide (k.encode < start) && stop.all fun e =>
      decide (k.encode < e)).insertionSort
    fun a b => ¬b.encode < a.encode

/-- The edges under a prefix whose weight is the floor or more. -/
def scanAdjacency (s : Store) (pfx : List UInt8) (floor : Int64) :
    Except EvidenceError (List (Name × Int64 × Name)) :=
  (scanRange s (pfx ++ weightObe floor) (prefixUpperBound pfx)).mapM fun k =>
    parseTail (k.encode.drop pfx.length)

def graphOutPrefix (t graph src : Name) : List UInt8 :=
  externalKey t (UInt8.ofNat (tagExternalBase + 13)) (pushLp graph ++ pushLp src)

def graphInPrefix (t graph dst : Name) : List UInt8 :=
  externalKey t (UInt8.ofNat (tagExternalBase + 14)) (pushLp graph ++ pushLp dst)

def outNeighbors (s : Store) (t graph src : Name) (floor : Int64) :
    Except EvidenceError (List (Name × Int64 × Name)) :=
  scanAdjacency s (graphOutPrefix t graph src) floor

def inNeighbors (s : Store) (t graph dst : Name) (floor : Int64) :
    Except EvidenceError (List (Name × Int64 × Name)) :=
  scanAdjacency s (graphInPrefix t graph dst) floor

/-- The edges that lead on from a node, those into it too when they have no direction. -/
def neighbors (s : Store) (t graph : Name) (directed : Bool) (floor : Int64) (node : Name) :
    Except EvidenceError (List (Name × Int64 × Name)) := do
  let out ← outNeighbors s t graph node floor
  if directed then return out
  let ins ← inNeighbors s t graph node floor
  return out ++ ins

def reachableFanout : ℕ := 16

/-- The scans in flight are joined in the order they complete, which `choose` says; each
time the next node takes the place that is free. -/
def joinScans (scan : Name → Except EvidenceError (List Name)) (choose : ℕ → ℕ) :
    ℕ → List Name → List Name → Except EvidenceError (List Name)
  | 0, _, _ => .ok []
  | count + 1, inFlight, waiting =>
    match inFlight[choose count % inFlight.length]? with
    | none => .ok []
    | some node => do
      let found ← scan node
      let more ← joinScans scan choose count
        (inFlight.eraseIdx (choose count % inFlight.length) ++ waiting.take 1) (waiting.drop 1)
      return found ++ more

def expandLevel (s : Store) (t graph : Name) (nodes : List Name) (floor : Int64) (directed : Bool)
    (choose : ℕ → ℕ) : Except EvidenceError (List Name) :=
  joinScans (fun node => (neighbors s t graph directed floor node).map (List.map Prod.fst)) choose
    nodes.length (nodes.take reachableFanout) (nodes.drop reachableFanout)

/-- The nodes that are reachable over edges of the floor or more, sorted. The scans of each
level complete in any order. -/
def reachable (s : Store) (t graph : Name) (seeds : List Name) (floor : Int64) (directed : Bool)
    (choose : ℕ → ℕ → ℕ) (fuel : ℕ) : Option (Except EvidenceError (List Name)) :=
  (LevelSearch.search
    (fun level nodes => expandLevel s t graph nodes floor directed (choose level)) fuel 0
    (LevelSearch.absorb (∅, []) seeds)).map (Except.map fun visited => visited.sort (· ≤ ·))

structure WidestPath where
  connected : Bool
  bottleneck : Option Int64
  deriving DecidableEq

/-- The edges that a settled node relaxes. -/
def widestEdges (s : Store) (t graph : Name) (directed : Bool) (node : Name) :
    Except EvidenceError (List (Name × Int64)) :=
  (neighbors s t graph directed Int64.minValue node).map (List.map fun edge => (edge.1, edge.2.1))

def widestPath (s : Store) (t graph source target : Name) (directed : Bool) (fuel : ℕ) :
    Option (Except EvidenceError WidestPath) :=
  if source = target then some (.ok ⟨true, none⟩)
  else (Maximin.search (widestEdges s t graph directed) target fuel (Maximin.start source)).map
    (Except.map fun bottleneck => ⟨bottleneck.isSome, bottleneck⟩)

end BlueDB.Evidence
