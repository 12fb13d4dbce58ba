import BlueDB.Lib.ByteOrder
import BlueDB.Lib.Chunks
import BlueDB.Lib.LinkedBatch
import BlueDB.Lib.OrderedMap
import BlueDB.Lib.Separated

/-!
# The chunked blob layer

A value is stored as chunks of one size under keys of their own, and a manifest under
the path itself that holds its length. A put first deletes what is stored under the
path, one key at a time, then writes the chunks, and the manifest last. A call that
stops early has made some of its writes, in this order.
-/

namespace BlueDB.Storage

abbrev Bytes := List UInt8

/-- The blobs of the backend below, under the bytes of their paths. -/
abbrev Blobs := OrderedMap Bytes Bytes

inductive BlobError where
  | missing (key : Bytes)
  | nulInPath
  | corruptManifest
  | outOfBounds
  | panicked
deriving DecidableEq, Repr

def getAll (s : Blobs) (path : Bytes) : Except BlobError Bytes :=
  match s.get path with
  | some bytes => .ok bytes
  | none => .error (.missing path)

/-- The keys that start with a prefix, in ascending order. -/
def scanPrefix (s : Blobs) (start : Bytes) : List Bytes :=
  (s.entries.filter fun p => start.isPrefixOf p.1).map Prod.fst

/-- A write of the backend: a put, or a delete when there is no value. -/
abbrev BlobWrite := Bytes × Option Bytes

def chunkSep : Bytes := [0, 99, 0]

/-- A number in decimal digits, padded with zeros to twenty of them. -/
def paddedIndex (index : ℕ) : Bytes :=
  ((Nat.digits 10 index).reverse.leftpad 20 0).map fun d => UInt8.ofNat (48 + d)

def chunkPrefix (path : Bytes) : Bytes := path ++ chunkSep

def chunkKey (path : Bytes) (index : ℕ) : Bytes := path ++ chunkSep ++ paddedIndex index

/-- The manifest of a value: its length in eight bytes, the lowest first. -/
def manifestOf (length : ℕ) : Bytes := (beBytes 8 length).reverse

def fromLeBytes (bytes : Bytes) : ℕ := bytes.foldr (fun b n => b.toNat + 256 * n) 0

/-- The settings of the layer; the constructor refuses chunks of no bytes. -/
structure ChunkedBlobStore where
  chunkSize : ℕ
  positive : 0 < chunkSize

/-- A value fits the length field of its manifest. -/
abbrev Value := Sized UInt8 (256 ^ 8)

/-- The writes of `delete_chunked`, after its scan. -/
def deleteChunked (s : Blobs) (path : Bytes) : List BlobWrite :=
  (scanPrefix s (chunkPrefix path)).map (·, none) ++ [(path, none)]

namespace ChunkedBlobStore

variable (c : ChunkedBlobStore)

/-- The writes of `put_chunked` for the chunks and the manifest. -/
def valueWrites (path : Bytes) (bytes : Value) : List BlobWrite :=
  (chunks c.chunkSize bytes.1).zipIdx.map (fun p => (chunkKey path p.2, some p.1)) ++
    [(path, some (manifestOf bytes.1.length))]

/-- The writes of `put_chunked`; a path with a zero byte is refused. -/
def putChunked (s : Blobs) (path : Bytes) (bytes : Value) : Except BlobError (List BlobWrite) :=
  if path.contains 0 then .error .nulInPath
  else .ok (deleteChunked s path ++ c.valueWrites path bytes)

def readManifest (s : Blobs) (path : Bytes) : Except BlobError ℕ := do
  let raw ← getAll s path
  if raw.length = 8 then .ok (fromLeBytes raw) else .error .corruptManifest

/-- What a range takes of the chunk at an index; a slice whose ends cross panics. -/
def readChunk (s : Blobs) (path : Bytes) (start stop index : ℕ) : Except BlobError Bytes := do
  let bytes ← getAll s (chunkKey path index)
  let chunkStart := index * c.chunkSize
  let lo := start - chunkStart
  let hi := min (stop - chunkStart) bytes.length
  if lo ≤ hi then .ok (slice bytes lo hi) else .error .panicked

def getRangeChunked (s : Blobs) (path : Bytes) (start stop : ℕ) : Except BlobError Bytes := do
  let total ← readManifest s path
  if start > stop ∨ stop > total then .error .outOfBounds
  else if stop ≤ start then .ok []
  else
    let first := start / c.chunkSize
    let last := (stop - 1) / c.chunkSize
    let parts ← (List.range' first (last - first + 1)).mapM (c.readChunk s path start stop)
    .ok parts.flatten

def getAllChunked (s : Blobs) (path : Bytes) : Except BlobError Bytes := do
  let total ← readManifest s path
  c.getRangeChunked s path 0 total

end ChunkedBlobStore

/-- A path without zero bytes. -/
abbrev LogicalPath := { path : Bytes // 0 ∉ path }

inductive Call where
  | put (bytes : Value)
  | delete

/-- The value a call leaves under its path. -/
def Call.value : Call → Option Value
  | .put bytes => some bytes
  | .delete => none

/-- One call on a path. When it stops early, `stop` is the number of writes it has made. -/
structure Event where
  path : LogicalPath
  call : Call
  stop : Option ℕ

namespace ChunkedBlobStore

variable (c : ChunkedBlobStore)

def writes (s : Blobs) (path : Bytes) : Call → List BlobWrite
  | .put bytes => ((c.putChunked s path bytes).toOption).getD []
  | .delete => deleteChunked s path

/-- The store after a call. -/
def play (s : Blobs) (e : Event) : Blobs :=
  match e.stop with
  | none => s.writeAll (c.writes s e.path e.call)
  | some made => s.writeAll ((c.writes s e.path e.call).take made)

end ChunkedBlobStore

/-- The values that the paths hold. -/
abbrev Held := LogicalPath → Option Value

/-- A read of the whole of what is held, or of a range of it. -/
def expectedAll (path : Bytes) (held : Option Value) : Except BlobError Bytes :=
  match held with
  | none => .error (.missing path)
  | some v => .ok v.1

def expectedRange (path : Bytes) (held : Option Value) (start stop : ℕ) : Except BlobError Bytes :=
  match held with
  | none => .error (.missing path)
  | some v =>
    if start ≤ stop ∧ stop ≤ v.1.length then .ok (slice v.1 start stop) else .error .outOfBounds

structure Reads (c : ChunkedBlobStore) (s : Blobs) (held : Held) : Prop where
  range : ∀ (path : LogicalPath) start stop,
    c.getRangeChunked s path start stop = expectedRange path (held path) start stop
  all : ∀ path : LogicalPath, c.getAllChunked s path = expectedAll path (held path)

/-- What a call may do to what the paths hold: nothing to any other path; on its own
path it leaves its value, and one that stops early may leave the old value or none. -/
structure Allowed (held : Held) (e : Event) (held' : Held) : Prop where
  others : ∀ path, path ≠ e.path → held' path = held path
  completed : e.stop = none → held' e.path = e.call.value
  stopped : held' e.path = held e.path ∨ held' e.path = none ∨ held' e.path = e.call.value

/-- Along a run every path reads, after every call, as a value that the calls allow. -/
def Answers (c : ChunkedBlobStore) (s : Blobs) (held : Held) : List Event → Prop
  | [] => Reads c s held
  | e :: rest => Reads c s held ∧
      ∃ held', Allowed held e held' ∧ Answers c (c.play s e) held' rest

end BlueDB.Storage
