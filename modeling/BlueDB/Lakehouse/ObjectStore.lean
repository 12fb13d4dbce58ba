import BlueDB.Lakehouse.Tenants
import BlueDB.Lib.ReadCache
import BlueDB.Lib.StateError

/-!
# The object store and its read cache

The analytical read cache answers whole objects and byte ranges from what it has kept,
and passes writes on to the store below without looking at them. The lakehouse issues
all its reads and writes through it, among them those of the files that it writes
again and again: the version hint of a table and the index of the tenants.
-/

namespace BlueDB.Lakehouse

/-- A path of the store; the base that the tables are published under is left out. -/
abbrev Path := String

/-- What an object holds: the files that the lakehouse reads back are kept as what
they are parsed to. -/
inductive Content (M : Type)
  | versionHint (version : ℕ)
  | metadata (m : M)
  | tenants (names : List String)
  | bytes (data : List UInt8)
  deriving DecidableEq

abbrev Objects (M : Type) := Path → Option (Content M)

inductive StoreError
  | notFound (path : Path)
  | alreadyExists (path : Path)
  | invalidRange
  | precondition
  | badVersionHint
  | badJson
  deriving DecidableEq

inductive GetRange
  | bounded (start stop : ℕ)
  | offset (start : ℕ)
  | suffix (length : ℕ)
  deriving DecidableEq

structure GetOptions where
  ifMatch : Option String
  ifNoneMatch : Option String
  ifModifiedSince : Option ℤ
  ifUnmodifiedSince : Option ℤ
  range : Option GetRange
  version : Option String
  head : Bool
  deriving DecidableEq

/-- No condition is set. -/
def GetOptions.plain (o : GetOptions) : Bool :=
  o.ifMatch.isNone && o.ifNoneMatch.isNone && o.ifModifiedSince.isNone &&
    o.ifUnmodifiedSince.isNone && o.version.isNone

variable {M : Type}

def wholeObject (path : Path) (object : Option (Content M)) : Except StoreError (Content M) :=
  match object with
  | some content => .ok content
  | none => .error (.notFound path)

/-- What the store below makes of the options of a read. Without conditions they ask
for the whole object or for a range of it. -/
structure ObjectStore (M : Type) where
  slice : Content M → ℕ → ℕ → Except StoreError (Content M)
  getOpts : Path → Option (Content M) → GetOptions → Except StoreError (Content M)
  getOpts_whole : ∀ path object o, o.plain = true → o.head = false → o.range = none →
    getOpts path object o = wholeObject path object
  getOpts_bounded : ∀ path object o start stop, o.plain = true → o.head = false →
    o.range = some (.bounded start stop) →
      getOpts path object o = wholeObject path object >>= fun content => slice content start stop

inductive Request
  | whole (path : Path)
  | range (path : Path) (start stop : ℕ)
  deriving DecidableEq

def Request.key : Request → String
  | .whole path => "obj|" ++ path
  | .range path start stop => "rng|" ++ path ++ "|" ++ start.repr ++ "-" ++ stop.repr

theorem Request.key_injective : Function.Injective Request.key := by
  intro r r' h
  have hlists := congrArg String.toList h
  cases r with
  | whole path =>
    cases r' with
    | whole path' =>
      simp only [Request.key, String.toList_append, List.append_cancel_left_eq] at hlists
      rw [String.toList_inj.mp hlists]
    | range path' start' stop' => simp [Request.key, String.toList_append] at hlists
  | range path start stop =>
    cases r' with
    | whole path' => simp [Request.key, String.toList_append] at hlists
    | range path' start' stop' =>
      -- the range is read from the right: neither `-` nor `|` is a digit
      have hkey : (path.toList ++ '|' :: start.repr.toList) ++ '-' :: stop.repr.toList =
          (path'.toList ++ '|' :: start'.repr.toList) ++ '-' :: stop'.repr.toList := by
        simpa [Request.key, String.toList_append] using hlists
      have hdash : ('-' : Char).isDigit = false := by decide
      have hbar : ('|' : Char).isDigit = false := by decide
      obtain ⟨hleft, hstop⟩ := append_last_separator_inj (not_mem_repr hdash stop)
        (not_mem_repr hdash stop') hkey
      obtain ⟨hpath, hstart⟩ := append_last_separator_inj (not_mem_repr hbar start)
        (not_mem_repr hbar start') hleft
      rw [String.toList_inj.mp hpath, Nat.repr_injective (String.toList_inj.mp hstart),
        Nat.repr_injective (String.toList_inj.mp hstop)]

abbrev CachingObjectStore (M : Type) := ReadCache (Objects M) String (Content M)

abbrev StoreM (M : Type) := EStateM StoreError (CachingObjectStore M)

section Calls

variable (S : ObjectStore M)

/-- What the store below answers. -/
def fetch (objects : Objects M) : Request → Except StoreError (Content M)
  | .whole path => wholeObject path (objects path)
  | .range path start stop =>
    wholeObject path (objects path) >>= fun content => S.slice content start stop

namespace CachingObjectStore

/-- The answer of the cache or of the store below. -/
def cached (r : Request) : StoreM M (Content M) := fun c =>
  match c.read (fetch S) Request.key r with
  | (.ok content, c') => .ok content c'
  | (.error e, c') => .error e c'

def get (path : Path) : StoreM M (Content M) := cached S (.whole path)

def getRange (path : Path) (start stop : ℕ) : StoreM M (Content M) :=
  cached S (.range path start stop)

def getRanges (path : Path) : List (ℕ × ℕ) → StoreM M (List (Content M))
  | [] => return []
  | r :: ranges => do
    let content ← getRange S path r.1 r.2
    let rest ← getRanges path ranges
    return content :: rest

/-- What is asked of the store below without the cache. -/
def passThrough {α : Type} (f : Objects M → Except StoreError α) : StoreM M α := fun c =>
  match f c.source with
  | .ok a => .ok a c
  | .error e => .error e c

/-- Only reads without a condition are kept, of the whole object or a bounded range. -/
def getOpts (path : Path) (o : GetOptions) : StoreM M (Content M) :=
  if o.plain && !o.head then
    match o.range with
    | none => get S path
    | some (.bounded start stop) => getRange S path start stop
    | some _ => passThrough fun objects => S.getOpts path (objects path) o
  else passThrough fun objects => S.getOpts path (objects path) o

/-- The metadata of an object is never kept. -/
def head (path : Path) : StoreM M Bool := passThrough fun objects => .ok (objects path).isSome

/-- The store below is written, the cache is not told. -/
def write (f : Objects M → Except StoreError (Objects M)) : StoreM M Unit := fun c =>
  match f c.source with
  | .ok objects => .ok () (c.change objects)
  | .error e => .error e c

end CachingObjectStore

def putObject (path : Path) (content : Content M) (objects : Objects M) :
    Except StoreError (Objects M) := .ok (Function.update objects path (some content))

def deleteObject (path : Path) (objects : Objects M) : Except StoreError (Objects M) :=
  .ok (Function.update objects path none)

def copyObject (source target : Path) (objects : Objects M) : Except StoreError (Objects M) := do
  let content ← wholeObject source (objects source)
  putObject target content objects

def copyIfNotExists (source target : Path) (objects : Objects M) :
    Except StoreError (Objects M) :=
  if (objects target).isSome then .error (.alreadyExists target)
  else copyObject source target objects

end Calls

/-- A call of the store, or the cache drops what it has kept under a key. -/
inductive Call (M : Type)
  | get (path : Path)
  | getRange (path : Path) (start stop : ℕ)
  | getRanges (path : Path) (ranges : List (ℕ × ℕ))
  | getOpts (path : Path) (o : GetOptions)
  | head (path : Path)
  | put (path : Path) (content : Content M)
  | delete (path : Path)
  | copy (source target : Path)
  | copyIfNotExists (source target : Path)
  | evict (key : String)

/-- What a call makes of the objects, if it is a write that does not fail. -/
def callWrites (call : Call M) (objects : Objects M) : Except StoreError (Objects M) :=
  match call with
  | .put path content => putObject path content objects
  | .delete path => deleteObject path objects
  | .copy source target => copyObject source target objects
  | .copyIfNotExists source target => copyIfNotExists source target objects
  | _ => .ok objects

open CachingObjectStore

/-- The store after a call. -/
def stepCall (S : ObjectStore M) (c : CachingObjectStore M) (call : Call M) :
    CachingObjectStore M :=
  match call with
  | .get path => stateAfter (get S path c)
  | .getRange path start stop => stateAfter (getRange S path start stop c)
  | .getRanges path ranges => stateAfter (getRanges S path ranges c)
  | .getOpts path o => stateAfter (getOpts S path o c)
  | .head path => stateAfter (head path c)
  | .evict key => c.evict key
  | call => stateAfter (write (callWrites call) c)

def runCalls (S : ObjectStore M) (c : CachingObjectStore M) (calls : List (Call M)) :
    CachingObjectStore M := calls.foldl (stepCall S) c

def hintPath (tableRoot : Path) : Path := tableRoot ++ "/metadata/version-hint.text"

def metadataPath (tableRoot : Path) (version : ℕ) : Path :=
  tableRoot ++ "/metadata/v" ++ version.repr ++ ".metadata.json"

def indexPath (root : Path) : Path := root ++ "/_tenants.json"

def parseVersion : Content M → Except StoreError ℕ
  | .versionHint version => .ok version
  | _ => .error .badVersionHint

def parseMetadata : Content M → Except StoreError M
  | .metadata m => .ok m
  | _ => .error .badJson

def parseTenants : Content M → Except StoreError (List String)
  | .tenants names => .ok names
  | _ => .error .badJson

section Files

variable (S : ObjectStore M)

/-- The version that the hint names, with its metadata; none without a hint. -/
def loadTable (tableRoot : Path) : StoreM M (Option (ℕ × M)) := do
  if ← head (hintPath tableRoot) then
    let version ← ofExcept (parseVersion (← get S (hintPath tableRoot)))
    let m ← ofExcept (parseMetadata (← get S (metadataPath tableRoot version)))
    return some (version, m)
  else return none

/-- The metadata file is written, then the hint is pointed at it. -/
def writeMetadata (tableRoot : Path) (version : ℕ) (m : M) : StoreM M Unit := do
  write (putObject (metadataPath tableRoot version) (.metadata m))
  write (putObject (hintPath tableRoot) (.versionHint version))

/-- What a writer starts from: the loaded version, evolved by one more when the
schema asks for it, or the version zero of a new table. -/
def openTable (evolve : M → Option M) (create : M) (tableRoot : Path) : StoreM M (ℕ × M) := do
  match ← loadTable S tableRoot with
  | some (version, m) =>
    match evolve m with
    | some m' =>
      writeMetadata tableRoot (version + 1) m'
      return (version + 1, m')
    | none => return (version, m)
  | none =>
    writeMetadata tableRoot 0 create
    return (0, create)

def readIndex (root : Path) : StoreM M (List String) := do
  if ← head (indexPath root) then
    ofExcept (parseTenants (← get S (indexPath root)))
  else return []

/-- The tenant is added to the index that was read, unless it is there. -/
def registerTenant (root : Path) (tenant : String) : StoreM M Unit := do
  let tenants ← readIndex S root
  if tenant ∈ tenants then return
  else write (putObject (indexPath root) (.tenants (tenants ++ [tenant])))

end Files

end BlueDB.Lakehouse
