import Mathlib.Logic.Function.Basic
import WrongStack.Lib.Utf8
import WrongStack.Tools.ToolExecutor

/-!
# The replay log

`ReplayLogStore` (`core/src/storage/replay-log-store.ts`): instances of it, in any processes, on the log of one session.
`record` is one step, under the file lock; `lookup` and `load` take no lock and go from one access of the file to the
next. `JSON.parse` is a parameter.
-/

namespace WrongStack.Replay

open Lib Utils Utf8

structure ReplayEntry where
  hash : JsString
  ts : JsString
  request : Json
  response : Json

def ReplayEntry.toJson (e : ReplayEntry) : Json :=
  .obj [(js "hash", .str e.hash), (js "ts", .str e.ts), (js "request", e.request), (js "response", e.response)]

def newline : CodeUnit := unit '\n'

/-- What `record` writes of an entry. -/
def lineOf (entry : Json) : JsString := entry.stringify ++ [newline]

/-- `entry.hash`, where it is a string. -/
def hashOf (entry : Json) : JsString := (entry.getString (js "hash")).getD []

section Parse

variable (parse : JsString → Option Json)

/-- The end of `parseReplayLine`; `in` throws on a value that is no object. -/
def unwrapEntry : Json → Option Json
  | .obj fields =>
      match (Json.obj fields).get? (js "entry") with
      | some entry => if entry.truthy then some entry else some (.obj fields)
      | none => some (.obj fields)
  | .arr items => some (.arr items)
  | _ => none

def parseReplayLine (line : JsString) : Option Json :=
  match safeParse parse line with
  | some value => if value.truthy then unwrapEntry value else none
  | none => none

/-! ## Locations -/

structure ReplayEntryLocation where
  entry : Option Json := none
  offset : Nat
  length : Nat
  /-- The file that the offset is about, which the source does not keep. -/
  file : Nat

abbrev Locations := JsMap JsString ReplayEntryLocation

def CHUNK : Nat := 64 * 1024

/-- The variables of the loop of `ensureCache`. -/
structure Scan where
  file : Nat
  fileOffset : Nat := 0
  leftover : JsString := []
  leftoverOffset : Nat := 0
  cache : Locations := JsMap.empty

def addLine (file : Nat) (cache : Locations) (line : JsString) (offset length : Nat) : Locations :=
  if (JsString.trim line).isEmpty then cache
  else
    match parseReplayLine parse line with
    | some entry => cache.set (hashOf entry) { offset, length, file }
    | none => cache

def scanLine (file : Nat) (pos : Nat × Locations) (line : JsString) : Nat × Locations :=
  let lineLength := Tools.byteLength (line ++ [newline])
  (pos.1 + lineLength, addLine parse file pos.2 line pos.1 lineLength)

/-- A chunk is decoded by itself. -/
def Scan.chunk (scan : Scan) (chunk : Bytes) : Scan :=
  let lines := JsString.splitOn newline (scan.leftover ++ decodeFrom none chunk)
  let scanned := lines.dropLast.foldl (scanLine parse scan.file) (scan.leftoverOffset, scan.cache)
  { scan with
    fileOffset := scan.fileOffset + chunk.length
    leftover := lines.getLast?.getD []
    leftoverOffset := scanned.1
    cache := scanned.2 }

def Scan.finish (scan : Scan) : Locations :=
  addLine parse scan.file scan.cache scan.leftover scan.leftoverOffset (Tools.byteLength scan.leftover)

def chunkAt (bytes : Bytes) (offset : Nat) : Bytes := (bytes.drop offset).take CHUNK

/-- The loop on a file that nobody changes. -/
def scanFile (bytes : Bytes) : Nat → Scan → Locations
  | 0, scan => scan.finish parse
  | n + 1, scan =>
      let chunk := chunkAt bytes scan.fileOffset
      if chunk.isEmpty then scan.finish parse else scanFile bytes n (scan.chunk parse chunk)

def readAll (bytes : Bytes) : List Json :=
  ((JsString.splitOn newline (decodeFrom none bytes)).filter fun line => !(JsString.trim line).isEmpty).filterMap
    (parseReplayLine parse)

end Parse

/-! ## The state -/

structure Cache where
  entries : Locations := JsMap.empty
  /-- What has been recorded since the file was read for the cache, and not by means of it. Not in the source. -/
  missed : List JsString := []

/-- An instance: which one of the caches is its own, and the count that goes with it. -/
structure Store where
  cache : Option Nat := none
  diskCount : Nat := 0

inductive Query
  | lookup (hash : JsString)
  /-- With the entries that it has so far. -/
  | load (entries : List Json)

/-- Where a call of `lookup` or `load` waits. -/
inductive Stage
  | idle
  | ensure (q : Query)
  | openFile (q : Query)
  | readChunk (q : Query) (scan : Scan) (missed : List JsString)
  | closeFile (q : Query) (entries : Locations) (missed : List JsString)
  | useCache (q : Query) (cache : Nat)
  | hydrateOpen (q : Query) (cache : Nat) (hash : JsString) (location : ReplayEntryLocation)
  | hydrateRead (q : Query) (cache : Nat) (hash : JsString) (location : ReplayEntryLocation) (file : Nat)
  | returned (q : Query) (entry : Option Json)
  | failed (q : Query)

structure Call where
  store : Nat := 0
  stage : Stage := .idle
  /-- What a lookup should return, as of the moment when it looks into the cache. Not in the source. -/
  due : Option ReplayEntry := none

structure State where
  /-- All files there have been: a rename leaves the old one to those who have opened it. -/
  files : Nat → Bytes := fun _ => []
  nextFile : Nat := 0
  current : Option Nat := none
  caches : Nat → Cache := fun _ => {}
  nextCache : Nat := 0
  stores : Nat → Store := fun _ => {}
  calls : Nat → Call := fun _ => {}
  /-- The entries of the `record` calls, but for those of a hash that is due already. -/
  recorded : List ReplayEntry := []

inductive Op
  | record (store : Nat) (entry : ReplayEntry)
  | lookup (call store : Nat) (hash : JsString)
  | load (call store : Nat)
  | resume (call : Nat)

/-- The last `maxEntries` of a list, or all where that is `Infinity`. -/
def lastOf {α : Type*} (maxEntries : Option Nat) (l : List α) : List α :=
  match maxEntries with
  | none => l
  | some n => l.drop (l.length - n)

/-- `all.slice(-maxEntries)`, where `-0` is `0`. -/
def sliceLast {α : Type*} (maxEntries : Option Nat) (l : List α) : List α :=
  if maxEntries = some 0 then l else lastOf maxEntries l

variable (parse : JsString → Option Json) (maxEntries : Option Nat)

/-- The entry of a hash that is among the last `maxEntries` recorded ones. -/
def State.due (s : State) (hash : JsString) : Option ReplayEntry :=
  (lastOf maxEntries s.recorded).find? fun e => e.hash == hash

def State.bytes (s : State) : Bytes := (s.current.map s.files).getD []

/-- `this.cache.set`, with a cache that is new. -/
def State.setCache (s : State) (store : Nat) (cache : Cache) (diskCount : Nat) : State :=
  { s with
    caches := Function.update s.caches s.nextCache cache
    nextCache := s.nextCache + 1
    stores := Function.update s.stores store { cache := some s.nextCache, diskCount } }

def Stage.miss (hash : JsString) (file : Nat) : Stage → Stage
  | readChunk q scan missed => readChunk q scan (if scan.file = file then missed else hash :: missed)
  | closeFile q entries missed => closeFile q entries (hash :: missed)
  | stage => stage

/-- A hash is now in `file`, which is current: who has not read it there misses it. -/
def State.miss (s : State) (hash : JsString) (file : Nat) : State :=
  { s with
    caches := fun c => { s.caches c with missed := hash :: (s.caches c).missed }
    calls := fun c => { s.calls c with stage := (s.calls c).stage.miss hash file } }

/-! ## `record` -/

/-- `ensureCache` under the lock. -/
def ensureCache (s : State) (store : Nat) : State :=
  match (s.stores store).cache with
  | some _ => s
  | none =>
      let entries :=
        match s.current with
        | some file => scanFile parse (s.files file) ((s.files file).length + 1) { file }
        | none => JsMap.empty
      s.setCache store { entries } entries.size

def State.cacheOf (s : State) (store : Nat) : Nat := (s.stores store).cache.getD 0

/-- The common path of `record`. -/
def append (s : State) (store : Nat) (e : ReplayEntry) : State :=
  let line := encode (lineOf e.toJson)
  let file := s.current.getD s.nextFile
  let cache := s.caches (s.cacheOf store)
  let location : ReplayEntryLocation :=
    { entry := some e.toJson, offset := s.bytes.length, length := Tools.byteLength (lineOf e.toJson), file }
  let s' := s.miss e.hash file
  { s' with
    files := Function.update s.files file (s.bytes ++ line)
    nextFile := max s.nextFile (file + 1)
    current := some file
    caches := Function.update s'.caches (s.cacheOf store) { cache with entries := cache.entries.set e.hash location }
    stores := Function.update s.stores store
      { s.stores store with diskCount := (s.stores store).diskCount + 1 } }

/-- A new location for each entry that is kept. -/
def refresh (file : Nat) (pos : Nat × Locations) (entry : Json) : Nat × Locations :=
  let length := Tools.byteLength (lineOf entry)
  (pos.1 + length, pos.2.set (hashOf entry) { entry := some entry, offset := pos.1, length, file })

/-- `writeAll` -/
def body (entries : List Json) : JsString :=
  JsString.join [newline] (entries.map Json.stringify) ++ if entries.isEmpty then [] else [newline]

/-- The eviction path of `record`. -/
def evict (s : State) (store : Nat) (e : ReplayEntry) : State :=
  let keep := sliceLast maxEntries (readAll parse s.bytes ++ [e.toJson])
  let file := s.nextFile
  let s' := s.miss e.hash file
  { s' with
    files := Function.update s.files file (encode (body keep))
    nextFile := file + 1
    current := some file }.setCache store { entries := (keep.foldl (refresh file) (0, JsMap.empty)).2 } keep.length

def willEvict (currentCount : Nat) : Bool :=
  match maxEntries with
  | some n => n < currentCount + 1
  | none => false

def record (s : State) (store : Nat) (e : ReplayEntry) : State :=
  let s' := ensureCache parse s store
  let recorded := if (s.due maxEntries e.hash).isSome then s.recorded else s.recorded ++ [e]
  { (if (s'.caches (s'.cacheOf store)).entries.has e.hash then s'
      else if willEvict maxEntries (s'.stores store).diskCount then evict parse maxEntries s' store e
      else append s' store e) with recorded }

/-! ## `lookup` and `load` -/

def State.setStage (s : State) (call : Nat) (stage : Stage) : State :=
  { s with calls := Function.update s.calls call { s.calls call with stage } }

/-- From `cache.get` to the next access of the file. -/
def useCache (s : State) (call : Nat) (q : Query) (cache : Nat) : State :=
  match q with
  | .lookup hash =>
      let s := { s with calls := Function.update s.calls call { s.calls call with due := s.due maxEntries hash } }
      match (s.caches cache).entries.get? hash with
      | some location =>
          match location.entry with
          | some entry => s.setStage call (.returned q (some entry))
          | none => s.setStage call (.hydrateOpen q cache hash location)
      | none => s.setStage call (.returned q none)
  | .load entries =>
      match (s.caches cache).entries.entries[entries.length]? with
      | some (hash, location) =>
          match location.entry with
          | some entry => s.setStage call (.useCache (.load (entries ++ [entry])) cache)
          | none => s.setStage call (.hydrateOpen q cache hash location)
      | none => s.setStage call (.returned q none)

/-- `hydrateEntry` from its read on. -/
def hydrate (s : State) (call : Nat) (q : Query) (cache : Nat) (hash : JsString) (location : ReplayEntryLocation)
    (file : Nat) : State :=
  let bytes := ((s.files file).drop location.offset).take location.length
  match parseReplayLine parse (JsString.trimEnd (decodeFrom none bytes)) with
  | none => s.setStage call (.failed q)
  | some entry =>
      let memo := (s.caches cache).entries.modify hash fun l => { l with entry := some entry }
      let s := { s with caches := Function.update s.caches cache { s.caches cache with entries := memo } }
      match q with
      | .lookup _ => s.setStage call (.returned q (some entry))
      | .load entries => s.setStage call (.useCache (.load (entries ++ [entry])) cache)

def resume (s : State) (call : Nat) : State :=
  match (s.calls call).stage with
  | .idle | .returned .. | .failed _ => s
  | .ensure q =>
      match (s.stores (s.calls call).store).cache with
      | some cache => s.setStage call (.useCache q cache)
      | none => s.setStage call (.openFile q)
  | .openFile q =>
      match s.current with
      | some file => s.setStage call (.readChunk q { file } [])
      | none => s.setStage call (.closeFile q JsMap.empty [])
  | .readChunk q scan missed =>
      let chunk := chunkAt (s.files scan.file) scan.fileOffset
      if chunk.isEmpty then s.setStage call (.closeFile q (scan.finish parse) missed)
      else s.setStage call (.readChunk q (scan.chunk parse chunk) missed)
  | .closeFile q entries missed =>
      (s.setCache (s.calls call).store { entries, missed } entries.size).setStage call (.useCache q s.nextCache)
  | .useCache q cache => useCache maxEntries s call q cache
  | .hydrateOpen q cache hash location =>
      match s.current with
      | some file => s.setStage call (.hydrateRead q cache hash location file)
      | none => s.setStage call (.failed q)
  | .hydrateRead q cache hash location file => hydrate parse s call q cache hash location file

def start (s : State) (call store : Nat) (q : Query) : State :=
  match (s.calls call).stage with
  | .idle => { s with calls := Function.update s.calls call { store, stage := .ensure q } }
  | _ => s

def step (s : State) : Op → State
  | .record store e => record parse maxEntries s store e
  | .lookup call store hash => start s call store (.lookup hash)
  | .load call store => start s call store (.load [])
  | .resume call => resume parse maxEntries s call

end WrongStack.Replay
