import Mathlib.Data.List.Sort
import WrongStack.Session.Loader
import WrongStack.Tools.ToolExecutor
import WrongStack.Lib.Journal

/-!
# The audit log of tool calls

`ToolAuditLog` (`core/src/storage/tool-audit-log.ts`) on one session: `record`, which appends an entry under the file
lock, and `verify`. The hash is a parameter. A line of the file is given by what `safeParse` makes of it.
-/

namespace WrongStack.Audit

open Lib Utils

def GENESIS_PREV : JsString := List.replicate 64 (unit '0')

/-! ## Canonical text -/

/-- A key that an object lists before all others, in numeric order. -/
def isArrayIndex (key : JsString) : Bool :=
  !key.isEmpty && key.all isDigit && (key == js "0" || key.head? != some (unit '0')) &&
    decide (Decimal.natural key < 4294967295)

/-- The fields of a fresh object after the assignments of `sortKeys`; one to `__proto__` makes no field. -/
def assignSorted (fields : List (JsString × Json)) : List (JsString × Json) :=
  let sorted := (fields.insertionSort fun a b => a.1 ≤ b.1).filter fun f => f.1 != js "__proto__"
  ((sorted.filter fun f => isArrayIndex f.1).insertionSort fun a b => Decimal.natural a.1 ≤ Decimal.natural b.1) ++
    sorted.filter fun f => !isArrayIndex f.1

mutual

def sortKeys : Json → Json
  | .arr items => .arr (sortItems items)
  | .obj fields => .obj (assignSorted (sortFields fields))
  | v => v

def sortItems : List Json → List Json
  | [] => []
  | v :: vs => sortKeys v :: sortItems vs

def sortFields : List (JsString × Json) → List (JsString × Json)
  | [] => []
  | (key, v) :: fs => (key, sortKeys v) :: sortFields fs

end

def stableStringify (value : Json) : JsString := (sortKeys value).stringify

/-! ## Entries -/

/-- An object without the fields that are undefined. -/
def present (fields : List (JsString × Option Json)) : Json := .obj (fields.filterMap fun f => f.2.map (f.1, ·))

def content (id ts prevHash toolName toolUseId input output isError index : Option Json) : Json :=
  present [(js "id", id), (js "ts", ts), (js "prevHash", prevHash), (js "toolName", toolName),
    (js "toolUseId", toolUseId), (js "input", input), (js "output", output), (js "isError", isError),
    (js "index", index)]

structure ToolCall where
  toolName : JsString
  toolUseId : JsString
  input : Option Json := none
  output : Option Json := none
  isError : Bool := false

structure AuditEntry extends ToolCall where
  index : Nat
  id : JsString
  ts : JsString
  prevHash : JsString
  hash : JsString

def digits (n : Nat) : JsString := js (toString n)

def AuditEntry.toJson (e : AuditEntry) : Json :=
  present [(js "id", some (.str e.id)), (js "ts", some (.str e.ts)), (js "prevHash", some (.str e.prevHash)),
    (js "hash", some (.str e.hash)), (js "toolName", some (.str e.toolName)),
    (js "toolUseId", some (.str e.toolUseId)), (js "input", e.input), (js "output", e.output),
    (js "isError", some (.bool e.isError)), (js "index", some (.num (digits e.index)))]

/-- The entry that `record` makes of a call. -/
def newEntry (sha256 : JsString → JsString) (call : ToolCall) (id ts prevHash : JsString) (index : Nat) :
    AuditEntry :=
  let content := content (some (.str id)) (some (.str ts)) (some (.str prevHash)) (some (.str call.toolName))
    (some (.str call.toolUseId)) call.input call.output (some (.bool call.isError)) (some (.num (digits index)))
  { call with index, id, ts, prevHash, hash := sha256 (stableStringify content) }

/-! ## Reading -/

/-- A line is blank, no JSON or too long for `safeParse`, or it holds a value. -/
inductive Line
  | unparseable
  | value (v : Json)

/-- The line of a value that is written on it alone. -/
def lineOf (v : Json) : Line := if maxBytes < v.stringify.length then .unparseable else .value v

def Line.entry? : Line → Option Json
  | unparseable => none
  | value v => if v.truthy then some v else none

def readAll (lines : List Line) : List Json := lines.filterMap Line.entry?

/-! ## `verify` -/

inductive VerifyResult
  | ok (entries : Nat)
  | broken (brokenAt : Nat) (reason : JsString)
  deriving DecidableEq

def isText (v : Option Json) (text : JsString) : Bool :=
  match v with
  | some (.str s) => s == text
  | _ => false

/-- `v.slice(0, 8)` in a template: `none` when it throws. -/
def sliceText : Option Json → Option JsString
  | some (.str s) => some (s.take 8)
  | some (.arr items) => Session.Loader.joinedText (.arr (items.take 8))
  | _ => none

/-- What `verify` hashes of an entry. -/
def contentOf (e : Json) : Json :=
  content (e.get? (js "id")) (e.get? (js "ts")) (e.get? (js "prevHash")) (e.get? (js "toolName"))
    (e.get? (js "toolUseId")) (e.get? (js "input")) (e.get? (js "output")) (e.get? (js "isError"))
    (e.get? (js "index"))

def prevHashMismatch (i : Nat) (expected got : JsString) : JsString :=
  js s!"prevHash mismatch at entry {i} (expected " ++ expected.take 8 ++ js "…, got " ++ got ++ js "…)"

variable (sha256 : JsString → JsString)

/-- The loop of `verify`; `none` when it throws. -/
def walk (prevHash : JsString) (i : Nat) : List Json → Option VerifyResult
  | [] => some (.ok i)
  | e :: es =>
      if isText (e.get? (js "prevHash")) prevHash then
        let expectedHash := sha256 (stableStringify (contentOf e))
        if isText (e.get? (js "hash")) expectedHash then walk expectedHash (i + 1) es
        else some (.broken i (js s!"hash mismatch at entry {i} (entry content was modified)"))
      else (sliceText (e.get? (js "prevHash"))).map fun got => .broken i (prevHashMismatch i prevHash got)

def verify (lines : List Line) : Option VerifyResult :=
  match readAll lines with
  | [] => some (.ok 0)
  | e :: es =>
      if isText (e.get? (js "prevHash")) GENESIS_PREV then walk sha256 GENESIS_PREV 0 (e :: es)
      else some (.broken 0 (js "first entry is not the genesis (prevHash != 0…0)"))

/-! ## The file -/

structure Stat where
  mtimeMs : Nat
  size : Nat
  deriving DecidableEq

structure File where
  lines : List Line := []
  /-- What comes after the last line break: the beginning of a line, or all of it. -/
  rest : Option Line := none
  stat : Stat := ⟨0, 0⟩

def File.all (f : File) : List Line := f.lines ++ f.rest.toList

/-- The first `written` bytes of a line of `bytes` bytes and its line break reach the file. After the rest of another
line, no line is JSON. -/
def File.append (f : File) (line : Line) (bytes written now : Nat) : File :=
  let line := if f.rest.isNone then line else .unparseable
  let stat : Stat := { mtimeMs := now, size := f.stat.size + min written (bytes + 1) }
  if bytes < written then { lines := f.lines ++ [line], rest := none, stat }
  else if written = bytes then { f with rest := some line, stat }
  else { f with rest := some .unparseable, stat }

/-! ## `record` -/

/-- What an instance keeps of the end of the chain. -/
structure Cache where
  tailHash : Option JsString := none
  tailIndex : Option Nat := none
  tailStat : Option Stat := none

structure State where
  file : Option File := none
  caches : Nat → Cache := fun _ => {}
  /-- The entries of the calls that have resolved. -/
  resolved : List AuditEntry := []

def State.lines (s : State) : List Line := (s.file.map File.all).getD []

/-- `prev?.hash ?? GENESIS_PREV`, where a hash is a string. -/
def hashOf (prev : Json) : JsString := (prev.getString (js "hash")).getD GENESIS_PREV

/-- `prev.index + 1`, where an index is a natural number. -/
def indexAfter (prev : Json) : Nat :=
  match prev.get? (js "index") with
  | some (.num text) => Decimal.natural text + 1
  | _ => 0

structure Tip where
  prevHash : JsString
  nextIndex : Nat
  cache : Cache

/-- The part of `_resolveChainTip` that reads the file. -/
def rereadTip (cache : Cache) (file : Option File) (statOk readOk : Bool) : Option Tip :=
  if file.isSome && !readOk then none
  else
    let prev := (readAll ((file.map File.all).getD [])).getLast?
    let prevHash := (prev.map hashOf).getD GENESIS_PREV
    let nextIndex := (prev.map indexAfter).getD 0
    let stat := if statOk then file.map File.stat else none
    some { prevHash, nextIndex, cache := {
      tailHash := some prevHash, tailIndex := some nextIndex, tailStat := stat.or cache.tailStat } }

/-- `none` when it throws, because the file is there and cannot be read. -/
def resolveChainTip (cache : Cache) (file : Option File) (statOk readOk : Bool) : Option Tip :=
  match cache.tailHash, cache.tailIndex, cache.tailStat with
  | some cachedHash, some cachedIndex, some cachedStat =>
      match file with
      | none => some { prevHash := GENESIS_PREV, nextIndex := 0, cache := {} }
      | some f =>
          if !statOk then none
          else if f.stat = cachedStat then some { prevHash := cachedHash, nextIndex := cachedIndex, cache }
          else rereadTip cache file statOk readOk
  | _, _, _ => rereadTip cache file statOk readOk

/-- One call of `record` under the lock, with what the file system does. -/
structure Attempt where
  instanceId : Nat
  call : ToolCall
  id : JsString
  ts : JsString
  statOk : Bool := true
  readOk : Bool := true
  /-- How many bytes of the line and its line break reach the file. -/
  written : Nat
  now : Nat := 0
  /-- The process dies after that. -/
  dies : Bool := false
  statAfter : Bool := true

inductive Op
  | record (a : Attempt)
  /-- Another instance takes the place of one. -/
  | restart (instanceId : Nat)

def attempt (s : State) (a : Attempt) : Option (Tip × AuditEntry) :=
  (resolveChainTip (s.caches a.instanceId) s.file a.statOk a.readOk).map fun tip =>
    (tip, newEntry sha256 a.call a.id a.ts tip.prevHash tip.nextIndex)

/-- All of the line is written, and its line break. -/
def Attempt.complete (a : Attempt) (entry : AuditEntry) : Bool :=
  decide (Tools.byteLength entry.toJson.stringify < a.written)

def appendFile (file : Option File) (entry : AuditEntry) (a : Attempt) : Option File :=
  if a.written = 0 then file
  else
    some ((file.getD {}).append (lineOf entry.toJson) (Tools.byteLength entry.toJson.stringify) a.written a.now)

def record (s : State) (a : Attempt) : State :=
  match attempt sha256 s a with
  | none => s
  | some (tip, entry) =>
      let file := appendFile s.file entry a
      if a.dies then { s with file, caches := Function.update s.caches a.instanceId {} }
      else if a.complete entry then
        let tailStat := if a.statAfter then file.map File.stat else none
        { file
          caches := Function.update s.caches a.instanceId {
            tailHash := some entry.hash
            tailIndex := some (tip.nextIndex + 1)
            tailStat := tailStat.or tip.cache.tailStat }
          resolved := s.resolved ++ [entry] }
      else { s with file, caches := Function.update s.caches a.instanceId tip.cache }

def step (s : State) : Op → State
  | .record a => record sha256 s a
  | .restart instanceId => { s with caches := Function.update s.caches instanceId {} }

end WrongStack.Audit

/-!
# What `verify` checks

An entry is linked to the one before it by its `prevHash`, and sealed by its own `hash`.
-/

namespace WrongStack.Audit

open Lib

variable {sha256 : JsString → JsString} {tip : JsString} {i : Nat} {v : Json} {vs ws : List Json} {lines : List Line}

def LinkedTo (tip : JsString) (v : Json) : Prop := v.get? (js "prevHash") = some (.str tip)

def Sealed (sha256 : JsString → JsString) (v : Json) : Prop :=
  v.get? (js "hash") = some (.str (sha256 (stableStringify (contentOf v))))

def Follows (sha256 : JsString → JsString) (tip : JsString) (v : Json) : Prop := LinkedTo tip v ∧ Sealed sha256 v

/-- The values of a file are linked, from the first one on. -/
def Linked (tip : JsString) (vs : List Json) : Prop := Chained LinkedTo hashOf tip vs

def Honest (sha256 : JsString → JsString) (vs : List Json) : Prop := Chained (Follows sha256) hashOf GENESIS_PREV vs

/-- The hash that the next entry is linked to. -/
def tipOf (vs : List Json) : JsString := chainTip hashOf GENESIS_PREV vs

theorem isText_iff {v : Option Json} {text : JsString} : isText v text = true ↔ v = some (.str text) := by
  cases v with
  | none => simp [isText]
  | some v => cases v <;> simp [isText]

theorem hashOf_eq {hash : JsString} (h : v.get? (js "hash") = some (.str hash)) : hashOf v = hash := by
  rw [hashOf, Json.getString, h]
  rfl

theorem Sealed.hashOf_eq (h : Sealed sha256 v) : hashOf v = sha256 (stableStringify (contentOf v)) :=
  Audit.hashOf_eq h

/-! ## The walk -/

theorem walk_cons_of_follows (h : Follows sha256 tip v) :
    walk sha256 tip i (v :: vs) = walk sha256 (hashOf v) (i + 1) vs := by
  rw [walk, if_pos (isText_iff.mpr h.1), if_pos (isText_iff.mpr h.2), h.2.hashOf_eq]

theorem walk_append_of_chained (i : Nat) (ws : List Json) (h : Chained (Follows sha256) hashOf tip vs) :
    walk sha256 tip i (vs ++ ws) = walk sha256 (chainTip hashOf tip vs) (i + vs.length) ws := by
  induction vs generalizing tip i with
  | nil => rfl
  | cons v vs ih =>
      obtain ⟨hv, hvs⟩ := h
      rw [List.cons_append, walk_cons_of_follows hv, ih (i + 1) hvs, chainTip_cons, List.length_cons]
      congr 1
      omega

/-- Of entries that are honest in a row, `verify` counts all. -/
theorem verify_of_honest (h : Honest sha256 (readAll lines)) :
    verify sha256 lines = some (.ok (readAll lines).length) := by
  rw [verify]
  cases hvs : readAll lines with
  | nil => rfl
  | cons v vs =>
      rw [hvs] at h
      have hwalk := walk_append_of_chained 0 [] h
      rw [List.append_nil, Nat.zero_add] at hwalk
      have hgenesis : isText (v.get? (js "prevHash")) GENESIS_PREV = true := isText_iff.mpr h.1.1
      simp only [hgenesis, ↓reduceIte]
      rw [hwalk]
      rfl

/-! ## Broken chains -/

def Broken (result : Option VerifyResult) : Prop := ∃ brokenAt reason, result = some (.broken brokenAt reason)

/-- The `prevHash` of a value can be printed. -/
def Printable (v : Json) : Prop := (sliceText (v.get? (js "prevHash"))).isSome = true

theorem LinkedTo.printable (h : LinkedTo tip v) : Printable v := by
  rw [Printable, h]
  rfl

theorem broken_walk_of_not_linkedTo (h : ¬LinkedTo tip v) : Broken (walk sha256 tip i (v :: vs)) ↔ Printable v := by
  rw [walk, if_neg (fun htext => h (isText_iff.mp htext)), Printable]
  cases sliceText (v.get? (js "prevHash")) with
  | none => simp [Broken]
  | some got => simp [Broken]

theorem broken_walk_of_linkedTo (h : LinkedTo tip v) :
    Broken (walk sha256 tip i (v :: vs)) ↔ ¬Sealed sha256 v ∨ Broken (walk sha256 (hashOf v) (i + 1) vs) := by
  by_cases hsealed : Sealed sha256 v
  · rw [walk_cons_of_follows ⟨h, hsealed⟩]
    simp [hsealed]
  · rw [walk, if_pos (isText_iff.mpr h), if_neg (fun htext => hsealed (isText_iff.mp htext))]
    simp [Broken, hsealed]

/-- The value of an entry that some call has made. -/
def Genuine (sha256 : JsString → JsString) (v : Json) : Prop := ∃ tip, Follows sha256 tip v

theorem broken_walk_genuine (tip : JsString) (i : Nat) (ws : List Json) (h : ∀ v ∈ vs, Genuine sha256 v) :
    Broken (walk sha256 tip i (vs ++ ws)) ↔
      ¬Linked tip vs ∨ Broken (walk sha256 (chainTip hashOf tip vs) (i + vs.length) ws) := by
  induction vs generalizing tip i with
  | nil => simp [Linked, Chained]
  | cons v vs ih =>
      obtain ⟨madeOn, hmade⟩ := h v List.mem_cons_self
      have hrest := ih (hashOf v) (i + 1) fun w hw => h w (List.mem_cons_of_mem v hw)
      have hcount : i + (v :: vs).length = i + 1 + vs.length := by
        rw [List.length_cons]
        omega
      rw [List.cons_append, chainTip_cons, hcount, Linked, Chained]
      by_cases hlinked : LinkedTo tip v
      · rw [broken_walk_of_linkedTo hlinked, hrest, Linked]
        simp [hmade.2, hlinked]
      · rw [broken_walk_of_not_linkedTo hlinked]
        simp [hmade.1.printable, hlinked]

theorem broken_verify (hvs : readAll lines = v :: vs) :
    Broken (verify sha256 lines) ↔ ¬LinkedTo GENESIS_PREV v ∨ Broken (walk sha256 GENESIS_PREV 0 (v :: vs)) := by
  rw [verify, hvs]
  by_cases hlinked : LinkedTo GENESIS_PREV v
  · simp [isText_iff.mpr hlinked, hlinked]
  · have htext : isText (v.get? (js "prevHash")) GENESIS_PREV = false :=
      Bool.eq_false_iff.mpr fun htext => hlinked (isText_iff.mp htext)
    simp [htext, hlinked, Broken]

/-! ## Verdicts -/

/-- A value that the walk gets to can be printed, should it be on no link. -/
def ReachedPrintable (sha256 : JsString → JsString) (tip : JsString) (vs : List Json) : Prop :=
  ∀ pre v post, vs = pre ++ v :: post → Chained (Follows sha256) hashOf tip pre → Printable v

theorem reachedPrintable_cons :
    ReachedPrintable sha256 tip (v :: vs) ↔
      Printable v ∧ (Follows sha256 tip v → ReachedPrintable sha256 (hashOf v) vs) := by
  constructor
  · intro h
    refine ⟨h [] v vs rfl trivial, fun hv pre w post hvs hpre => ?_⟩
    exact h (v :: pre) w post (by rw [hvs, List.cons_append]) ⟨hv, hpre⟩
  · rintro ⟨hprint, hrest⟩ pre w post hvs hpre
    cases pre with
    | nil =>
        obtain ⟨rfl, -⟩ := List.cons.inj hvs
        exact hprint
    | cons u pre =>
        obtain ⟨rfl, htail⟩ := List.cons.inj hvs
        exact hrest hpre.1 pre w post htail hpre.2

theorem walk_ne_none : walk sha256 tip i vs ≠ none ↔ ReachedPrintable sha256 tip vs := by
  induction vs generalizing tip i with
  | nil => simp [walk, ReachedPrintable]
  | cons v vs ih =>
      rw [reachedPrintable_cons]
      by_cases hlinked : LinkedTo tip v
      · by_cases hsealed : Sealed sha256 v
        · rw [walk_cons_of_follows ⟨hlinked, hsealed⟩, ih]
          simp [Follows, hlinked, hsealed, hlinked.printable]
        · rw [walk, if_pos (isText_iff.mpr hlinked), if_neg (fun htext => hsealed (isText_iff.mp htext))]
          simp [Follows, hsealed, hlinked.printable]
      · rw [walk, if_neg (fun htext => hlinked (isText_iff.mp htext)), Printable]
        cases sliceText (v.get? (js "prevHash")) <;> simp [Follows, hlinked]

/-! ## The entries that `record` makes -/

variable {call : ToolCall} {id ts prevHash : JsString} {index : Nat}

theorem contentOf_toJson (e : AuditEntry) :
    contentOf e.toJson = content (some (.str e.id)) (some (.str e.ts)) (some (.str e.prevHash)) (some (.str e.toolName))
      (some (.str e.toolUseId)) e.input e.output (some (.bool e.isError)) (some (.num (digits e.index))) := by
  obtain ⟨⟨toolName, toolUseId, input, output, isError⟩, index, id, ts, prevHash, hash⟩ := e
  cases input <;> cases output <;> rfl

theorem follows_newEntry : Follows sha256 prevHash (newEntry sha256 call id ts prevHash index).toJson := by
  refine ⟨rfl, ?_⟩
  rw [Sealed, contentOf_toJson]
  rfl

theorem hashOf_toJson (e : AuditEntry) : hashOf e.toJson = e.hash := hashOf_eq rfl

end WrongStack.Audit

/-!
# The end of the file

`record` appends to the file and links to what it knows of its end: both are brought to the entries that the file holds.
-/

namespace WrongStack.Audit

open Lib Utils

variable {sha256 : JsString → JsString} {s : State} {a : Attempt} {f : File} {file : Option File} {cache : Cache}
  {line : Line} {bytes written now : Nat}

theorem readAll_append (ls ms : List Line) : readAll (ls ++ ms) = readAll ls ++ readAll ms := List.filterMap_append

theorem readAll_unparseable : readAll [.unparseable] = [] := rfl

theorem readAll_lineOf {entry : AuditEntry} (h : entry.toJson.stringify.length ≤ maxBytes) :
    readAll [lineOf entry.toJson] = [entry.toJson] := by
  rw [lineOf, if_neg (by omega)]
  rfl

theorem readAll_lineOf_eq (entry : AuditEntry) :
    readAll [lineOf entry.toJson] = [] ∨ readAll [lineOf entry.toJson] = [entry.toJson] := by
  rw [lineOf]
  split
  · exact .inl rfl
  · exact .inr rfl

/-! ## An append -/

/-- What is read after an append: the complete lines as before, and the new line if it is on its own. -/
theorem File.readAll_append_all (f : File) (line : Line) (bytes written now : Nat) :
    readAll (f.append line bytes written now).all = readAll f.lines ∨
      f.rest = none ∧ readAll (f.append line bytes written now).all = readAll f.all ++ readAll [line] := by
  rw [File.append]
  split
  · cases hrest : f.rest with
    | none => exact .inr ⟨rfl, by simp [File.all, hrest, readAll_append]⟩
    | some rest => exact .inl (by simp [File.all, readAll_append, readAll_unparseable])
  · split
    · cases hrest : f.rest with
      | none => exact .inr ⟨rfl, by simp [File.all, hrest, readAll_append]⟩
      | some rest => exact .inl (by simp [File.all, readAll_append, readAll_unparseable])
    · exact .inl (by simp [File.all, readAll_append, readAll_unparseable])

theorem File.lines_prefix_append (f : File) (line : Line) (bytes written now : Nat) :
    f.lines <+: (f.append line bytes written now).lines := by
  rw [File.append]
  split
  · exact List.prefix_append _ _
  · split <;> exact List.prefix_rfl

theorem File.append_of_complete (line : Line) (now : Nat) (hrest : f.rest = none) (h : bytes < written) :
    (f.append line bytes written now).lines = f.lines ++ [line] ∧
      (f.append line bytes written now).all = f.all ++ [line] := by
  simp [File.append, File.all, hrest, h]

theorem File.size_lt_append (h : written ≠ 0) :
    f.stat.size < (f.append line bytes written now).stat.size := by
  have hsize : (f.append line bytes written now).stat.size = f.stat.size + min written (bytes + 1) := by
    rw [File.append]
    split
    · rfl
    · split <;> rfl
  omega

/-- The values that are read from the file, if there is one. -/
def valuesOf (file : Option File) : List Json := readAll ((file.map File.all).getD [])

/-- The values of the complete lines, which no append can spoil. -/
def completeOf (file : Option File) : List Json := readAll ((file.map File.lines).getD [])

theorem completeOf_isPrefix (file : Option File) : completeOf file <+: valuesOf file := by
  cases file with
  | none => exact List.prefix_rfl
  | some f => exact ⟨_, (readAll_append _ _).symm⟩

theorem appendFile_eq (file : Option File) (entry : AuditEntry) {a : Attempt} (h : a.written ≠ 0) :
    appendFile file entry a = some ((file.getD {}).append (lineOf entry.toJson)
      (Tools.byteLength entry.toJson.stringify) a.written a.now) := if_neg h

theorem valuesOf_appendFile (file : Option File) (entry : AuditEntry) (a : Attempt) :
    valuesOf (appendFile file entry a) <+: valuesOf file ∨
      valuesOf (appendFile file entry a) = valuesOf file ++ [entry.toJson] := by
  by_cases hwritten : a.written = 0
  · rw [appendFile, if_pos hwritten]
    exact .inl List.prefix_rfl
  · have hcomplete : readAll (file.getD {}).lines <+: valuesOf file := by
      cases file with
      | none => exact List.prefix_rfl
      | some f => exact completeOf_isPrefix (some f)
    have hall : readAll (file.getD {}).all = valuesOf file := by cases file <;> rfl
    rw [appendFile_eq file entry hwritten]
    rcases (file.getD {}).readAll_append_all (lineOf entry.toJson) (Tools.byteLength entry.toJson.stringify) a.written
        a.now with hold | ⟨-, hnew⟩
    · exact .inl ((congrArg (· <+: _) hold).mpr hcomplete)
    · rw [hall] at hnew
      rcases readAll_lineOf_eq entry with hnone | hsome
      · rw [hnone, List.append_nil] at hnew
        exact .inl ((congrArg (· <+: _) hnew).mpr List.prefix_rfl)
      · rw [hsome] at hnew
        exact .inr hnew

theorem completeOf_prefix_appendFile (file : Option File) (entry : AuditEntry) (a : Attempt) :
    completeOf file <+: completeOf (appendFile file entry a) := by
  by_cases hwritten : a.written = 0
  · rw [appendFile, if_pos hwritten]
  · have hlines : (file.map File.lines).getD [] = (file.getD {}).lines := by cases file <;> rfl
    rw [appendFile_eq file entry hwritten, completeOf, hlines]
    exact (File.lines_prefix_append _ _ _ _ _).filterMap _

/-! ## The end of the chain -/

/-- What a cache says of a file of this size and time holds. -/
def Cache.Sound (cache : Cache) (file : Option File) : Prop :=
  ∀ st, cache.tailStat = some st → ∃ f, file = some f ∧ st.size ≤ f.stat.size ∧
    (f.stat = st → ∀ hash, cache.tailHash = some hash → hash = tipOf (valuesOf file))

theorem Cache.sound_empty : Cache.Sound {} file := nofun

/-- After a write a cache of before is not trusted. -/
theorem Cache.Sound.append (h : cache.Sound file) (entry : AuditEntry) (a : Attempt) :
    cache.Sound (appendFile file entry a) := by
  by_cases hwritten : a.written = 0
  · rw [appendFile, if_pos hwritten]
    exact h
  · intro st hst
    obtain ⟨f, rfl, hsize, -⟩ := h st hst
    have hlt : st.size < ((some f).getD {} |>.append (lineOf entry.toJson) (Tools.byteLength entry.toJson.stringify)
        a.written a.now).stat.size := hsize.trans_lt (f.size_lt_append hwritten)
    refine ⟨_, appendFile_eq (some f) entry hwritten, hlt.le, fun heq => ?_⟩
    rw [heq] at hlt
    omega

/-- A cache that is brought up to date, with a new stat of the file or with the old one. -/
theorem Cache.Sound.refresh (h : cache.Sound file) {hash : JsString} (hhash : hash = tipOf (valuesOf file))
    (index : Option Nat) (ok : Bool) :
    Cache.Sound {
      tailHash := some hash
      tailIndex := index
      tailStat := (if ok then file.map File.stat else none).or cache.tailStat } file := by
  intro st hst
  have hnew : ∀ known, some hash = some known → known = tipOf (valuesOf file) := by
    rintro known ⟨⟩
    exact hhash
  rcases Option.or_eq_some_iff.mp hst with hnow | ⟨-, hold⟩
  · split at hnow
    · obtain ⟨f, rfl, rfl⟩ := Option.map_eq_some_iff.mp hnow
      exact ⟨f, rfl, le_rfl, fun _ => hnew⟩
    · cases hnow
  · obtain ⟨f, hfile, hsize, -⟩ := h st hold
    exact ⟨f, hfile, hsize, fun _ => hnew⟩

theorem rereadTip_spec {statOk readOk : Bool} {tip : Tip} (h : cache.Sound file)
    (htip : rereadTip cache file statOk readOk = some tip) :
    tip.prevHash = tipOf (valuesOf file) ∧ tip.cache.Sound file := by
  rw [rereadTip] at htip
  split at htip
  · cases htip
  · cases htip
    have hlast : ((valuesOf file).getLast?.map hashOf).getD GENESIS_PREV = tipOf (valuesOf file) :=
      (chainTip_eq_getLast? hashOf GENESIS_PREV _).symm
    exact ⟨hlast, h.refresh hlast _ statOk⟩

/-- A call is linked to the last entry that is read from the file. -/
theorem resolveChainTip_spec {statOk readOk : Bool} {tip : Tip} (h : cache.Sound file)
    (htip : resolveChainTip cache file statOk readOk = some tip) :
    tip.prevHash = tipOf (valuesOf file) ∧ tip.cache.Sound file := by
  rw [resolveChainTip] at htip
  split at htip
  next hash index st hhash _ hst =>
    obtain ⟨f, rfl, hsize, hsound⟩ := h st hst
    simp only at htip
    split at htip
    · cases htip
    · split at htip
      next heq =>
        cases htip
        exact ⟨hsound heq hash hhash, h⟩
      next => exact rereadTip_spec h htip
  next => exact rereadTip_spec h htip

end WrongStack.Audit
