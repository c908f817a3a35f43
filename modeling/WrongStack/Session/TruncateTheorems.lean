import WrongStack.Lib.Chunks
import WrongStack.Lib.Number
import WrongStack.Session.Loader

/-!
# Truncating a session

`truncateToCheckpoint` of the session writer (`core/src/storage/file-session-writer.ts`) on what the file holds after
the buffered events have been flushed. `parse` is `JSON.parse`, `number` is `Number` on a string, and the target is the
number that the caller asks for. Errors of the file system are left out.
-/

namespace WrongStack.Session.Truncate

open Lib Utf8

def CHUNK_SIZE : Nat := 65536

variable (parse : JsString → Option Json) (number : JsString → JsNumber) (target : JsNumber)

/-! ## Comparing a prompt index -/

/-- A primitive value as a number. -/
def toNumber : Json → JsNumber
  | .null => .finite 0
  | .bool b => .finite (if b then 1 else 0)
  | .num text => .finite (Double.ofText text)
  | .str s => number s
  | .arr _ | .obj _ => .nan

/-- `promptIndex === targetPromptIndex` -/
def isTarget : Json → Bool
  | .num text => JsNumber.finite (Double.ofText text) = target
  | _ => false

/-- `promptIndex > targetPromptIndex`; `none` where the value cannot be converted. -/
def isLarger (promptIndex : Json) : Option Bool :=
  (Loader.toPrimitive promptIndex).map fun v => (toNumber number v).exceeds target

/-! ## Looking for the checkpoint -/

structure Found where
  checkpointByteOffset : Option Nat := none
  removedCount : Nat := 0
  deriving DecidableEq

namespace Found

variable (f : Found) (lineStartOffset : Nat)

/-- An event before the checkpoint; `none` where it throws. The flag `targetCheckpointSeen` only tells apart branches
that do the same. -/
def event (event : Json) : Option Found :=
  match Loader.isType (js "checkpoint") event, event.get? (js "promptIndex") with
  | none, _ => none
  | some true, none => some f
  | some true, some promptIndex =>
      if isTarget target promptIndex then some { f with checkpointByteOffset := some lineStartOffset }
      else (isLarger number target promptIndex).map fun larger =>
        if larger then { f with checkpointByteOffset := some lineStartOffset } else f
  | some false, none => some { f with removedCount := f.removedCount + 1 }
  | some false, some promptIndex => (isLarger number target promptIndex).map fun larger =>
      if larger then { f with removedCount := f.removedCount + 1 } else f

def line (lineBytes : Bytes) : Found :=
  if f.checkpointByteOffset.isSome then { f with removedCount := f.removedCount + 1 }
  else
    let line := decode lineBytes
    if (JsString.trim line).isEmpty then f
    else match parse line with
      | some event => (f.event number target lineStartOffset event).getD f
      | none => f

end Found

def scan (bytes : Bytes) : Found :=
  ((chunks CHUNK_SIZE bytes).foldl (LineScan.chunk (Found.line parse number target)) { found := {} }).found

/-! ## Rewriting the file -/

/-- The end of the line that is kept last. -/
def newlineAfterCheckpoint (bytes : Bytes) (prefixBytes : Nat) : Nat :=
  if prefixBytes < bytes.length then
    match ((bytes.drop prefixBytes).take CHUNK_SIZE).findIdx? (· == newlineByte) with
    | some nl => prefixBytes + nl + 1
    | none => bytes.length
  else bytes.length

def isMalformed (line : JsString) : Bool := !(JsString.trim line).isEmpty && (parse line).isNone

/-- The lines of the tail that are written again. -/
def preserve (tail : Bytes) : List JsString :=
  let visit (kept : List JsString) (line : JsString) := if isMalformed parse line then kept ++ [line] else kept
  let s := ((chunks CHUNK_SIZE tail).map (decodeFrom none)).foldl (TextScan.part visit) { found := [] }
  visit s.found s.leftover

structure Rewritten where
  kept : Bytes
  preserved : List JsString
  removedCount : Nat
  deriving DecidableEq

/-- `none` if the file stays as it is; then the result is zero. -/
def truncateToCheckpoint (bytes : Bytes) : Option Rewritten :=
  let found := scan parse number target bytes
  found.checkpointByteOffset.map fun prefixBytes =>
    let cut := newlineAfterCheckpoint bytes prefixBytes
    { kept := bytes.take cut
      preserved := preserve parse (bytes.drop cut)
      removedCount := found.removedCount }

end WrongStack.Session.Truncate

/-!
# What a truncation sees

The scan goes by the last pieces of the lines; the first of them that reads as a checkpoint of the target or of a later
prompt decides where the file is cut.
-/

namespace WrongStack.Session.Truncate

open Lib Utf8 JsString

variable (parse : JsString → Option Json) (number : JsString → JsNumber) (target : JsNumber)

/-! ## Lines -/

/-- A checkpoint of the target, or of a later prompt. -/
inductive Mark
  | target | larger
  deriving DecidableEq

def markEvent (event : Json) : Option Mark :=
  match Loader.isType (js "checkpoint") event, event.get? (js "promptIndex") with
  | some true, some promptIndex =>
      if isTarget target promptIndex then some .target
      else if isLarger number target promptIndex = some true then some .larger
      else none
  | _, _ => none

/-- An event that counts as removed wherever it stands. -/
def countsEvent (event : Json) : Bool :=
  match Loader.isType (js "checkpoint") event, event.get? (js "promptIndex") with
  | some false, none => true
  | some false, some promptIndex => isLarger number target promptIndex = some true
  | _, _ => false

def eventOf (line : Bytes) : Option Json := if (trim (decode line)).isEmpty then none else parse (decode line)

def mark (line : Bytes) : Option Mark := (eventOf parse line).bind (markEvent number target)

def counts (line : Bytes) : Bool := (eventOf parse line).any (countsEvent number target)

variable {parse number target} {f : Found} {start : Nat} {line : Bytes} {lines lb la : List Bytes}

theorem event_eq (event : Json) :
    (f.event number target start event).getD f =
      if (markEvent number target event).isSome then { f with checkpointByteOffset := some start }
      else { f with removedCount := f.removedCount + if countsEvent number target event then 1 else 0 } := by
  unfold Found.event markEvent countsEvent
  cases htype : Loader.isType (js "checkpoint") event with
  | none => simp
  | some checkpoint =>
      cases hindex : event.get? (js "promptIndex") with
      | none => cases checkpoint <;> simp
      | some promptIndex =>
          have hlarger : isLarger number target promptIndex = none ∨ isLarger number target promptIndex = some true ∨
              isLarger number target promptIndex = some false := by
            cases isLarger number target promptIndex with
            | none => exact .inl rfl
            | some larger => cases larger <;> simp
          rcases hlarger with hlarger | hlarger | hlarger <;> cases htarget : isTarget target promptIndex <;>
            cases checkpoint <;> simp [hlarger, htarget]

theorem line_eq (hf : f.checkpointByteOffset = none) :
    f.line parse number target start line =
      if (mark parse number target line).isSome then { f with checkpointByteOffset := some start }
      else { f with removedCount := f.removedCount + if counts parse number target line then 1 else 0 } := by
  obtain ⟨offset, removedCount⟩ := f
  obtain rfl : offset = none := hf
  unfold Found.line mark counts eventOf
  simp only [Option.isSome_none, Bool.false_eq_true, if_false]
  by_cases hblank : (trim (decode line)).isEmpty = true
  · simp only [if_pos hblank]
    simp
  · simp only [if_neg hblank]
    cases parse (decode line) with
    | none => simp
    | some event => simp [event_eq]

/-! ## The scan -/

variable {ps before after : List Piece} {p : Piece}

theorem foldl_found (hf : f.checkpointByteOffset.isSome = true) :
    ps.foldl (LineScan.visitPiece (Found.line parse number target)) f =
      { f with removedCount := f.removedCount + ps.length } := by
  induction ps generalizing f with
  | nil => rfl
  | cons p ps ih =>
      have hstep : LineScan.visitPiece (Found.line parse number target) f p =
          { f with removedCount := f.removedCount + 1 } := if_pos hf
      rw [List.foldl_cons, hstep, ih (by exact hf), List.length_cons]
      simp only [Nat.add_assoc, Nat.add_comm 1]

theorem foldl_unmarked (hf : f.checkpointByteOffset = none)
    (hps : ∀ p ∈ ps, mark parse number target p.bytes = none) :
    ps.foldl (LineScan.visitPiece (Found.line parse number target)) f =
      { f with removedCount := f.removedCount + ps.countP fun p => counts parse number target p.bytes } := by
  induction ps generalizing f with
  | nil => rfl
  | cons p ps ih =>
      have hp := hps p List.mem_cons_self
      have hstep : LineScan.visitPiece (Found.line parse number target) f p =
          { f with removedCount := f.removedCount + if counts parse number target p.bytes then 1 else 0 } := by
        rw [LineScan.visitPiece, line_eq hf, hp]
        rfl
      rw [List.foldl_cons, hstep, ih (by exact hf) fun q hq => hps q (List.mem_cons_of_mem p hq), List.countP_cons]
      simp only [Nat.add_assoc, Nat.add_comm (List.countP _ ps)]

/-- The scan stops at the first piece that is marked. -/
theorem foldl_marked (hf : f.checkpointByteOffset = none)
    (hbefore : ∀ q ∈ before, mark parse number target q.bytes = none)
    (hp : (mark parse number target p.bytes).isSome = true) :
    (before ++ p :: after).foldl (LineScan.visitPiece (Found.line parse number target)) f =
      { checkpointByteOffset := some p.start
        removedCount := f.removedCount + (before.countP fun q => counts parse number target q.bytes) + after.length } := by
  rw [List.foldl_append, foldl_unmarked hf hbefore, List.foldl_cons, LineScan.visitPiece, line_eq (by exact hf),
    if_pos hp, foldl_found rfl]

theorem exists_first_marked (ps : List Piece) :
    (∀ q ∈ ps, mark parse number target q.bytes = none) ∨ ∃ before p after, ps = before ++ p :: after ∧
      (∀ q ∈ before, mark parse number target q.bytes = none) ∧ (mark parse number target p.bytes).isSome = true := by
  cases hfind : ps.find? fun q => (mark parse number target q.bytes).isSome with
  | none =>
      left
      intro q hq
      simpa using List.find?_eq_none.mp hfind q hq
  | some p =>
      obtain ⟨hp, before, after, rfl, hbefore⟩ := List.find?_eq_some_iff_append.mp hfind
      exact .inr ⟨before, p, after, rfl, fun q hq => by simpa using hbefore q hq, hp⟩

theorem scan_joinLines (hlines : ∀ l ∈ lines, newlineByte ∉ l) :
    scan parse number target (joinLines lines) =
      (pieces CHUNK_SIZE 0 lines).foldl (LineScan.visitPiece (Found.line parse number target)) {} :=
  LineScan.foldl_chunk_start _ (by decide) hlines _

/-! ## The cut -/

/-- How many lines are kept after the scan has stopped at a line. -/
def keptAfter (lb : List Bytes) (line : Bytes) (la : List Bytes) : Nat :=
  let p := pieceOf CHUNK_SIZE (joinLines lb).length line
  if p.newline - p.start < CHUNK_SIZE then lb.length + 1 else (lb ++ line :: la).length

theorem keptAfter_le : keptAfter lb line la ≤ (lb ++ line :: la).length := by
  simp only [keptAfter, List.length_append, List.length_cons]
  split <;> omega

theorem newlineAfterCheckpoint_eq (hline : newlineByte ∉ line) :
    newlineAfterCheckpoint (joinLines (lb ++ line :: la)) (pieceOf CHUNK_SIZE (joinLines lb).length line).start =
      (joinLines ((lb ++ line :: la).take (keptAfter lb line la))).length := by
  obtain ⟨hge, hle⟩ := pieceOf_start_le CHUNK_SIZE (joinLines lb).length line
  obtain ⟨d, hd⟩ : ∃ d, (pieceOf CHUNK_SIZE (joinLines lb).length line).start = (joinLines lb).length + d :=
    ⟨_, (Nat.add_sub_of_le hge).symm⟩
  have hnewline : (pieceOf CHUNK_SIZE (joinLines lb).length line).newline = (joinLines lb).length + line.length := rfl
  have hlength : (joinLines (lb ++ line :: la)).length =
      (joinLines lb).length + (line.length + 1 + (joinLines la).length) := by
    rw [joinLines_append, List.length_append, length_joinLines_cons]
  have hdrop : (joinLines (lb ++ line :: la)).drop ((joinLines lb).length + d) =
      line.drop d ++ newlineByte :: joinLines la := by
    rw [joinLines_append, List.drop_length_add_append, joinLines_cons, List.drop_append_of_le_length (by omega)]
  have hfree : newlineByte ∉ line.drop d := fun hmem => hline (List.mem_of_mem_drop hmem)
  rw [newlineAfterCheckpoint, keptAfter, hnewline, hd, if_pos (by omega), hdrop, findIdx?_newline hfree, List.length_drop]
  have hspan : (joinLines lb).length + line.length - ((joinLines lb).length + d) = line.length - d := by omega
  rw [hspan]
  by_cases hnear : line.length - d < CHUNK_SIZE
  · rw [if_pos hnear, if_pos hnear]
    have htake : (lb ++ line :: la).take (lb.length + 1) = lb ++ [line] := by
      rw [List.take_length_add_append, List.take_succ_cons, List.take_zero]
    have hkept : (joinLines (lb ++ [line])).length = (joinLines lb).length + (line.length + 1) := by
      rw [joinLines_append, List.length_append, length_joinLines_cons]
      rfl
    rw [htake, hkept]
    dsimp only
    omega
  · rw [if_neg hnear, if_neg hnear, List.take_length]

/-! ## The tail -/

/-- The text of a tail that is decoded buffer by buffer. -/
def tailText (tail : Bytes) : JsString := ((chunks CHUNK_SIZE tail).map (decodeFrom none)).flatten

theorem preserve_eq (tail : Bytes) :
    preserve parse tail = (splitOn (unit '\n') (tailText tail)).filter (isMalformed parse) := by
  have hfilter : ∀ (texts kept : List JsString),
      texts.foldl (fun kept line => if isMalformed parse line then kept ++ [line] else kept) kept =
        kept ++ texts.filter (isMalformed parse) := by
    intro texts
    induction texts with
    | nil => simp
    | cons text texts ih =>
        intro kept
        rw [List.foldl_cons, ih, List.filter_cons]
        split <;> simp
  have hne := splitOn_ne_nil (unit '\n') (tailText tail)
  have hlast := List.dropLast_append_getLast hne
  have hparts := TextScan.foldl_part
    (fun (kept : List JsString) line => if isMalformed parse line then kept ++ [line] else kept)
    (s := { found := [] }) List.not_mem_nil ((chunks CHUNK_SIZE tail).map (decodeFrom none))
  have htext : ((chunks CHUNK_SIZE tail).map (decodeFrom none)).flatten = tailText tail := rfl
  rw [preserve]
  dsimp only
  rw [hparts, htext, TextScan.part, List.nil_append, List.getLast?_eq_some_getLast hne, hfilter, List.nil_append]
  dsimp only [Option.getD_some]
  conv_rhs => rw [← hlast, List.filter_append, List.filter_cons, List.filter_nil]
  split
  · rfl
  · rw [List.append_nil]

/-! ## The result -/

theorem truncate_unmarked (hlines : ∀ l ∈ lines, newlineByte ∉ l)
    (h : ∀ p ∈ pieces CHUNK_SIZE 0 lines, mark parse number target p.bytes = none) :
    truncateToCheckpoint parse number target (joinLines lines) = none := by
  rw [truncateToCheckpoint, scan_joinLines hlines, foldl_unmarked rfl h]
  rfl

theorem truncate_marked (hlines : ∀ l ∈ lb ++ line :: la, newlineByte ∉ l)
    (hbefore : ∀ p ∈ pieces CHUNK_SIZE 0 lb, mark parse number target p.bytes = none)
    (hmark : (mark parse number target (pieceOf CHUNK_SIZE (joinLines lb).length line).bytes).isSome = true) :
    truncateToCheckpoint parse number target (joinLines (lb ++ line :: la)) =
      some
        { kept := joinLines ((lb ++ line :: la).take (keptAfter lb line la))
          preserved := preserve parse (joinLines ((lb ++ line :: la).drop (keptAfter lb line la)))
          removedCount :=
            ((pieces CHUNK_SIZE 0 lb).countP fun p => counts parse number target p.bytes) + la.length } := by
  have hline := hlines line (List.mem_append_right lb List.mem_cons_self)
  have hscan : scan parse number target (joinLines (lb ++ line :: la)) =
      { checkpointByteOffset := some (pieceOf CHUNK_SIZE (joinLines lb).length line).start
        removedCount := ((pieces CHUNK_SIZE 0 lb).countP fun p => counts parse number target p.bytes) + la.length } := by
    rw [scan_joinLines hlines, pieces_append, pieces, Nat.zero_add, foldl_marked rfl hbefore hmark, length_pieces,
      Nat.zero_add]
  have hwhole : joinLines (lb ++ line :: la) = joinLines ((lb ++ line :: la).take (keptAfter lb line la)) ++
      joinLines ((lb ++ line :: la).drop (keptAfter lb line la)) := by
    rw [← joinLines_append, List.take_append_drop]
  rw [truncateToCheckpoint, hscan]
  dsimp only [Option.map_some]
  rw [newlineAfterCheckpoint_eq hline]
  conv_lhs => rw [hwhole, List.take_left, List.drop_left]

end WrongStack.Session.Truncate

/-!
# Theorems about truncating a session
-/

namespace WrongStack.Session.Truncate

open Lib Utf8 JsString

section Statements

variable (parse : JsString → Option Json) (number : JsString → JsNumber) (target : JsNumber)

/-- How many lines are to be kept: those up to the checkpoint of the target, or those before the first checkpoint of a
later prompt, whichever comes first. -/
def keptLines : List Bytes → Option Nat
  | [] => none
  | line :: lines =>
      match mark parse number target line with
      | some .target => some 1
      | some .larger => some 0
      | none => (keptLines lines).map (· + 1)

def malformedLine (line : Bytes) : Bool := isMalformed parse (decodeFrom none line)

/-- The file is cut by lines, and the malformed lines of the rest are written again. -/
def RewindsByLines (lines : List Bytes) (result : Option Rewritten) : Prop :=
  match keptLines parse number target lines with
  | none => result = none
  | some k => ∃ r, result = some r ∧ r.kept = joinLines (lines.take k) ∧
      r.preserved.map encode = (lines.drop k).filter (malformedLine parse)

/-- The first line whose last piece is marked is the one after which `k` lines are kept. -/
def Cuts (lines : List Bytes) (k : Nat) : Prop :=
  ∃ lb line la, lines = lb ++ line :: la ∧
    (∀ p ∈ pieces CHUNK_SIZE 0 lb, mark parse number target p.bytes = none) ∧
    (mark parse number target (pieceOf CHUNK_SIZE (joinLines lb).length line).bytes).isSome = true ∧
    k = keptAfter lb line la

/-- The malformed lines of a tail are not changed where it is decoded buffer by buffer, and no other line becomes
malformed. -/
def TailIntact (tail : List Bytes) : Prop :=
  ((splitOn (unit '\n') (tailText (joinLines tail))).filter (isMalformed parse)).map encode =
    tail.filter (malformedLine parse)

end Statements

variable {parse : JsString → Option Json} {number : JsString → JsNumber} {target : JsNumber} {lines : List Bytes}

theorem keptLines_le {k : Nat} (h : keptLines parse number target lines = some k) : k ≤ lines.length := by
  induction lines generalizing k with
  | nil => cases h
  | cons line lines ih =>
      rw [keptLines] at h
      rw [List.length_cons]
      split at h
      · cases h
        omega
      · cases h
        omega
      · obtain ⟨k, hk, rfl⟩ := Option.map_eq_some_iff.mp h
        exact Nat.succ_le_succ (ih hk)

def checkpointText (index : String) : JsString :=
  js "\x7b\"type\":\"checkpoint\",\"ts\":\"t\",\"promptIndex\":" ++ js index ++ js "\x7d"

def startText : JsString := js "\x7b\"type\":\"session_start\",\"ts\":\"t\"\x7d"

/-- `JSON.parse` on the lines of the examples. -/
def sampleParse (text : JsString) : Option Json :=
  let checkpoint (index : String) : Json :=
    .obj [(js "type", .str (js "checkpoint")), (js "ts", .str (js "t")), (js "promptIndex", .num (js index))]
  if text = checkpointText "0" then some (checkpoint "0")
  else if text = checkpointText "1" then some (checkpoint "1")
  else if text = startText then some (.obj [(js "type", .str (js "session_start")), (js "ts", .str (js "t"))])
  else none

def laterLines : List Bytes := [encode (checkpointText "1")]

section Statements

variable (parse : JsString → Option Json)

def isEventText (text : JsString) : Bool := !(trim text).isEmpty && ((parse text).bind Loader.asEvent).isSome

def isEventLine (line : Bytes) : Bool := isEventText parse (decodeFrom none line)

/-- How many events the file holds afterwards, without the one that is appended. -/
def eventsAfter (lines : List Bytes) : Option Rewritten → Nat
  | none => lines.countP (isEventLine parse)
  | some r => (splitLines r.kept).1.countP (isEventLine parse) + r.preserved.countP (isEventText parse)

/-- The count that is returned is the number of events that are gone. -/
def ReportsRemoved (lines : List Bytes) (result : Option Rewritten) : Prop :=
  (result.map Rewritten.removedCount).getD 0 + eventsAfter parse lines result = lines.countP (isEventLine parse)

/-- An event without a byte order mark. -/
def ValidLine (line : Bytes) : Prop := isEventLine parse line = true ∧ decode line = decodeFrom none line

/-- Each line lies in one buffer, its newline included. -/
def InsideBuffers (lines : List Bytes) : Prop :=
  ∀ lb line la, lines = lb ++ line :: la →
    (joinLines lb).length / CHUNK_SIZE = ((joinLines lb).length + line.length) / CHUNK_SIZE

end Statements

theorem InsideBuffers.bytes (h : InsideBuffers lines) : (pieces CHUNK_SIZE 0 lines).map Piece.bytes = lines := by
  apply pieces_inside
  intro lb line la hsplit
  rw [Nat.zero_add]
  exact h lb line la hsplit

theorem InsideBuffers.before {lb la : List Bytes} {line : Bytes} (h : InsideBuffers (lb ++ line :: la)) :
    InsideBuffers lb := by
  intro lb' line' la' hsplit
  exact h lb' line' (la' ++ line :: la) (by rw [hsplit, List.append_assoc, List.cons_append])

/-- Of a file that is cut behind a line, the events up to that line are left. -/
theorem eventsAfter_marked {lb la : List Bytes} {line : Bytes} {removedCount : Nat}
    (hlines : ∀ l ∈ lb ++ line :: la, newlineByte ∉ l) (hvalid : ∀ l ∈ lb ++ line :: la, ValidLine parse l)
    (hinside : InsideBuffers (lb ++ line :: la)) :
    eventsAfter parse (lb ++ line :: la)
        (some
          { kept := joinLines ((lb ++ line :: la).take (keptAfter lb line la))
            preserved := preserve parse (joinLines ((lb ++ line :: la).drop (keptAfter lb line la)))
            removedCount }) =
      lb.length + 1 := by
  have hspan := hinside lb line la rfl
  have hnear : keptAfter lb line la = lb.length + 1 := by
    have hsize : 0 < CHUNK_SIZE := by decide
    have hlower := Nat.div_mul_le_self (joinLines lb).length CHUNK_SIZE
    have hupper := Nat.lt_div_mul_add (a := (joinLines lb).length + line.length) hsize
    rw [← hspan] at hupper
    rw [keptAfter, pieceOf_inside hspan]
    exact if_pos (by dsimp only; omega)
  have hmalformed : (preserve parse (joinLines ((lb ++ line :: la).drop (keptAfter lb line la)))).countP
      (isEventText parse) = 0 := by
    rw [List.countP_eq_zero]
    intro text htext
    rw [preserve_eq, List.mem_filter, isMalformed, Bool.and_eq_true, Option.isNone_iff_eq_none] at htext
    simp [isEventText, htext.2.2]
  have htake : (lb ++ line :: la).take (lb.length + 1) = lb ++ [line] := by
    rw [List.take_length_add_append, List.take_succ_cons, List.take_zero]
  have hsub : ∀ l ∈ lb ++ [line], l ∈ lb ++ line :: la := by
    intro l hl
    rw [← htake] at hl
    exact List.mem_of_mem_take hl
  have hsplit : (splitLines (joinLines (lb ++ [line]))).1 = lb ++ [line] := by
    have hjoin := splitLines_joinLines (fun l hl => hlines l (hsub l hl)) (List.not_mem_nil (a := newlineByte))
    rw [List.append_nil] at hjoin
    rw [hjoin]
  have hall : (lb ++ [line]).countP (isEventLine parse) = (lb ++ [line]).length :=
    List.countP_eq_length.mpr fun l hl => (hvalid l (hsub l hl)).1
  rw [eventsAfter, hmalformed, hnear, htake, hsplit, hall, List.length_append, List.length_singleton]

/-- What is returned is the number of events that are gone if and only if no event before the first checkpoint of the
target or of a later prompt counts as removed where it stands. -/
theorem removedCount_iff (parse : JsString → Option Json) (number : JsString → JsNumber) (target : JsNumber)
    (lines : List Bytes) (hlines : ∀ l ∈ lines, newlineByte ∉ l) (hvalid : ∀ l ∈ lines, ValidLine parse l)
    (hinside : InsideBuffers lines) :
    ReportsRemoved parse lines (truncateToCheckpoint parse number target (joinLines lines)) ↔
      ∀ lb line la, lines = lb ++ line :: la → (∀ l ∈ lb, mark parse number target l = none) →
        (mark parse number target line).isSome = true → ∀ l ∈ lb, counts parse number target l = false := by
  have hmarked : ∀ lb line la, lines = lb ++ line :: la → (∀ l ∈ lb, mark parse number target l = none) →
      (mark parse number target line).isSome = true →
      (ReportsRemoved parse lines (truncateToCheckpoint parse number target (joinLines lines)) ↔
        ∀ l ∈ lb, counts parse number target l = false) := by
    rintro lb line la rfl hlb hline
    have hbytes := hinside.before.bytes
    have hbefore : ∀ p ∈ pieces CHUNK_SIZE 0 lb, mark parse number target p.bytes = none := by
      intro p hp
      apply hlb
      rw [← hbytes]
      exact List.mem_map_of_mem hp
    have hcount : ((pieces CHUNK_SIZE 0 lb).countP fun p => counts parse number target p.bytes) =
        lb.countP (counts parse number target) := by
      conv_rhs => rw [← hbytes, List.countP_map]
      rfl
    have hpiece : (mark parse number target (pieceOf CHUNK_SIZE (joinLines lb).length line).bytes).isSome = true := by
      rw [pieceOf_inside (hinside lb line la rfl)]
      exact hline
    have hall : (lb ++ line :: la).countP (isEventLine parse) = (lb ++ line :: la).length :=
      List.countP_eq_length.mpr fun l hl => (hvalid l hl).1
    rw [ReportsRemoved, truncate_marked hlines hbefore hpiece, eventsAfter_marked hlines hvalid hinside, hcount, hall,
      Option.map_some, Option.getD_some, List.length_append, List.length_cons]
    have hzero : lb.countP (counts parse number target) + la.length + (lb.length + 1) = lb.length + (la.length + 1) ↔
        lb.countP (counts parse number target) = 0 := by omega
    rw [hzero, List.countP_eq_zero]
    simp only [Bool.not_eq_true]
  constructor
  · intro h lb line la hsplit hlb hline
    exact (hmarked lb line la hsplit hlb hline).mp h
  · intro h
    rcases exists_first_marked (pieces CHUNK_SIZE 0 lines) with hnone | ⟨before, p, after, hps, hbefore, hp⟩
    · rw [truncate_unmarked hlines hnone]
      exact Nat.zero_add _
    · obtain ⟨lb, line, la, hsplit, rfl, rfl, -⟩ := pieces_split hps
      rw [Nat.zero_add] at hp
      have hbytes := (hsplit ▸ hinside).before.bytes
      have hlb : ∀ l ∈ lb, mark parse number target l = none := by
        intro l hl
        rw [← hbytes] at hl
        obtain ⟨q, hq, rfl⟩ := List.mem_map.mp hl
        exact hbefore q hq
      rw [pieceOf_inside (hinside lb line la hsplit)] at hp
      exact (hmarked lb line la hsplit hlb hp).mpr (h lb line la hsplit hlb hp)

/-! ## A start that is counted -/

def startedLines : List Bytes := [encode startText, encode (checkpointText "0")]

theorem started_inside : InsideBuffers startedLines := by
  rintro lb line la hsplit
  have hlength : (joinLines lb).length + line.length < (joinLines startedLines).length := by
    rw [hsplit, joinLines_append, List.length_append, length_joinLines_cons]
    omega
  have htotal : (joinLines startedLines).length < CHUNK_SIZE := by decide +kernel
  rw [Nat.div_eq_of_lt (show (joinLines lb).length < CHUNK_SIZE by omega),
    Nat.div_eq_of_lt (show (joinLines lb).length + line.length < CHUNK_SIZE by omega)]

theorem removedCount_iff_started :
    ReportsRemoved sampleParse startedLines
        (truncateToCheckpoint sampleParse (fun _ => .nan) (.finite 0) (joinLines startedLines)) ↔
      ∀ lb line la, startedLines = lb ++ line :: la →
        (∀ l ∈ lb, mark sampleParse (fun _ => .nan) (.finite 0) l = none) →
        (mark sampleParse (fun _ => .nan) (.finite 0) line).isSome = true →
        ∀ l ∈ lb, counts sampleParse (fun _ => .nan) (.finite 0) l = false :=
  removedCount_iff sampleParse (fun _ => .nan) (.finite 0) startedLines (by decide +kernel)
    (by
      intro l hl
      rcases List.mem_cons.mp hl with rfl | hrest
      · exact ⟨by decide +kernel, by decide +kernel⟩
      · rw [List.mem_singleton.mp hrest]
        exact ⟨by decide +kernel, by decide +kernel⟩)
    started_inside

/-- Nothing is removed, and one event is reported. -/
theorem removedCount_counts_start :
    ¬ ReportsRemoved sampleParse startedLines
      (truncateToCheckpoint sampleParse (fun _ => .nan) (.finite 0) (joinLines startedLines)) := by
  unfold ReportsRemoved
  decide +kernel

end WrongStack.Session.Truncate
