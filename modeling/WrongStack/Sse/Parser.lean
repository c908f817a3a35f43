import WrongStack.Lib.Utf8

/-!
# Parsing server-sent events

`parseSSE` (`providers/src/sse.ts`) on a body given by its chunks.
-/

namespace WrongStack.Sse

open Lib Utf8

structure SSEMessage where
  event : JsString
  data : JsString
  deriving DecidableEq

inductive ParseError
  /-- SSE: pending line exceeds 262144 bytes — upstream is not framing events -/
  | pendingTooLong
  deriving DecidableEq

def MAX_BUFFER_BYTES : Nat := 256 * 1024

def CR : UInt8 := 0x0d

def LF : UInt8 := 0x0a

structure Parser where
  pending : Bytes := []
  event : JsString := js "message"
  dataLines : List JsString := []

namespace Parser

variable (p : Parser)

def flush : Option SSEMessage × Parser :=
  if p.dataLines = [] ∧ p.event = js "message" then (none, p)
  else
    (some { event := p.event, data := JsString.join (js "\n") p.dataLines },
      { p with event := js "message", dataLines := [] })

/-- The field of a line and its value; one space after the colon is not part of it. -/
def field (line : JsString) : JsString × JsString :=
  match line.dropWhile (· != unit ':') with
  | [] => (line, [])
  | _ :: value =>
      (line.takeWhile (· != unit ':'), if value.head? = some (unit ' ') then value.tail else value)

def processLine (line : JsString) : Option SSEMessage × Parser :=
  if line = [] then p.flush
  else if line.head? = some (unit ':') then (none, p)
  else
    let (name, value) := field line
    if name = js "event" then (none, { p with event := if value = [] then js "message" else value })
    else if name = js "data" then (none, { p with dataLines := p.dataLines ++ [value] })
    else (none, p)

/-- The loop over a chunk; `line` is what of the chunk comes after its last line end. -/
def scan (p : Parser) (line : Bytes) : Bytes → List SSEMessage × Parser
  | [] => ([], { p with pending := p.pending ++ line })
  | byte :: chunk =>
      if byte = LF then
        let lineBytes := if line.getLast? = some CR then line.dropLast else line
        let r := processLine { p with pending := [] } (decode (p.pending ++ lineBytes))
        let rest := scan r.2 [] chunk
        (r.1.toList ++ rest.1, rest.2)
      else scan p (line ++ [byte]) chunk

def consumeChunk (chunk : Bytes) : Except ParseError (List SSEMessage × Parser) :=
  if chunk = [] then .ok ([], p)
  else
    let r := p.scan [] chunk
    if MAX_BUFFER_BYTES < r.2.pending.length then .error .pendingTooLong else .ok r

/-- What is left at the end of the body. -/
def finish : List SSEMessage :=
  if p.pending = [] then p.flush.1.toList
  else
    let line := if p.pending.getLast? = some CR then p.pending.dropLast else p.pending
    let r := p.processLine (decode line)
    r.1.toList ++ r.2.flush.1.toList

/-- The messages, and what is thrown after them. -/
def parse (p : Parser) : List Bytes → List SSEMessage × Option ParseError
  | [] => (p.finish, none)
  | chunk :: chunks =>
      match p.consumeChunk chunk with
      | .error err => ([], some err)
      | .ok (messages, p) => (messages ++ (parse p chunks).1, (parse p chunks).2)

end Parser

def parseSSE (chunks : List Bytes) : List SSEMessage × Option ParseError := Parser.parse {} chunks

end WrongStack.Sse

/-!
# Folding oversized lines

`findJsonSafeSplit` and `createSseLineFoldingTransform` (`providers/src/sse.ts`) on a source given by its chunks.
-/

namespace WrongStack.Sse

open Lib Utf8

/-! ## `findJsonSafeSplit` -/

/-- The scan of the payload from `start` on. Positions count from there, and `0` is none. -/
structure SplitScan where
  inString : Bool := false
  escaped : Bool := false
  lastSafe : Nat := 0
  lastStringEnd : Nat := 0
  /-- How many bytes have been scanned. -/
  i : Nat := 0

namespace SplitScan

def step (s : SplitScan) (byte : UInt8) : SplitScan :=
  let s := { s with i := s.i + 1 }
  if s.inString then
    if s.escaped then { s with escaped := false }
    else if byte = 0x5c then { s with escaped := true }
    else if byte = 0x22 then { s with inString := false, lastStringEnd := s.i }
    else s
  else if byte = 0x22 then { s with inString := true }
  else if byte = 0x2c || byte = 0x7d || byte = 0x5d then { s with lastSafe := s.i }
  else s

/-- The scan goes on until the string ends. -/
def extend (s : SplitScan) : Bytes → SplitScan
  | [] => s
  | byte :: bytes => if s.inString then (s.step byte).extend bytes else s

end SplitScan

/-- The scan of what is left of the payload. -/
def splitScan (rest : Bytes) (maxLineBytes : Nat) : SplitScan :=
  let s := (rest.take maxLineBytes).foldl SplitScan.step {}
  if s.lastSafe = 0 && s.inString then s.extend ((rest.drop maxLineBytes).take 4096) else s

/-- The length of the next piece. -/
def findJsonSafeSplit (rest : Bytes) (maxLineBytes : Nat) : Nat :=
  let s := splitScan rest maxLineBytes
  if 0 < s.lastSafe then s.lastSafe
  else if 0 < s.lastStringEnd then s.lastStringEnd
  else min maxLineBytes rest.length

/-! ## The transform -/

def DATA : Bytes := [0x64, 0x61, 0x74, 0x61, 0x3a]

/-- The loop of `emitFoldedDataLine`; every turn consumes the payload, so its length bounds the turns. -/
def foldPieces (maxLineBytes : Nat) : Nat → Bytes → List Bytes
  | 0, _ => []
  | fuel + 1, rest =>
      if rest.isEmpty then []
      else
        let n := findJsonSafeSplit rest maxLineBytes
        rest.take n :: foldPieces maxLineBytes fuel (rest.drop n)

/-- The chunks that are enqueued for a line. -/
def emitLine (maxLineBytes : Nat) (line : Bytes) : List Bytes :=
  if DATA.isPrefixOf line && maxLineBytes < line.length then
    (foldPieces maxLineBytes (line.drop 5).length (line.drop 5)).flatMap fun piece => [DATA, piece, [LF]]
  else [line, [LF]]

/-- The loop over a chunk: what is enqueued, and `lineBuf` after it. `line` is what of the chunk comes after its last
line end. -/
def foldChunk (maxLineBytes : Nat) (lineBuf line : Bytes) : Bytes → List Bytes × Bytes
  | [] => ([], lineBuf ++ line)
  | byte :: chunk =>
      if byte = LF then
        let lineTail := if line.getLast? = some CR then line.dropLast else line
        let rest := foldChunk maxLineBytes [] [] chunk
        (emitLine maxLineBytes (lineBuf ++ lineTail) ++ rest.1, rest.2)
      else foldChunk maxLineBytes lineBuf (line ++ [byte]) chunk

def foldChunks (maxLineBytes : Nat) (lineBuf : Bytes) : List Bytes → List Bytes
  | [] => if lineBuf.isEmpty then [] else [lineBuf]
  | chunk :: chunks =>
      (foldChunk maxLineBytes lineBuf [] chunk).1 ++
        foldChunks maxLineBytes (foldChunk maxLineBytes lineBuf [] chunk).2 chunks

/-- The chunks of `createSseLineFoldingTransform(source, maxLineBytes)`. -/
def createSseLineFoldingTransform (maxLineBytes : Nat) (chunks : List Bytes) : List Bytes :=
  if maxLineBytes = 0 then chunks else foldChunks maxLineBytes [] chunks

end WrongStack.Sse
