import WrongStack.Lib.Json
import WrongStack.Lib.Number
import WrongStack.Lib.Run

/-!
# JSON-RPC replies

How the HTTP transports find the reply to a request in what the server sends (`mcp/src/transport.ts`). `JSON.parse` is a
parameter.
-/

namespace WrongStack.Mcp

open Lib

/-- `v.id === id` -/
def hasId (v : Json) (id : Nat) : Bool :=
  match v.get? (js "id") with
  | some (.num text) => !text.isEmpty && text.all isDigit && Decimal.natural text == id
  | _ => false

def isNotification (method : JsString) : Bool := (js "notifications/").isPrefixOf method

def isErrorObject (error : Json) : Bool :=
  match error.get? (js "code"), error.get? (js "message") with
  | some (.num _), some (.str _) => true
  | _, _ => false

def isJsonRpcResult (v : Json) : Bool :=
  v.getString (js "jsonrpc") == some (js "2.0") &&
    match v.get? (js "error") with
    | some error => isErrorObject error
    | none => (v.get? (js "result")).isSome || (v.get? (js "id")).isNone

variable (parse : JsString → Option Json)

/-! ## Bodies -/

structure Scan where
  out : List Json := []
  dataBuf : List JsString := []

def envelopes (text : JsString) : List Json := (parse text).toList.filter isJsonRpcResult

def flush (s : Scan) : Scan where
  out :=
    let joined := JsString.trim (JsString.join (js "\n") s.dataBuf)
    if joined.isEmpty then s.out else s.out ++ envelopes parse joined

def scanLine (s : Scan) (raw : JsString) : Scan :=
  let line := if raw.getLast? = some (unit '\r') then raw.dropLast else raw
  if line.isEmpty then flush parse s
  else if (js ":").isPrefixOf line then s
  else if (js "data:").isPrefixOf line then
    let v := line.drop 5
    { s with dataBuf := s.dataBuf ++ [if (js " ").isPrefixOf v then v.drop 1 else v] }
  else if (js "event:").isPrefixOf line || (js "id:").isPrefixOf line || (js "retry:").isPrefixOf line then s
  else
    -- a plain line of NDJSON
    let trimmed := JsString.trim line
    if trimmed.head? = some (unit '\x7b') || trimmed.head? = some (unit '[') then
      { s with out := s.out ++ envelopes parse trimmed }
    else s

def extractJsonRpcResults (text : JsString) : List Json :=
  (flush parse ((JsString.splitOn (unit '\n') text).foldl (scanLine parse) {})).out

/-- The envelope with the id, or the first one if there is none. -/
def pickJsonRpcResult (text : JsString) (id : Nat) : Option Json :=
  let results := extractJsonRpcResults parse text
  (results.find? (hasId · id)).or results.head?

inductive Mismatch
  | notJsonRpcEnvelope
  | idMismatch
  | missingId
  deriving DecidableEq

def assertMatchingJsonRpcResult (data : Json) (expectedId : Nat) (method : JsString) : Except Mismatch Json :=
  if !isJsonRpcResult data then .error .notJsonRpcEnvelope
  else if (data.get? (js "id")).isSome && !hasId data expectedId then .error .idMismatch
  else if (data.get? (js "id")).isNone && !isNotification method then .error .missingId
  else .ok data

end WrongStack.Mcp

/-!
# The MCP client and its transports

`request`, `failPending`, `onData` and `onLine` of `MCPClient` (`mcp/src/client.ts`) for stdio, and the posts of
`SSETransport` and `StreamableHTTPTransport` (`mcp/src/transport.ts`). A promise is known by the id of its request.
-/

namespace WrongStack.Mcp

open Lib

inductive Transport
  | stdio
  | sse
  | streamableHttp
  deriving DecidableEq

/-- Which method sends a request: `request`, the private `httpPost` or `postRaw`, or `connect` of streamable HTTP. -/
inductive Via
  | request
  | post
  | connect
  deriving DecidableEq

structure Request where
  id : Nat
  method : JsString
  via : Via
  deriving DecidableEq

inductive Rejection
  | timedOut
  | writeFailed
  | childExited
  | closed
  | fetchFailed
  | httpError
  | unparsable
  | mismatch (reason : Mismatch)
  deriving DecidableEq

inductive Settlement
  /-- The result and the error of this message. -/
  | fulfilled (message : Json)
  /-- A notification has no reply. -/
  | acknowledged
  | rejected (reason : Rejection)

/-- What comes of a post. -/
inductive Reply
  | failed
  /-- `json` says whether the content type is that of JSON. -/
  | response (ok json : Bool) (text : JsString)

structure Client where
  transport : Transport
  nextId : Nat := 1
  /-- The pending calls of stdio, the posts in flight of the others. -/
  pending : List Request := []
  /-- The timers of stdio that are running. -/
  timers : List Request := []
  rxBuffer : JsString := []
  settled : List (Request × Settlement) := []

inductive Op
  /-- `written` is false if the write to the child throws. -/
  | request (via : Via) (method : JsString) (written : Bool)
  | data (chunk : JsString) (written : Bool)
  /-- The timer of a request, or an abort of its post. -/
  | timeout (id : Nat)
  | reply (id : Nat) (reply : Reply)
  | exit
  /-- `close` comes to its end. -/
  | close

/-- The message that a transport has found, if it has found one, under `assertMatchingJsonRpcResult`. -/
def Settlement.ofMessage (data : Option Json) (expectedId : Nat) (method : JsString) : Settlement :=
  match data with
  | some data =>
      match assertMatchingJsonRpcResult data expectedId method with
      | .ok data => .fulfilled data
      | .error reason => .rejected (.mismatch reason)
  | none => .rejected .unparsable

namespace Client

variable (parse : JsString → Option Json) (s : Client)

def request (via : Via) (method : JsString) (written : Bool) : Client :=
  let r : Request := { id := s.nextId, method := method, via := via }
  match s.transport with
  | .stdio =>
      if written then { s with nextId := s.nextId + 1, pending := s.pending ++ [r], timers := s.timers ++ [r] }
      else { s with nextId := s.nextId + 1, settled := (r, .rejected .writeFailed) :: s.settled }
  | .sse | .streamableHttp => { s with nextId := s.nextId + 1, pending := s.pending ++ [r] }

/-- The request leaves the pending ones, its timer is cleared, and its promise is settled. -/
def settle (r : Request) (settlement : Settlement) : Client :=
  { s with
    pending := s.pending.filter (·.id != r.id)
    timers := s.timers.filter (·.id != r.id)
    settled := (r, settlement) :: s.settled }

def failPending (reason : Rejection) : Client :=
  { s with
    pending := []
    timers := s.timers.filter fun r => decide (r ∉ s.pending)
    settled := s.pending.reverse.map (fun r => (r, .rejected reason)) ++ s.settled }

/-- `none` when it throws. -/
def onLine (line : JsString) (written : Bool) : Option Client :=
  match parse line with
  | none => some s
  | some .null => none
  | some msg =>
      match s.pending.find? fun r => hasId msg r.id with
      | some r => some (s.settle r (.fulfilled msg))
      | none =>
          if msg.getString (js "method") = some (js "notifications/tools/list_changed") then
            some (s.request .request (js "tools/list") written)
          else some s

/-- The loop of `onData` over the lines of the buffer, of which the last is not complete. What a throw leaves stays in
the buffer. -/
def drain (written : Bool) (s : Client) : List JsString → Client
  | [] => s
  | [rest] => { s with rxBuffer := rest }
  | line :: more =>
      let trimmed := JsString.trim line
      if trimmed.isEmpty then drain written s more
      else
        match s.onLine parse trimmed written with
        | some s => drain written s more
        | none => { s with rxBuffer := JsString.join (js "\n") more }

def onData (chunk : JsString) (written : Bool) : Client :=
  drain parse written s (JsString.splitOn (unit '\n') (s.rxBuffer ++ chunk))

/-- What the promise of a post is settled with. -/
def answer (r : Request) : Reply → Settlement
  | .failed => .rejected .fetchFailed
  | .response ok json text =>
      if !ok then .rejected .httpError
      else
        match s.transport, r.via with
        | .streamableHttp, .connect =>
            let data := if json then (envelopes parse text).head? else (extractJsonRpcResults parse text).head?
            .ofMessage data (s.nextId - 1) r.method
        | .streamableHttp, .post =>
            if isNotification r.method then .acknowledged
            else .ofMessage (pickJsonRpcResult parse text r.id) r.id r.method
        | .streamableHttp, .request =>
            if isNotification r.method then .acknowledged
            else
              match pickJsonRpcResult parse text r.id with
              | some data => .fulfilled data
              | none => .rejected .unparsable
        | _, _ => .ofMessage (parse text) r.id r.method

def step (s : Client) : Op → Client
  | .request via method written => s.request via method written
  | .data chunk written =>
      match s.transport with
      | .stdio => s.onData parse chunk written
      | _ => s
  | .timeout id =>
      match s.transport with
      | .stdio =>
          match s.timers.find? (·.id == id) with
          | some r => s.settle r (.rejected .timedOut)
          | none => s
      | _ =>
          match s.pending.find? (·.id == id) with
          | some r => s.settle r (.rejected .timedOut)
          | none => s
  | .reply id reply =>
      match s.transport with
      | .stdio => s
      | _ =>
          match s.pending.find? (·.id == id) with
          | some r => s.settle r (s.answer parse r reply)
          | none => s
  | .exit =>
      match s.transport with
      | .stdio => s.failPending .childExited
      | _ => s
  | .close =>
      match s.transport with
      | .stdio => s.failPending .closed
      | _ => s

end Client

end WrongStack.Mcp
