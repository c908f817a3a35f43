import WrongStack.Conversation.Message

/-!
# Loading a session

`load` and `loadEventsOnly` of `DefaultSessionStore` (`core/src/storage/session-store.ts`) on a file
that is read for the first time, with `repairToolUseAdjacency`
(`core/src/utils/message-invariants.ts`) and `extractToolCallEnds`. The lines may hold anything, so
messages keep the raw values of the events; `none` is `undefined`, or a `TypeError` where a function
may throw. What is only told to the event bus is left out. `plus` is `+` on two primitive values.
-/

namespace WrongStack.Session.Loader

open Lib
open Conversation (MessageRole)

/-! ## Values -/

/-- A property read; `null` and `undefined` have none. -/
def readProp : Option Json → JsString → Option (Option Json)
  | none, _ | some .null, _ => none
  | some v, key => some (v.get? key)

/-- `v ?? d` -/
def coalesce (v : Option Json) (d : Json) : Json :=
  match v with
  | none | some .null => d
  | some v => v

def zero : Json := .num (js "0")

/-- An object whose `toString` is its own field, and so not a function, cannot be converted. -/
def objectToString (fields : List (JsString × Json)) : Option JsString :=
  if fields.any fun f => f.1 == js "toString" then none else some (js "[object Object]")

mutual

/-- `ToString` of an element of an array that is joined. -/
def joinedText : Json → Option JsString
  | .null => some []
  | .bool b => some (if b then js "true" else js "false")
  | .num text => some text
  | .str s => some s
  | .arr items => (joinedTexts items).map (JsString.join (js ","))
  | .obj fields => objectToString fields

def joinedTexts : List Json → Option (List JsString)
  | [] => some []
  | v :: vs =>
      match joinedText v, joinedTexts vs with
      | some t, some ts => some (t :: ts)
      | _, _ => none

end

/-- `ToPrimitive` of an operand of `+`. -/
def toPrimitive : Json → Option Json
  | .arr items => (joinedText (.arr items)).map .str
  | .obj fields => (objectToString fields).map .str
  | v => some v

/-- The equality of sets. Objects of different lines are different. -/
def sameValueZero : Option Json → Option Json → Bool
  | none, none => true
  | some .null, some .null => true
  | some (.bool a), some (.bool b) => a == b
  | some (.num a), some (.num b) => a == b
  | some (.str a), some (.str b) => a == b
  | _, _ => false

def hasId (ids : List (Option Json)) (id : Option Json) : Bool := ids.any (sameValueZero id)

/-- `b.type === t` -/
def isType (t : JsString) : Json → Option Bool
  | .null => none
  | b => some (b.getString (js "type") == some t)

/-! ## Events -/

/-- An object whose `type` and `ts` are strings. -/
structure LoggedEvent where
  type : JsString
  ts : JsString
  value : Json

def LoggedEvent.field (ev : LoggedEvent) (key : String) : Option Json := ev.value.get? (js key)

def asEvent (v : Json) : Option LoggedEvent :=
  match v.getString (js "type"), v.getString (js "ts") with
  | some type, some ts => some { type, ts, value := v }
  | _, _ => none

/-- What `JSON.parse` makes of a line; `none` for a blank line and for one that is not JSON. -/
abbrev Line := Option Json

def eventsOf (lines : List Line) : List LoggedEvent := lines.filterMap fun line => line.bind asEvent

structure SessionMetadata where
  id : JsString
  startedAt : JsString
  endedAt : Option JsString
  model : Option Json
  provider : Option Json
  pendingToolUses : Option Json

def metadata (id : JsString) (events : List LoggedEvent) : SessionMetadata :=
  let start := events.find? fun ev => ev.type == js "session_start"
  let last := (events.filter fun ev => ev.type == js "session_end").getLast?
  { id
    startedAt := (start.map LoggedEvent.ts).getD (js "1970-01-01T00:00:00.000Z")
    endedAt := last.map LoggedEvent.ts
    model := start.bind fun ev => ev.field "model"
    provider := start.bind fun ev => ev.field "provider"
    pendingToolUses := last.bind fun ev => ev.field "pendingToolUses" }

structure ToolCallEnd where
  name : Option Json
  id : Option Json
  durationMs : Option Json
  ok : Json
  outputBytes : Option Json
  outputTokens : Option Json
  outputLines : Option Json

def extractToolCallEnds (events : List LoggedEvent) : List ToolCallEnd :=
  (events.filter fun ev => ev.type == js "tool_call_end").map fun ev =>
    { name := ev.field "name"
      id := ev.field "id"
      durationMs := ev.field "durationMs"
      ok := coalesce (ev.field "ok") (.bool true)
      outputBytes := match ev.field "outputBytes" with
        | none | some .null => ev.field "outputSize"
        | bytes => bytes
      outputTokens := ev.field "outputTokens"
      outputLines := ev.field "outputLines" }

/-! ## Usage -/

structure Usage where
  input : Json := zero
  output : Json := zero
  cacheRead : Json := zero
  cacheWrite : Json := zero

variable (plus : Json → Json → Json)

/-- `sum + (usage[key] ?? 0)` -/
def addField (sum : Json) (usage : Option Json) (key : String) : Option Json := do
  let v ← readProp usage (js key)
  let p ← toPrimitive (coalesce v zero)
  some (plus sum p)

def addUsage (sum : Usage) (usage : Option Json) : Option Usage := do
  let input ← addField plus sum.input usage "input"
  let output ← addField plus sum.output usage "output"
  let cacheRead ← addField plus (coalesce (some sum.cacheRead) zero) usage "cacheRead"
  let cacheWrite ← addField plus (coalesce (some sum.cacheWrite) zero) usage "cacheWrite"
  some { input, output, cacheRead, cacheWrite }

/-! ## Replay -/

structure RawMessage where
  role : MessageRole
  content : Option Json
  ts : JsString

structure Replay where
  messages : List RawMessage := []
  openToolUses : List (Option Json) := []
  usage : Usage := {}

/-- `for (const b of content)`: the ids of the `tool_use` blocks up to the one that throws, if any. -/
def addToolUses : List Json → List (Option Json) → List (Option Json) × Bool
  | [], ids => (ids, false)
  | b :: bs, ids =>
      match isType (js "tool_use") b with
      | none => (ids, true)
      | some true => addToolUses bs (if hasId ids (b.get? (js "id")) then ids else ids ++ [b.get? (js "id")])
      | some false => addToolUses bs ids

def openIn (content : Option Json) (ids : List (Option Json)) : List (Option Json) × Bool :=
  match content with
  | some (.arr items) => addToolUses items ids
  | some (.str _) => (ids, false)
  | _ => (ids, true)

/-- `blocks.every((b) => b.type === t)` -/
def everyType (t : JsString) : List Json → Option Bool
  | [] => some true
  | b :: bs =>
      match isType t b with
      | some true => everyType t bs
      | r => r

def resultBlock (ev : LoggedEvent) : Json :=
  let content := match ev.field "content" with
    | some (.str s) => some (Json.str s)
    | v => v.map fun v => .str v.stringify
  .obj ([(js "type", some (Json.str (js "tool_result"))), (js "tool_use_id", ev.field "id"),
    (js "content", content), (js "is_error", ev.field "isError")].filterMap fun f => f.2.map (f.1, ·))

-- The array that grows is one that was made here: after a `user_input` no tool use is open.
def pushResult (ev : LoggedEvent) (messages : List RawMessage) : List RawMessage × Bool :=
  let fresh := messages ++ [⟨.user, some (.arr [resultBlock ev]), ev.ts⟩]
  match messages.getLast? with
  | some ⟨.user, some (.arr items), ts⟩ =>
      match everyType (js "tool_result") items with
      | none => (messages, true)
      | some true =>
          (messages.dropLast ++ [⟨.user, some (.arr (items ++ [resultBlock ev])), ts⟩], false)
      | some false => (fresh, false)
  | _ => (fresh, false)

/-- The replay after an event, and whether its processing threw: what was done before stays done. -/
def replayEvent (st : Replay) (ev : LoggedEvent) : Replay × Bool :=
  if ev.type = js "user_input" then
    ({ st with
        openToolUses := []
        messages := st.messages ++ [{ role := .user, content := ev.field "content", ts := ev.ts }] }, false)
  else if ev.type = js "llm_response" then
    let (openToolUses, threw) := openIn (ev.field "content") st.openToolUses
    let st := { st with
      openToolUses
      messages := st.messages ++ [{ role := .assistant, content := ev.field "content", ts := ev.ts }] }
    if threw then (st, true)
    else
      match addUsage plus st.usage (ev.field "usage") with
      | none => (st, true)
      | some usage => ({ st with usage }, false)
  else if ev.type = js "tool_result" then
    if hasId st.openToolUses (ev.field "id") then
      let (messages, threw) := pushResult ev st.messages
      ({ st with
          messages
          openToolUses := st.openToolUses.filter fun id => !sameValueZero (ev.field "id") id }, threw)
    else (st, false)
  else (st, false)

def replay (events : List LoggedEvent) : Replay :=
  events.foldl (fun st ev => (replayEvent plus st ev).1) {}

/-- The usage of an events-only load. -/
def usageOf (events : List LoggedEvent) : Usage :=
  events.foldl (fun sum ev =>
    if ev.type = js "llm_response" then (addUsage plus sum (ev.field "usage")).getD sum else sum) {}

/-! ## Repair of tool adjacency -/

def contentBlocks (m : RawMessage) : List Json :=
  match m.content with
  | some (.arr items) => items
  | _ => []

/-- `blocks.some((b) => b.type === t)` -/
def hasType (t : JsString) : List Json → Option Bool
  | [] => some false
  | b :: bs =>
      match isType t b with
      | some false => hasType t bs
      | r => r

def idsOf (t key : JsString) : List Json → Option (List (Option Json))
  | [] => some []
  | b :: bs => do
      let typed ← isType t b
      let ids ← idsOf t key bs
      some (if typed then b.get? key :: ids else ids)

def toolIds (role : MessageRole) (t key : JsString) : Option RawMessage → Option (List (Option Json))
  | some m => if m.role = role then idsOf t key (contentBlocks m) else some []
  | none => some []

def toolUseIds : Option RawMessage → Option (List (Option Json)) :=
  toolIds .assistant (js "tool_use") (js "id")

def toolResultIds : Option RawMessage → Option (List (Option Json)) :=
  toolIds .user (js "tool_result") (js "tool_use_id")

def dropOrphans (t key : JsString) (ids : List (Option Json)) : List Json → Option (List Json)
  | [] => some []
  | b :: bs => do
      let typed ← isType t b
      let next ← dropOrphans t key ids bs
      some (if typed && !hasId ids (b.get? key) then next else b :: next)

structure Repairing where
  out : List RawMessage := []
  changed : Bool := false

/-- The blocks of type `t` that are not answered in `ids` are dropped; `ids` is computed only for a
message that has such a block. -/
def dropFrom (t key : JsString) (ids : Option (List (Option Json))) (msg : RawMessage) :
    Option (RawMessage × Bool) := do
  if ← hasType t (contentBlocks msg) then
    let ids ← ids
    let next ← dropOrphans t key ids (contentBlocks msg)
    some ({ msg with content := some (.arr next) }, next.length != (contentBlocks msg).length)
  else some (msg, false)

def isEmptyMessage (msg : RawMessage) : Option Bool :=
  match msg.content with
  | none | some .null => none
  | some (.str s) => some (JsString.trim s).isEmpty
  | some (.arr items) => some items.isEmpty
  | some v => some (match v.get? (js "length") with
      | some (.num text) => text == js "0"
      | _ => false)

def repairMessage (next : Option RawMessage) (r : Repairing) (original : RawMessage) :
    Option Repairing := do
  let (msg, c) ← dropFrom (js "tool_use") (js "id") (toolResultIds next) original
  let (msg, c') ← dropFrom (js "tool_result") (js "tool_use_id") (toolUseIds r.out.getLast?) msg
  if ← isEmptyMessage msg then some { r with changed := true }
  else some { out := r.out ++ [msg], changed := r.changed || c || c' }

def repairMessages : List RawMessage → Repairing → Option Repairing
  | [], r => some r
  | m :: ms, r => (repairMessage ms.head? r m).bind (repairMessages ms)

def repairToolUseAdjacency (messages : List RawMessage) : Option (List RawMessage) :=
  (repairMessages messages {}).map fun r => if r.changed then r.out else messages

/-! ## The loaders -/

structure SessionData where
  metadata : SessionMetadata
  events : List LoggedEvent
  messages : List RawMessage
  usage : Usage
  toolCallEnds : List ToolCallEnd

def load (id : JsString) (lines : List Line) : Option SessionData :=
  let events := eventsOf lines
  let st := replay plus events
  (repairToolUseAdjacency st.messages).map fun messages =>
    { metadata := metadata id events, events, messages, usage := st.usage,
      toolCallEnds := extractToolCallEnds events }

def loadEventsOnly (id : JsString) (lines : List Line) : SessionData :=
  let events := eventsOf lines
  { metadata := metadata id events, events, messages := [], usage := usageOf plus events,
    toolCallEnds := extractToolCallEnds events }

end WrongStack.Session.Loader
