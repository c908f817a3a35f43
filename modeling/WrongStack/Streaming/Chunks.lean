import WrongStack.Streaming.Builder

/-!
# Chunks of a chat completion

What the translators of the OpenAI wire format read of a chunk (`providers/src/openai.ts`,
`providers/src/presets/openai.ts`). A chunk is any JSON value, and so is everything in it.
-/

namespace WrongStack.Streaming

open Lib Json

/-! ## Values -/

def isTruthy (v : Option Json) : Bool := v.any Json.truthy

/-- A property that is neither `undefined` nor `null`. -/
def given (v : Json) (key : String) : Option Json :=
  match v.get? (js key) with
  | some .null => none
  | p => p

mutual

/-- `String(v)` -/
def toText : Json → JsString
  | .null => js "null"
  | .bool b => if b then js "true" else js "false"
  | .num text => text
  | .str s => s
  | .arr items => JsString.join (js ",") (itemTexts items)
  | .obj _ => js "[object Object]"

/-- `null` is empty in a join. -/
def itemTexts : List Json → List JsString
  | [] => []
  | .null :: items => [] :: itemTexts items
  | v :: items => toText v :: itemTexts items

end

/-! ## Chunks -/

section
variable (parse : JsString → Option Json)

/-- The chunk of a message, if it has one. -/
def chunkOf (data : JsString) : Option Json :=
  if data.isEmpty || data = js "[DONE]" then none else (Utils.safeParse parse data).filter Json.truthy

end

/-- `choices?.[0]` -/
def choiceOf (chunk : Json) : Option Json :=
  match given chunk "choices" with
  | some (.arr items) => items[0]?
  | some (.obj fields) => lookup fields (js "0")
  | some (.str s) => s.head?.map fun c => .str [c]
  | _ => none

def deltaOf (chunk : Json) : Option Json := (choiceOf chunk).bind fun choice => given choice "delta"

def reasoningOf (chunk : Json) : JsString :=
  match (deltaOf chunk).bind fun delta => delta.getString (js "reasoning_content") with
  | some text => text
  | none => ((deltaOf chunk).bind fun delta => delta.getString (js "reasoning")).getD []

/-- The content, if it is truthy. -/
def contentOf (chunk : Json) : Option Json := ((deltaOf chunk).bind fun delta => given delta "content").filter Json.truthy

def toolCallsOf (chunk : Json) : Option Json :=
  ((deltaOf chunk).bind fun delta => given delta "tool_calls").filter Json.truthy

def finishReasonOf (chunk : Json) : Option Json :=
  ((choiceOf chunk).bind fun choice => given choice "finish_reason").filter Json.truthy

def usageFieldOf (chunk : Json) : Option Json := (given chunk "usage").filter Json.truthy

def normalizeOpenAI (stop : Json) : StopReason :=
  match stop with
  | .str s =>
      if s = js "stop" then .endTurn
      else if s = js "tool_calls" || s = js "function_call" then .toolUse
      else if s = js "length" then .maxTokens
      else if s = js "content_filter" then .refusal
      else .endTurn
  | _ => .endTurn

/-! ## Tool calls -/

/-- A key of `toolByIndex`. An array or object is a key of its own, by the message and the fragment it comes from. -/
inductive ToolKey
  | bool (b : Bool)
  | num (text : JsString)
  | str (s : JsString)
  | object (message fragment : Nat)
  deriving DecidableEq

/-- `tc.index ?? 0` -/
def keyOf (message fragment : Nat) : Option Json → ToolKey
  | none | some .null => .num (js "0")
  | some (.bool b) => .bool b
  | some (.num text) => .num text
  | some (.str s) => .str s
  | some (.arr _) | some (.obj _) => .object message fragment

structure ToolDelta where
  key : ToolKey
  id : Option Json := none
  name : Option Json := none
  arguments : Option Json := none

def toolDelta (message fragment : Nat) (tc : Json) : ToolDelta where
  key := keyOf message fragment (tc.get? (js "index"))
  id := tc.get? (js "id")
  name := (given tc "function").bind fun f => f.get? (js "name")
  arguments := (given tc "function").bind fun f => f.get? (js "arguments")

/-- The fragments up to one that is `null`. -/
def itemDeltas (message fragment : Nat) : List Json → List ToolDelta
  | [] | .null :: _ => []
  | tc :: items => toolDelta message fragment tc :: itemDeltas message (fragment + 1) items

def codePoints : JsString → Nat
  | [] => 0
  | [_] => 1
  | hi :: lo :: rest =>
      if 0xD800 ≤ hi && hi < 0xDC00 && 0xDC00 ≤ lo && lo < 0xE000 then codePoints rest + 1
      else codePoints (lo :: rest) + 1

/-- What the loop over `tool_calls` gets to see. -/
def toolDeltas (message : Nat) : Json → List ToolDelta
  | .arr items => itemDeltas message 0 items
  | .str s => List.replicate (codePoints s) { key := keyOf message 0 none }
  | _ => []

def isNull : Json → Bool
  | .null => true
  | _ => false

/-- The loop over `tool_calls` throws: they are no list, or one of them is `null`. -/
def loopThrows : Json → Bool
  | .arr items => items.any isNull
  | .str _ => false
  | _ => true

/-- A chunk of arguments that has a length of zero. -/
def hasNoLength : Json → Bool
  | .str s => s.isEmpty
  | .arr items => items.isEmpty
  | .obj fields =>
      match lookup fields (js "length") with
      | some (.num text) => text = js "0"
      | _ => false
  | _ => false

/-- The chunk that `appendArgChunk` appends. -/
def argChunk (tc : ToolDelta) : List Json := ((tc.arguments.filter Json.truthy).filter fun v => !hasNoLength v).toList

/-! ## Arguments -/

section
variable (parse : JsString → Option Json)

def joinArgBuffer : List Json → Json
  | [chunk] => chunk
  | chunks => .str (chunks.flatMap toText)

/-- `parseToolInput` of what need not be a string: anything else that is no array whose text is that of an object makes
it throw. -/
def inputOf : Json → Option Fields
  | .str s => some (Utils.parseToolInput parse s)
  | .arr items => if Utils.maxBytes < items.length then none else Utils.asObject (parse (toText (.arr items)))
  | _ => none

end

/-! ## Usage -/

/-- What the arithmetic of JavaScript does with the values of a chunk. -/
structure Arithmetic (ν : Type) where
  ofJson : Json → ν
  zero : ν
  add : ν → ν → ν
  /-- `Math.max(0, a - b)` -/
  excess : ν → ν → ν
  truthy : ν → Bool

section
variable {ν : Type} (A : Arithmetic ν)

def orZero (v : Option Json) : ν := v.elim A.zero A.ofJson

/-- The usage after a chunk, given the tokens of the prompt if the chunk has them. -/
def usageAfter (promptTokens : Json → Option Json) (previous : Usage ν) (u : Json) : Usage ν :=
  let hit := given u "prompt_cache_hit_tokens"
  let miss := given u "prompt_cache_miss_tokens"
  let hasDeepSeekCacheFields :=
    (u.get? (js "prompt_cache_hit_tokens")).isSome || (u.get? (js "prompt_cache_miss_tokens")).isSome
  let cached := orZero A (((given u "prompt_tokens_details").bind (given · "cached_tokens")).or hit)
  let promptTotal :=
    match promptTokens u with
    | some v => A.ofJson v
    | none =>
        if hasDeepSeekCacheFields then A.add (orZero A hit) (orZero A miss) else A.add previous.input cached
  { input := miss.elim (A.excess promptTotal cached) A.ofJson
    output := (given u "completion_tokens").elim previous.output A.ofJson
    cacheRead := if A.truthy cached then some cached else previous.cacheRead }

end

end WrongStack.Streaming
