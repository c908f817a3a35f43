import WrongStack.Lib.JsMap
import WrongStack.Utils.JsonRepair

/-!
# Stream events and responses

The canonical events of a provider's stream and the response they add up to (`core/src/types/provider.ts`,
`core/src/types/blocks.ts`). `α` is what a text, an id or a name is, which the wire does not check, and `ν` an amount
of tokens.
-/

namespace WrongStack.Streaming

open Lib Json

inductive StopReason
  | endTurn | toolUse | maxTokens | stopSequence | refusal
  deriving DecidableEq

structure Usage (ν : Type) where
  input : ν
  output : ν
  cacheRead : Option ν := none
  cacheWrite : Option ν := none
  cacheWrite5m : Option ν := none
  cacheWrite1h : Option ν := none
  deriving DecidableEq

inductive StreamEvent (α ν : Type)
  | messageStart (model : α)
  | textDelta (text : α)
  | toolUseStart (id name : α)
  | toolUseInputDelta (id part : α)
  /-- Without `input`, the parts are parsed. -/
  | toolUseStop (id : α) (input : Option Json) (providerMeta : Option Fields)
  | thinkingStart (providerMeta : Option Fields)
  | thinkingDelta (text : α)
  | thinkingSignature (signature : α)
  | thinkingStop
  | messageStop (stopReason : StopReason) (usage : Usage ν)

inductive ContentBlock
  | text (text : JsString)
  | toolUse (id name : JsString) (input : Json) (providerMeta : Option Fields)
  | thinking (thinking : JsString) (signature : Option JsString) (providerMeta : Option Fields)

structure Response (ν : Type) where
  content : List ContentBlock
  stopReason : StopReason
  usage : Usage ν
  model : JsString

/-- An entry of `blockOrder`. -/
inductive BlockRef
  | text (idx : Nat)
  | tool (id : JsString)
  | thinking (idx : Nat)
  deriving DecidableEq

structure ToolEntry where
  name : JsString
  partialJson : JsString := []
  input : Option Json := none
  providerMeta : Option Fields := none

/-- Metadata without a key is not put into a block. -/
def shownMeta (providerMeta : Option Fields) : Option Fields := providerMeta.filter fun fields => !fields.isEmpty

/-- A signature that is empty is not put into a block. -/
def shownSignature (signature : Option JsString) : Option JsString := signature.filter fun s => !s.isEmpty

end WrongStack.Streaming

/-!
# The streaming builder

`core/src/core/streaming-response-builder.ts`: the handlers of events and `buildResponse`.
-/

namespace WrongStack.Streaming

open Lib Json

structure ThinkingEntry where
  textBuf : JsString := []
  signature : Option JsString := none
  providerMeta : Option Fields := none

structure StreamingState (ν : Type) where
  model : JsString
  stopReason : StopReason := .endTurn
  usage : Usage ν
  textBuffers : List JsString := []
  currentTextIndex : Option Nat := none
  tools : JsMap JsString ToolEntry := .empty
  thinking : List ThinkingEntry := []
  currentThinkingIndex : Option Nat := none
  blockOrder : List BlockRef := []

/-- `input ?? {}` -/
def inputOrEmpty : Option Json → Json
  | none | some .null => .obj []
  | some v => v

/-- What an entry of the order shows, if anything. -/
def StreamingState.block {ν : Type} (state : StreamingState ν) : BlockRef → Option ContentBlock
  | .text idx =>
      let txt := (state.textBuffers[idx]?).getD []
      if txt.isEmpty then none else some (.text txt)
  | .thinking idx =>
      match state.thinking[idx]? with
      | none => none
      | some t =>
          if t.textBuf.isEmpty && (shownSignature t.signature).isNone then none
          else some (.thinking t.textBuf (shownSignature t.signature) (shownMeta t.providerMeta))
  | .tool id =>
      (state.tools.get? id).map fun tb => .toolUse id tb.name (inputOrEmpty tb.input) (shownMeta tb.providerMeta)

/-- A response is never without a block. -/
def orEmptyText (content : List ContentBlock) : List ContentBlock := if content.isEmpty then [.text []] else content

section
variable {ν : Type} (state : StreamingState ν)

def buildResponse : Response ν where
  content := orEmptyText (state.blockOrder.filterMap state.block)
  stopReason := state.stopReason
  usage := state.usage
  model := state.model

def createStreamingState [Zero ν] (model : JsString) : StreamingState ν where
  model := model
  usage := { input := 0, output := 0 }

def handleMessageStart (model : JsString) : StreamingState ν := { state with model }

/-- A block of text begins. -/
def openText : StreamingState ν :=
  { state with
    currentTextIndex := some state.textBuffers.length
    textBuffers := state.textBuffers ++ [[]]
    blockOrder := state.blockOrder ++ [.text state.textBuffers.length] }

def handleTextDelta (text : JsString) : StreamingState ν :=
  let state := if state.currentTextIndex.isNone then openText state else state
  match state.currentTextIndex with
  | some idx => { state with textBuffers := state.textBuffers.modify idx (· ++ text) }
  | none => state

def handleToolUseStart (id name : JsString) : StreamingState ν :=
  { state with
    currentTextIndex := none
    tools := state.tools.set id { name }
    blockOrder := state.blockOrder ++ [.tool id] }

def handleToolUseInputDelta (id part : JsString) : StreamingState ν :=
  { state with tools := state.tools.modify id fun t => { t with partialJson := t.partialJson ++ part } }

def handleToolUseStop (parse : JsString → Option Json) (id : JsString) (input : Option Json)
    (providerMeta : Option Fields) : StreamingState ν :=
  { state with
    tools := state.tools.modify id fun t =>
      { t with
        input := some (input.getD (Utils.safeJsonOrRaw parse t.partialJson))
        providerMeta := providerMeta.or t.providerMeta }
    currentTextIndex := none }

def handleThinkingStart (providerMeta : Option Fields) : StreamingState ν :=
  { state with
    currentThinkingIndex := some state.thinking.length
    thinking := state.thinking ++ [{ providerMeta }]
    blockOrder := state.blockOrder ++ [.thinking state.thinking.length]
    currentTextIndex := none }

/-- The open thinking entry is changed, after one was opened if there was none. -/
def changeThinking (change : ThinkingEntry → ThinkingEntry) : StreamingState ν :=
  let state := if state.currentThinkingIndex.isNone then handleThinkingStart state none else state
  match state.currentThinkingIndex with
  | some idx => { state with thinking := state.thinking.modify idx change }
  | none => state

def handleThinkingDelta (text : JsString) : StreamingState ν :=
  changeThinking state fun t => { t with textBuf := t.textBuf ++ text }

def handleThinkingSignature (signature : JsString) : StreamingState ν :=
  changeThinking state fun t => { t with signature := some signature }

def handleThinkingStop : StreamingState ν := { state with currentThinkingIndex := none }

def handleMessageStop (stopReason : StopReason) (usage : Usage ν) : StreamingState ν := { state with stopReason, usage }

/-- The handler of an event. -/
def handleEvent (parse : JsString → Option Json) : StreamEvent JsString ν → StreamingState ν
  | .messageStart model => handleMessageStart state model
  | .textDelta text => handleTextDelta state text
  | .toolUseStart id name => handleToolUseStart state id name
  | .toolUseInputDelta id part => handleToolUseInputDelta state id part
  | .toolUseStop id input providerMeta => handleToolUseStop state parse id input providerMeta
  | .thinkingStart providerMeta => handleThinkingStart state providerMeta
  | .thinkingDelta text => handleThinkingDelta state text
  | .thinkingSignature signature => handleThinkingSignature state signature
  | .thinkingStop => handleThinkingStop state
  | .messageStop stopReason usage => handleMessageStop state stopReason usage

end

/-- The state after the events of a stream. -/
def stream {ν : Type} [Zero ν] (parse : JsString → Option Json) (model : JsString)
    (events : List (StreamEvent JsString ν)) : StreamingState ν :=
  events.foldl (fun state ev => handleEvent state parse ev) (createStreamingState model)

end WrongStack.Streaming

/-!
# The aggregator

`aggregateStream` (`providers/src/aggregate.ts`).
-/

namespace WrongStack.Streaming

open Lib Json

structure ThinkingBuffer where
  chunks : List JsString := []
  signature : Option JsString := none
  providerMeta : Option Fields := none

/-- The local variables of the loop. -/
structure Aggregation (ν : Type) where
  model : JsString := []
  stopReason : StopReason := .endTurn
  usage : Usage ν
  textBuffers : List (List JsString) := []
  currentTextIndex : Option Nat := none
  toolBuffers : JsMap JsString ToolEntry := .empty
  thinkingBuffers : List ThinkingBuffer := []
  currentThinkingIndex : Option Nat := none
  blockOrder : List BlockRef := []

namespace Aggregation

section
variable {ν : Type} (a : Aggregation ν)

def onTextDelta (text : JsString) : Aggregation ν :=
  let a :=
    if a.currentTextIndex.isNone then
      { a with
        currentTextIndex := some a.textBuffers.length
        textBuffers := a.textBuffers ++ [[]]
        blockOrder := a.blockOrder ++ [.text a.textBuffers.length] }
    else a
  match a.currentTextIndex with
  | some idx => { a with textBuffers := a.textBuffers.modify idx (· ++ [text]) }
  | none => a

def onToolUseStart (id name : JsString) : Aggregation ν :=
  { a with
    currentTextIndex := none
    toolBuffers := a.toolBuffers.set id { name }
    blockOrder := a.blockOrder ++ [.tool id] }

def onToolUseInputDelta (id part : JsString) : Aggregation ν :=
  { a with toolBuffers := a.toolBuffers.modify id fun b => { b with partialJson := b.partialJson ++ part } }

def stoppedInput (parse : JsString → Option Json) (b : ToolEntry) : Option Json → Json
  | none => .obj (Utils.parseToolInput parse b.partialJson)
  | some (.str s) => .obj (Utils.parseToolInput parse s)
  | some (.obj fields) => .obj fields
  | some v => .obj [(js "__raw", v)]

def onToolUseStop (parse : JsString → Option Json) (id : JsString) (input : Option Json)
    (providerMeta : Option Fields) : Aggregation ν :=
  { a with
    toolBuffers := a.toolBuffers.modify id fun b =>
      { b with
        input := some (stoppedInput parse b input)
        providerMeta := providerMeta.or b.providerMeta }
    currentTextIndex := none }

/-- No thinking buffer is open. -/
def noThinking : Bool :=
  match a.currentThinkingIndex with
  | none => true
  | some idx => a.thinkingBuffers[idx]?.isNone

def openThinking : Aggregation ν :=
  { a with
    currentThinkingIndex := some a.thinkingBuffers.length
    thinkingBuffers := a.thinkingBuffers ++ [{}] }

/-- The current thinking buffer is pushed to the order. -/
def pushThinking : Aggregation ν :=
  match a.currentThinkingIndex with
  | some idx => { a with blockOrder := a.blockOrder ++ [.thinking idx] }
  | none => a

def onThinkingStart (providerMeta : Option Fields) : Aggregation ν :=
  let a := { a with currentTextIndex := none }
  let a := if a.noThinking then a.openThinking else a
  let a :=
    match a.currentThinkingIndex with
    | some idx =>
        { a with
          thinkingBuffers :=
            a.thinkingBuffers.modify idx fun t => { t with providerMeta := providerMeta.or t.providerMeta } }
    | none => a
  a.pushThinking

def changeThinking (change : ThinkingBuffer → ThinkingBuffer) : Aggregation ν :=
  let a := if a.noThinking then a.openThinking.pushThinking else a
  match a.currentThinkingIndex with
  | some idx => { a with thinkingBuffers := a.thinkingBuffers.modify idx change }
  | none => a

def step (parse : JsString → Option Json) : StreamEvent JsString ν → Aggregation ν
  | .messageStart model => { a with model }
  | .textDelta text => a.onTextDelta text
  | .toolUseStart id name => a.onToolUseStart id name
  | .toolUseInputDelta id part => a.onToolUseInputDelta id part
  | .toolUseStop id input providerMeta => a.onToolUseStop parse id input providerMeta
  | .thinkingStart providerMeta => a.onThinkingStart providerMeta
  | .thinkingDelta text => a.changeThinking fun t => { t with chunks := t.chunks ++ [text] }
  | .thinkingSignature signature => a.changeThinking fun t => { t with signature := some signature }
  | .thinkingStop => { a with currentThinkingIndex := none }
  | .messageStop stopReason usage => { a with stopReason, usage }

/-- An input that is no object is left out. -/
def objectOrEmpty : Option Json → Json
  | some (.obj fields) => .obj fields
  | _ => .obj []

def block : BlockRef → Option ContentBlock
  | .text idx =>
      let text := ((a.textBuffers[idx]?).map List.flatten).getD []
      if text.isEmpty then none else some (.text text)
  | .thinking idx =>
      match a.thinkingBuffers[idx]? with
      | none => none
      | some t =>
          let thinkingText := t.chunks.flatten
          if thinkingText.isEmpty && (shownSignature t.signature).isNone then none
          else some (.thinking thinkingText (shownSignature t.signature) (shownMeta t.providerMeta))
  | .tool id =>
      (a.toolBuffers.get? id).map fun tb =>
        .toolUse id tb.name (objectOrEmpty tb.input) (shownMeta tb.providerMeta)

def response : Response ν where
  content := orEmptyText (a.blockOrder.filterMap a.block)
  stopReason := a.stopReason
  usage := a.usage
  model := a.model

end

/-- The local variables after the loop. -/
def loop {ν : Type} [Zero ν] (parse : JsString → Option Json) (events : List (StreamEvent JsString ν)) :
    Aggregation ν :=
  events.foldl (fun a ev => a.step parse ev) { usage := { input := 0, output := 0 } }

end Aggregation

def aggregateStream {ν : Type} [Zero ν] (parse : JsString → Option Json) (events : List (StreamEvent JsString ν)) :
    Response ν :=
  (Aggregation.loop parse events).response

end WrongStack.Streaming
