import WrongStack.Streaming.Chunks
import WrongStack.Streaming.ThinkTags

/-!
# The OpenAI stream translators

`parseOpenAIStream` (`providers/src/openai.ts`) and the step function and end of `openaiWireFormat`
(`providers/src/presets/openai.ts`), which share the code of the parts of a chunk.
-/

namespace WrongStack.Streaming

open Lib Json

/-! ## Emitting -/

/-- A step that changes the state and emits events. -/
abbrev Emit (σ ε : Type) := σ → σ × List ε

namespace Emit

variable {σ ε β : Type}

def andThen (f g : Emit σ ε) : Emit σ ε := fun s =>
  let r := f s
  let r' := g r.1
  (r'.1, r.2 ++ r'.2)

def nothing : Emit σ ε := fun s => (s, [])

def each (f : β → Emit σ ε) : List β → Emit σ ε
  | [] => nothing
  | x :: xs => (f x).andThen (each f xs)

end Emit

/-- The events of the messages that were translated whole, and those of the message or end that threw, if one did. -/
structure Outcome (ε : Type) where
  events : List ε
  broken : Option (List ε) := none

namespace Outcome

variable {σ ε μ : Type}

/-- A translator takes one message after the other, and comes to its end. What was emitted before something threw is
in the error. -/
def of (step : σ → μ → Except (List ε) (σ × List ε)) (finish : σ → Except (List ε) (List ε)) : σ → List μ → Outcome ε
  | s, [] =>
      match finish s with
      | .ok es => { events := es }
      | .error es => { events := [], broken := some es }
  | s, m :: ms =>
      match step s m with
      | .ok (s', es) =>
          let o := of step finish s' ms
          { o with events := es ++ o.events }
      | .error es => { events := [], broken := some es }

end Outcome

/-! ## The parts of a chunk -/

structure ToolState where
  id : Option Json := none
  name : Option Json := none
  chunks : List Json := []
  emittedStart : Bool := false
  emittedChunkIndex : Nat := 0

structure StreamState (ν : Type) where
  model : JsString
  usage : Usage ν
  stopReason : StopReason := .endTurn
  started : Bool := false
  textOpen : Bool := false
  thinkingOpen : Bool := false
  toolByIndex : JsMap ToolKey ToolState := .empty

section
variable {ν : Type}

abbrev Emitter (ν : Type) := Emit (StreamState ν) (StreamEvent Json ν)

def startMessage (chunk : Json) : Emitter ν := fun s =>
  let s :=
    match chunk.get? (js "model") with
    | some (.str model) => { s with model }
    | _ => s
  if s.started then (s, []) else ({ s with started := true }, [.messageStart (.str s.model)])

def openThinking : Emitter ν := fun s =>
  if s.thinkingOpen then (s, []) else ({ s with thinkingOpen := true }, [.thinkingStart none])

def closeThinking : Emitter ν := fun s =>
  if s.thinkingOpen then ({ s with thinkingOpen := false }, [.thinkingStop]) else (s, [])

def emitThinking (text : Json) : Emitter ν := openThinking.andThen fun s => (s, [.thinkingDelta text])

def emitText (text : Json) : Emitter ν := closeThinking.andThen fun s => ({ s with textOpen := true }, [.textDelta text])

def emitReasoning (chunk : Json) : Emitter ν :=
  if (reasoningOf chunk).isEmpty then .nothing else emitThinking (.str (reasoningOf chunk))

/-- The entry of an index with the fragment taken in. -/
def merged (entry : Option ToolState) (tc : ToolDelta) : ToolState :=
  let entry : ToolState :=
    match entry with
    | none => { id := tc.id, name := tc.name }
    | some entry =>
        { entry with
          id := if isTruthy tc.id && !isTruthy entry.id then tc.id else entry.id
          name := if isTruthy tc.name && !isTruthy entry.name then tc.name else entry.name }
  { entry with chunks := entry.chunks ++ argChunk tc }

/-- The call is announced once it has an id and a name. -/
def announced (entry : ToolState) : ToolState × List (StreamEvent Json ν) :=
  match entry.emittedStart, entry.id, entry.name with
  | false, some id, some name =>
      if id.truthy && name.truthy then ({ entry with emittedStart := true }, [.toolUseStart id name]) else (entry, [])
  | _, _, _ => (entry, [])

/-- The chunks that are not yet emitted. -/
def emittedChunks (entry : ToolState) : ToolState × List (StreamEvent Json ν) :=
  match entry.emittedStart, entry.id with
  | true, some id =>
      if id.truthy && entry.emittedChunkIndex < entry.chunks.length then
        ({ entry with emittedChunkIndex := entry.chunks.length },
          (entry.chunks.drop entry.emittedChunkIndex).map (.toolUseInputDelta id ·))
      else (entry, [])
  | _, _ => (entry, [])

def takeDelta (tc : ToolDelta) : Emitter ν := fun s =>
  let entry := merged (s.toolByIndex.get? tc.key) tc
  let started := announced entry
  let emitted := emittedChunks started.1
  ({ s with
      toolByIndex := s.toolByIndex.set tc.key emitted.1
      textOpen := if started.2.isEmpty then s.textOpen else false },
    started.2 ++ emitted.2)

/-- `message` counts the messages. -/
def takeToolCalls (message : Nat) (calls : Json) : Emitter ν :=
  closeThinking.andThen (.each takeDelta (toolDeltas message calls))

/-- The rest of a chunk emits nothing. -/
def closeChunk (A : Arithmetic ν) (promptTokens : Json → Option Json) (chunk : Json) (s : StreamState ν) :
    StreamState ν :=
  let s :=
    match finishReasonOf chunk with
    | some stop => { s with stopReason := normalizeOpenAI stop }
    | none => s
  match usageFieldOf chunk with
  | some u => { s with usage := usageAfter A promptTokens s.usage u }
  | none => s

/-- The end of a tool call: its start if it was not announced, and its input. -/
def stopCall (parse : JsString → Option Json) (id name : Json) (entry : ToolState) :
    Except (List (StreamEvent Json ν)) (List (StreamEvent Json ν)) :=
  let opening := if entry.emittedStart then [] else [.toolUseStart id name]
  match inputOf parse (joinArgBuffer entry.chunks) with
  | some fields => .ok (opening ++ [.toolUseStop id (some (.obj fields)) none])
  | none => .error opening

/-- One part after the other, until one throws. -/
def gather {ε : Type} : List (Except (List ε) (List ε)) → Except (List ε) (List ε)
  | [] => .ok []
  | .error es :: _ => .error es
  | .ok es :: rest =>
      match gather rest with
      | .ok es' => .ok (es ++ es')
      | .error es' => .error (es ++ es')

def stopMessage (s : StreamState ν) : List (StreamEvent Json ν) :=
  if s.started then [.messageStop s.stopReason s.usage] else []

/-- A message with the events that came before, also in an error. -/
def after {ε : Type} (es : List ε) : Except (List ε) (List ε) → Except (List ε) (List ε)
  | .ok es' => .ok (es ++ es')
  | .error es' => .error (es ++ es')

end

/-! ## `parseOpenAIStream` -/

namespace OpenAI

variable {ν : Type}

/-- The local variables. -/
structure State (ν : Type) where
  stream : StreamState ν
  thinkFilter : Option ThinkTagFilter := none

abbrev GenEmitter (ν : Type) := Emit (State ν) (StreamEvent Json ν)

def onStream (f : Emitter ν) : GenEmitter ν := fun s =>
  let r := f s.stream
  ({ s with stream := r.1 }, r.2)

def emitContentSegment (seg : ThinkSegment) : Emitter ν :=
  if seg.text.isEmpty then .nothing
  else
    match seg.kind with
    | .thinking => openThinking.andThen fun s => ({ s with textOpen := false }, [.thinkingDelta (.str seg.text)])
    | .text => emitText (.str seg.text)

/-- The segments that the filter gives out are emitted. -/
def filtered (use : ThinkTagFilter → List ThinkSegment × ThinkTagFilter) : GenEmitter ν := fun s =>
  match s.thinkFilter with
  | some thinkFilter =>
      let r := use thinkFilter
      onStream (.each emitContentSegment r.1) { s with thinkFilter := some r.2 }
  | none => (s, [])

def emitContent (chunk : Json) : GenEmitter ν := fun s =>
  match contentOf chunk, s.thinkFilter with
  | none, _ => (s, [])
  | some content, some _ => filtered (·.push (toText content)) s
  | some content, none => onStream (emitText content) s

def emitToolCalls (message : Nat) (chunk : Json) : GenEmitter ν :=
  match toolCallsOf chunk with
  | some calls => (filtered ThinkTagFilter.flush).andThen (onStream (takeToolCalls message calls))
  | none => .nothing

/-- The prompt tokens of a usage. -/
def promptTokens (u : Json) : Option Json := (given u "prompt_tokens").or (given u "input_tokens")

def emitChunk (message : Nat) (chunk : Json) : GenEmitter ν :=
  (onStream (startMessage chunk)).andThen <| (onStream (emitReasoning chunk)).andThen <|
    (emitContent chunk).andThen (emitToolCalls message chunk)

section
variable (A : Arithmetic ν) (parse : JsString → Option Json)

/-- The body of the loop over the messages. -/
def step (s : State ν) (msg : Nat × JsString) : Except (List (StreamEvent Json ν)) (State ν × List (StreamEvent Json ν)) :=
  match chunkOf parse msg.2 with
  | none => .ok (s, [])
  | some chunk =>
      let r := emitChunk msg.1 chunk s
      if (toolCallsOf chunk).any loopThrows then .error r.2
      else .ok ({ r.1 with stream := closeChunk A promptTokens chunk r.1.stream }, r.2)

/-- The id of a call that has none. -/
def callId (randomUUID : Nat → JsString) (i : Nat) : Json := .str (js "call_" ++ randomUUID i)

/-- The events for an entry after the loop. -/
def finishCall (randomUUID : Nat → JsString) (i : Nat) (entry : ToolState) :
    Except (List (StreamEvent Json ν)) (List (StreamEvent Json ν)) :=
  match entry.name.filter Json.truthy with
  | none => .ok []
  | some name => stopCall parse ((entry.id.filter Json.truthy).getD (callId randomUUID i)) name entry

def finish (randomUUID : Nat → JsString) (s : State ν) : Except (List (StreamEvent Json ν)) (List (StreamEvent Json ν)) :=
  let r := ((filtered ThinkTagFilter.flush).andThen (onStream closeThinking)) s
  after r.2 (gather
    ((r.1.stream.toolByIndex.entries.zipIdx.map fun e => finishCall parse randomUUID e.2 e.1.2) ++
      [.ok (stopMessage r.1.stream)]))

end

end OpenAI

/-- The events for the messages of a body. -/
def parseOpenAIStream {ν : Type} (A : Arithmetic ν) (parse : JsString → Option Json) (randomUUID : Nat → JsString)
    (stripThinkTags : Bool) (fallbackModel : JsString) (messages : List JsString) : Outcome (StreamEvent Json ν) :=
  Outcome.of (OpenAI.step A parse) (OpenAI.finish parse randomUUID)
    { stream := { model := fallbackModel, usage := { input := A.zero, output := A.zero } }
      thinkFilter := if stripThinkTags then some {} else none }
    (messages.zipIdx.map Prod.swap)

/-! ## `openaiWireFormat` -/

namespace OpenAIPreset

variable {ν : Type}

def emitContent (chunk : Json) : Emitter ν :=
  match contentOf chunk with
  | some content => emitText content
  | none => .nothing

def emitToolCalls (message : Nat) (chunk : Json) : Emitter ν :=
  match toolCallsOf chunk with
  | some calls => takeToolCalls message calls
  | none => .nothing

/-- The prompt tokens of a usage. -/
def promptTokens (u : Json) : Option Json := given u "prompt_tokens"

def emitChunk (message : Nat) (chunk : Json) : Emitter ν :=
  (startMessage chunk).andThen <| (emitReasoning chunk).andThen <| (emitContent chunk).andThen (emitToolCalls message chunk)

section
variable (A : Arithmetic ν) (parse : JsString → Option Json)

def createStreamState (fallbackModel : JsString) : StreamState ν where
  model := fallbackModel
  usage := { input := A.zero, output := A.zero }

/-- The events that were pushed are lost when it throws. -/
def parseStreamEvent (s : StreamState ν) (msg : Nat × JsString) :
    Except (List (StreamEvent Json ν)) (StreamState ν × List (StreamEvent Json ν)) :=
  match chunkOf parse msg.2 with
  | none => .ok (s, [])
  | some chunk =>
      let r := emitChunk msg.1 chunk s
      if (toolCallsOf chunk).any loopThrows then .error [] else .ok (closeChunk A promptTokens chunk r.1, r.2)

/-- The events for an entry. -/
def finishCall (entry : ToolState) : Except (List (StreamEvent Json ν)) (List (StreamEvent Json ν)) :=
  match entry.id.filter Json.truthy, entry.name.filter Json.truthy with
  | some id, some name => stopCall parse id name entry
  | _, _ => .ok []

def finalizeStream (s : StreamState ν) : Except (List (StreamEvent Json ν)) (List (StreamEvent Json ν)) :=
  let r := closeThinking s
  match after r.2 (gather ((r.1.toolByIndex.entries.map fun e => finishCall parse e.2) ++ [.ok (stopMessage r.1)])) with
  | .ok es => .ok es
  | .error _ => .error []

end

end OpenAIPreset

/-- The events of `parseStreamEvent` for the messages, and then those of `finalizeStream`. -/
def openaiWireFormat {ν : Type} (A : Arithmetic ν) (parse : JsString → Option Json) (fallbackModel : JsString)
    (messages : List JsString) : Outcome (StreamEvent Json ν) :=
  Outcome.of (OpenAIPreset.parseStreamEvent A parse) (OpenAIPreset.finalizeStream parse)
    (OpenAIPreset.createStreamState A fallbackModel) (messages.zipIdx.map Prod.swap)

end WrongStack.Streaming
