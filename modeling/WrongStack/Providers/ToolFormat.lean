import Mathlib.Algebra.Order.BigOperators.Group.List
import Mathlib.Algebra.Order.Group.Nat
import WrongStack.Conversation.Message
import WrongStack.Lib.ListFacts

/-!
# Canonical messages

`core/src/types/blocks.ts` with the fields that the providers read. `core` is what
`WrongStack.Conversation` sees of a message. `cache_control`, the signatures of thinking blocks and the
time of a message are left out.
-/

namespace WrongStack.Providers

open Lib
open Conversation (MessageRole)

structure ToolUseBlock where
  id : JsString
  name : JsString
  input : List (JsString × Json)
  providerMeta : Option (List (JsString × Json)) := none

structure ToolResultBlock where
  toolUseId : JsString
  name : Option JsString := none
  content : JsString
  isError : Option Bool := none

inductive ImageSourceType
  | base64 | url
  deriving DecidableEq

structure ImageSource where
  type : ImageSourceType
  mediaType : Option JsString := none
  data : Option JsString := none
  url : Option JsString := none
  deriving DecidableEq

inductive ContentBlock
  | text (text : JsString)
  | toolUse (block : ToolUseBlock)
  | toolResult (block : ToolResultBlock)
  | image (source : ImageSource)
  | thinking (thinking : JsString)

inductive Content
  | text (s : JsString)
  | blocks (bs : List ContentBlock)

structure Message where
  role : MessageRole
  content : Content

namespace ContentBlock

def text? : ContentBlock → Option JsString
  | text t => some t
  | _ => none

def toolUse? : ContentBlock → Option ToolUseBlock
  | toolUse b => some b
  | _ => none

def toolResult? : ContentBlock → Option ToolResultBlock
  | toolResult b => some b
  | _ => none

def thinking? : ContentBlock → Option JsString
  | thinking t => some t
  | _ => none

def isImage : ContentBlock → Bool
  | image _ => true
  | _ => false

def core : ContentBlock → Conversation.ContentBlock
  | text t => .text t
  | toolUse b => .toolUse b.id b.name b.input
  | toolResult b => .toolResult b.toolUseId b.name b.content b.isError
  | image _ | thinking _ => .other .null

end ContentBlock

def normalizeContent : Content → List ContentBlock
  | .text s => [.text s]
  | .blocks bs => bs

namespace Message

def blocks (m : Message) : List ContentBlock := normalizeContent m.content

/-- The texts that are not empty. -/
def texts (m : Message) : List JsString := (m.blocks.filterMap ContentBlock.text?).filter (!·.isEmpty)

def toolUses (m : Message) : List ToolUseBlock := m.blocks.filterMap ContentBlock.toolUse?

def toolResults (m : Message) : List ToolResultBlock := m.blocks.filterMap ContentBlock.toolResult?

def core (m : Message) : Conversation.Message where
  role := m.role
  content := match m.content with
    | .text s => .text s
    | .blocks bs => .blocks (bs.map ContentBlock.core)

end Message

end WrongStack.Providers

/-!
# Messages on the wire

The three converters of canonical messages: `messagesToOpenAI` and `messagesToResponsesInput`
(`providers/src/tool-format`) and `messagesToGemini` (`providers/src/presets/google.ts`). The cache of
stringified tool inputs returns what `JSON.stringify` does and is left out.
-/

namespace WrongStack.Providers

open Lib ContentBlock

/-- `JSON.stringify(u.input)` -/
def stringifyToolInputOnce (input : List (JsString × Json)) : JsString := Json.stringify (.obj input)

def imageUrl (source : ImageSource) : JsString :=
  match source.type with
  | .url => source.url.getD []
  | .base64 =>
      js "data:" ++ source.mediaType.getD (js "image/png") ++ js ";base64," ++ source.data.getD []

/-! ## Chat completions -/

inductive OpenAIRole
  | system | user | assistant | tool
  deriving DecidableEq

inductive OpenAIContent
  | text (text : JsString)
  | imageUrl (url : JsString)
  deriving DecidableEq

/-- `string | OpenAIContent[] | null` -/
inductive OpenAIBody
  | null
  | str (s : JsString)
  | parts (cs : List OpenAIContent)
  deriving DecidableEq

structure OpenAIToolCall where
  id : JsString
  name : JsString
  arguments : JsString
  deriving DecidableEq

structure OpenAIMessage where
  role : OpenAIRole
  content : OpenAIBody
  toolCalls : Option (List OpenAIToolCall) := none
  toolCallId : Option JsString := none
  reasoningContent : Option JsString := none
  deriving DecidableEq

inductive EmptyToolCallContent
  | null | emptyString
  deriving DecidableEq

structure ConvertOptions where
  flattenContentToString : Bool := false
  systemAsMessage : Bool := false
  emptyToolCallContent : Option EmptyToolCallContent := none
  deriving DecidableEq

def blocksToString (bs : List ContentBlock) : JsString :=
  bs.flatMap fun
    | .text t => t
    | .image _ => js "[image]"
    | _ => []

def contentPart? : ContentBlock → Option OpenAIContent
  | .text t => some (.text t)
  | .image source => some (.imageUrl (imageUrl source))
  | _ => none

def blocksToContentArray (bs : List ContentBlock) : OpenAIBody :=
  if bs.any isImage then .parts (bs.filterMap contentPart?) else .str (bs.filterMap text?).flatten

def toolMessage (r : ToolResultBlock) : OpenAIMessage where
  role := .tool
  content := .str r.content
  toolCallId := some r.toolUseId

def toolCall (u : ToolUseBlock) : OpenAIToolCall where
  id := u.id
  name := u.name
  arguments := stringifyToolInputOnce u.input

/-- What the loop pushes for a message. -/
def messageToOpenAI (opts : ConvertOptions) (msg : Message) : List OpenAIMessage :=
  match msg.role with
  | .user =>
      let others := msg.blocks.filter fun b => b.toolResult?.isNone
      msg.toolResults.map toolMessage ++
        if others.isEmpty then []
        else
          [{ role := .user
             content := if opts.flattenContentToString then .str (blocksToString others)
               else blocksToContentArray others }]
  | .assistant =>
      let text := (msg.blocks.filterMap text?).flatten
      let reasoning := (msg.blocks.filterMap thinking?).flatten
      let toolCalls := msg.toolUses.map toolCall
      [{ role := .assistant
         content :=
           if toolCalls.isEmpty || !text.isEmpty then .str text
           else if opts.emptyToolCallContent.getD .emptyString = .null then .null
           else .str []
         toolCalls := if toolCalls.isEmpty then none else some toolCalls
         reasoningContent := if reasoning.isEmpty then none else some reasoning }]
  | .system => []

def systemMessage (system : Option (List JsString)) (opts : ConvertOptions) : List OpenAIMessage :=
  match system with
  | none | some [] => []
  | some texts =>
      [{ role := if opts.systemAsMessage then .user else .system
         content := .str (JsString.join (js "\n\n") texts) }]

def messagesToOpenAI (system : Option (List JsString)) (messages : List Message)
    (opts : ConvertOptions) : List OpenAIMessage :=
  systemMessage system opts ++ messages.flatMap (messageToOpenAI opts)

/-! ## Responses -/

inductive InputPart
  | text (text : JsString)
  | image (url : JsString)
  deriving DecidableEq

inductive ResponsesItem
  | user (content : List InputPart)
  /-- a message of the assistant with one `output_text` -/
  | message (text : JsString)
  | functionCall (callId name arguments : JsString)
  | functionCallOutput (callId output : JsString)
  deriving DecidableEq

def functionCallOutput (r : ToolResultBlock) : ResponsesItem := .functionCallOutput r.toolUseId r.content

def functionCall (u : ToolUseBlock) : ResponsesItem :=
  .functionCall u.id u.name (stringifyToolInputOnce u.input)

def inputPart? : ContentBlock → Option InputPart
  | .text t => some (.text t)
  | .image source => some (.image (imageUrl source))
  | _ => none

def messageToResponses (msg : Message) : List ResponsesItem :=
  match msg.role with
  | .user =>
      let content := msg.blocks.filterMap inputPart?
      msg.toolResults.map functionCallOutput ++ if content.isEmpty then [] else [.user content]
  | .assistant =>
      let text := (msg.blocks.filterMap text?).flatten
      (if text.isEmpty then [] else [.message text]) ++ msg.toolUses.map functionCall
  | .system => []

def messagesToResponsesInput (messages : List Message) : List ResponsesItem :=
  messages.flatMap messageToResponses

/-! ## Gemini -/

inductive GeminiPart
  | text (text : JsString)
  | functionCall (name : JsString) (args : List (JsString × Json)) (thoughtSignature : Option JsString)
  | functionResponse (name : JsString) (content : JsString)
  | inlineData (mimeType data : JsString)

inductive GeminiRole
  | user | model
  deriving DecidableEq

structure GeminiContent where
  role : GeminiRole
  parts : List GeminiPart

def thoughtSignature (u : ToolUseBlock) : Option JsString :=
  match (Json.obj (u.providerMeta.getD [])).getString (js "google.thoughtSignature") with
  | some sig => if sig.isEmpty then none else some sig
  | none => none

def modelPart? : ContentBlock → Option GeminiPart
  | .text t => if t.isEmpty then none else some (.text t)
  | .toolUse u => some (.functionCall u.name u.input (thoughtSignature u))
  | _ => none

def textPart? : ContentBlock → Option GeminiPart
  | .text t => if t.isEmpty then none else some (.text t)
  | .image source =>
      if source.type = .base64 then
        some (.inlineData (source.mediaType.getD (js "image/png")) (source.data.getD []))
      else none
  | _ => none

def functionResponse (r : ToolResultBlock) : GeminiPart :=
  .functionResponse (r.name.getD r.toolUseId) r.content

def messageToGemini (m : Message) : List GeminiContent :=
  match m.role with
  | .system => []
  | .assistant =>
      let parts := m.blocks.filterMap modelPart?
      if parts.isEmpty then [] else [{ role := .model, parts }]
  | .user =>
      let parts := m.blocks.filterMap textPart? ++ m.toolResults.map functionResponse
      if parts.isEmpty then [] else [{ role := .user, parts }]

def messagesToGemini (messages : List Message) : List GeminiContent := messages.flatMap messageToGemini

end WrongStack.Providers

/-!
# What each converter carries over

One message at a time: its texts and its tool blocks.
-/

namespace WrongStack.Providers

open Lib ContentBlock

variable {m : Message} {opts : ConvertOptions}

/-! ## Texts -/

def OpenAIContent.text? : OpenAIContent → Option JsString
  | .text t => some t
  | .imageUrl _ => none

/-- The text that an OpenAI message holds besides tool results. -/
def OpenAIMessage.texts (o : OpenAIMessage) : List JsString :=
  if o.role = .tool then []
  else match o.content with
    | .null => []
    | .str s => [s]
    | .parts cs => cs.filterMap OpenAIContent.text?

def InputPart.text? : InputPart → Option JsString
  | .text t => some t
  | .image _ => none

def ResponsesItem.texts : ResponsesItem → List JsString
  | .user content => content.filterMap InputPart.text?
  | .message t => [t]
  | _ => []

def GeminiPart.text? : GeminiPart → Option JsString
  | .text t => some t
  | _ => none

def GeminiContent.texts (c : GeminiContent) : List JsString := c.parts.filterMap GeminiPart.text?

theorem texts_sublist (m : Message) : m.texts.Sublist (m.blocks.filterMap text?) := List.filter_sublist

theorem texts_eq_nil (h : (m.blocks.filterMap text?).flatten = []) : m.texts = [] := by
  rw [Message.texts, List.filter_eq_nil_iff]
  intro t ht
  simp [List.flatten_eq_nil_iff.mp h t ht]

theorem occurs_joined (m : Message) : Occurs m.texts [(m.blocks.filterMap text?).flatten] :=
  (Occurs.joined _).of_sublist (texts_sublist m)

theorem filterMap_others (bs : List ContentBlock) :
    (bs.filter fun b => b.toolResult?.isNone).filterMap text? = bs.filterMap text? := by
  rw [List.filterMap_filter]
  exact List.filterMap_congr fun b _ => by cases b <;> simp [toolResult?, text?]

theorem occurs_userContent (others : List ContentBlock) :
    Occurs (others.filterMap text?) (OpenAIMessage.texts
      { role := .user
        content := if opts.flattenContentToString then .str (blocksToString others)
          else blocksToContentArray others }) := by
  split
  · exact .flatMap_filterMap fun b _ w hw => by cases b <;> simp_all [text?]
  · unfold blocksToContentArray
    split
    · -- every text is a part of its own
      have heq : ∀ b : ContentBlock, (contentPart? b).bind OpenAIContent.text? = text? b := fun b => by
        cases b <;> rfl
      simp only [OpenAIMessage.texts, reduceCtorEq, if_false, List.filterMap_filterMap, heq]
      exact .refl _
    · exact .joined _

theorem occurs_openAI (hrole : m.role ≠ .system) :
    Occurs m.texts ((messageToOpenAI opts m).flatMap OpenAIMessage.texts) := by
  unfold messageToOpenAI
  split
  · have htool : (m.toolResults.map toolMessage).flatMap OpenAIMessage.texts = [] := by
      simp [List.flatMap_map, OpenAIMessage.texts, toolMessage]
    have hsub := filterMap_others m.blocks ▸ texts_sublist m
    rw [List.flatMap_append, htool, List.nil_append]
    split
    · rename_i hempty
      rw [List.isEmpty_iff.mp hempty] at hsub
      rw [List.sublist_nil.mp hsub]
      exact .nil _
    · rw [List.flatMap_singleton]
      exact (occurs_userContent _).of_sublist hsub
  · rw [List.flatMap_singleton]
    split
    · exact occurs_joined m
    · -- without a text there is nothing to find
      rename_i hempty
      simp only [Bool.or_eq_true, Bool.not_eq_eq_eq_not, Bool.not_true, not_or,
        Bool.not_eq_false, List.isEmpty_iff] at hempty
      rw [texts_eq_nil hempty.2]
      exact .nil _
  · exact absurd ‹_› hrole

theorem filterMap_inputParts (bs : List ContentBlock) :
    (bs.filterMap inputPart?).filterMap InputPart.text? = bs.filterMap text? := by
  rw [List.filterMap_filterMap]
  exact List.filterMap_congr fun b _ => by cases b <;> rfl

theorem toolOutputs_texts (rs : List ToolResultBlock) :
    (rs.map functionCallOutput).flatMap ResponsesItem.texts = [] := by
  simp [List.flatMap_map, ResponsesItem.texts, functionCallOutput]

theorem functionCalls_texts (us : List ToolUseBlock) :
    (us.map functionCall).flatMap ResponsesItem.texts = [] := by
  simp [List.flatMap_map, ResponsesItem.texts, functionCall]

theorem occurs_responses (hrole : m.role ≠ .system) :
    Occurs m.texts ((messageToResponses m).flatMap ResponsesItem.texts) := by
  unfold messageToResponses
  split
  · have hparts := filterMap_inputParts m.blocks
    rw [List.flatMap_append, toolOutputs_texts, List.nil_append]
    split
    · rename_i hempty
      rw [List.isEmpty_iff.mp hempty] at hparts
      rw [texts_eq_nil (by rw [← hparts]; rfl)]
      exact .nil _
    · rw [List.flatMap_singleton]
      refine Occurs.of_sublist (.refl _) ?_
      change m.texts.Sublist ((m.blocks.filterMap inputPart?).filterMap InputPart.text?)
      rw [hparts]
      exact texts_sublist m
  · rw [List.flatMap_append, functionCalls_texts, List.append_nil]
    split
    · rename_i hempty
      rw [texts_eq_nil (List.isEmpty_iff.mp hempty)]
      exact .nil _
    · exact occurs_joined m
  · exact absurd ‹_› hrole

/-- A part for every text that is not empty, among other parts. -/
theorem filterMap_parts {part? : ContentBlock → Option GeminiPart}
    (h : ∀ b, (part? b).bind GeminiPart.text? = b.text?.filter (!·.isEmpty)) :
    (m.blocks.filterMap part?).filterMap GeminiPart.text? = m.texts := by
  rw [List.filterMap_filterMap, Message.texts, List.filter_filterMap]
  exact List.filterMap_congr fun b _ => h b

theorem filterMap_content {γ : Type} (f : GeminiPart → Option γ) (role : GeminiRole)
    (parts : List GeminiPart) : (if parts.isEmpty then [] else [{ role, parts }] :
      List GeminiContent).flatMap (fun c => c.parts.filterMap f) = parts.filterMap f := by
  cases parts with
  | nil => rfl
  | cons part parts => exact List.flatMap_singleton ..

theorem texts_gemini (hrole : m.role ≠ .system) :
    (messageToGemini m).flatMap GeminiContent.texts = m.texts := by
  unfold messageToGemini
  split
  · exact absurd ‹_› hrole
  · have hparts : (m.blocks.filterMap modelPart?).filterMap GeminiPart.text? = m.texts :=
      filterMap_parts fun b => by
        cases b with
        | text t => cases t <;> rfl
        | _ => rfl
    exact (filterMap_content _ _ _).trans hparts
  · have hparts : (m.blocks.filterMap textPart? ++ m.toolResults.map functionResponse).filterMap
        GeminiPart.text? = m.texts := by
      have hnone : (m.toolResults.map functionResponse).filterMap GeminiPart.text? = [] := by
        simp [List.filterMap_map, functionResponse, GeminiPart.text?]
      rw [List.filterMap_append, hnone, List.append_nil]
      refine filterMap_parts fun b => ?_
      cases b with
      | text t => cases t <;> rfl
      | image source => cases hs : source.type <;> simp [textPart?, hs, GeminiPart.text?, text?]
      | _ => rfl
    exact (filterMap_content _ _ _).trans hparts

/-! ## No text comes from elsewhere -/

theorem total_texts (m : Message) : Occurs.total m.texts = Occurs.total (m.blocks.filterMap text?) := by
  rw [Message.texts]
  induction m.blocks.filterMap text? with
  | nil => rfl
  | cons t ts ih => cases t <;> simp [ih]

theorem total_responses_le (m : Message) :
    Occurs.total ((messageToResponses m).flatMap ResponsesItem.texts) ≤ Occurs.total m.texts := by
  unfold messageToResponses
  rw [total_texts]
  split
  · rw [List.flatMap_append, toolOutputs_texts, List.nil_append]
    split
    · exact Nat.zero_le _
    · rw [List.flatMap_singleton, ← filterMap_inputParts]
      exact le_refl _
  · rw [List.flatMap_append, functionCalls_texts, List.append_nil]
    split
    · exact Nat.zero_le _
    · simp [ResponsesItem.texts, Occurs.total]
  · exact Nat.zero_le _

theorem total_texts_pos (h : m.texts ≠ []) : 0 < Occurs.total m.texts := by
  obtain ⟨t, ht⟩ := List.exists_mem_of_ne_nil _ h
  have hne : t ≠ [] := by simpa using (List.mem_filter.mp ht).2
  exact Nat.lt_of_lt_of_le (List.length_pos_iff.mpr hne) (List.sublist_flatten_of_mem ht).length_le

/-- The body is too short to hold the texts, once a system message has some. -/
theorem total_responses_lt {ms : List Message} (h : ∃ m ∈ ms, m.role = .system ∧ m.texts ≠ []) :
    Occurs.total ((messagesToResponsesInput ms).flatMap ResponsesItem.texts) <
      Occurs.total (ms.flatMap Message.texts) := by
  have hle : ∀ ms : List Message, Occurs.total ((messagesToResponsesInput ms).flatMap ResponsesItem.texts) ≤
      Occurs.total (ms.flatMap Message.texts) := by
    intro ms
    induction ms with
    | nil => exact le_refl _
    | cons m ms ih =>
        rw [messagesToResponsesInput, List.flatMap_cons, List.flatMap_append, List.flatMap_cons,
          Occurs.total_append, Occurs.total_append]
        exact Nat.add_le_add (total_responses_le m) ih
  induction ms with
  | nil => simp at h
  | cons m ms ih =>
      rw [messagesToResponsesInput, List.flatMap_cons, List.flatMap_append, List.flatMap_cons,
        Occurs.total_append, Occurs.total_append]
      obtain ⟨x, hx, hrole, hne⟩ := h
      rcases List.mem_cons.mp hx with rfl | hx
      · have hnone : messageToResponses x = [] := by rw [messageToResponses, hrole]
        rw [hnone]
        exact Nat.add_lt_add_of_lt_of_le (total_texts_pos hne) (hle ms)
      · exact Nat.add_lt_add_of_le_of_lt (total_responses_le m) (ih ⟨x, hx, hrole, hne⟩)

/-! ## Tool blocks -/

def OpenAIMessage.result? (o : OpenAIMessage) : Option (JsString × OpenAIBody) :=
  o.toolCallId.map fun id => (id, o.content)

def ResponsesItem.call? : ResponsesItem → Option (JsString × JsString × JsString)
  | .functionCall callId name arguments => some (callId, name, arguments)
  | _ => none

def ResponsesItem.output? : ResponsesItem → Option (JsString × JsString)
  | .functionCallOutput callId output => some (callId, output)
  | _ => none

def GeminiPart.call? : GeminiPart → Option (JsString × List (JsString × Json) × Option JsString)
  | .functionCall name args sig => some (name, args, sig)
  | _ => none

def GeminiPart.response? : GeminiPart → Option (JsString × JsString)
  | .functionResponse name content => some (name, content)
  | _ => none

/-- Tool uses are the assistant's and tool results the user's. -/
structure Placed (m : Message) : Prop where
  uses : m.role ≠ .assistant → m.toolUses = []
  results : m.role ≠ .user → m.toolResults = []

theorem calls_openAI (h : Placed m) :
    (messageToOpenAI opts m).flatMap (fun o => o.toolCalls.getD []) = m.toolUses.map toolCall := by
  unfold messageToOpenAI
  split
  · rename_i hrole
    rw [h.uses (by simp [hrole]), List.flatMap_append]
    have htool : (m.toolResults.map toolMessage).flatMap (fun o => o.toolCalls.getD []) = [] := by
      simp [List.flatMap_map, toolMessage]
    rw [htool]
    split <;> rfl
  · rw [List.flatMap_singleton]
    cases m.toolUses with
    | nil => rfl
    | cons u us => rfl
  · rename_i hrole
    rw [h.uses (by simp [hrole])]
    rfl

theorem results_openAI (h : Placed m) : (messageToOpenAI opts m).filterMap OpenAIMessage.result? =
    m.toolResults.map fun r => (r.toolUseId, .str r.content) := by
  unfold messageToOpenAI
  split
  · have htool : (m.toolResults.map toolMessage).filterMap OpenAIMessage.result? =
        m.toolResults.map fun r => (r.toolUseId, .str r.content) := by
      rw [List.filterMap_map]
      exact congrFun (List.filterMap_eq_map' (f := fun r : ToolResultBlock => _)) _
    rw [List.filterMap_append, htool]
    split <;> simp [OpenAIMessage.result?]
  · rename_i hrole
    rw [h.results (by simp [hrole])]
    rfl
  · rename_i hrole
    rw [h.results (by simp [hrole])]
    rfl

theorem calls_responses (h : Placed m) : (messageToResponses m).filterMap ResponsesItem.call? =
    m.toolUses.map fun u => (u.id, u.name, stringifyToolInputOnce u.input) := by
  unfold messageToResponses
  split
  · rename_i hrole
    rw [h.uses (by simp [hrole]), List.filterMap_append]
    have htool : (m.toolResults.map functionCallOutput).filterMap ResponsesItem.call? = [] := by
      simp [List.filterMap_map, functionCallOutput, ResponsesItem.call?]
    rw [htool]
    split <;> rfl
  · have hcalls : (m.toolUses.map functionCall).filterMap ResponsesItem.call? =
        m.toolUses.map fun u => (u.id, u.name, stringifyToolInputOnce u.input) := by
      rw [List.filterMap_map]
      exact congrFun (List.filterMap_eq_map' (f := fun u : ToolUseBlock => _)) _
    rw [List.filterMap_append, hcalls]
    split <;> rfl
  · rename_i hrole
    rw [h.uses (by simp [hrole])]
    rfl

theorem outputs_responses (h : Placed m) : (messageToResponses m).filterMap ResponsesItem.output? =
    m.toolResults.map fun r => (r.toolUseId, r.content) := by
  unfold messageToResponses
  split
  · have htool : (m.toolResults.map functionCallOutput).filterMap ResponsesItem.output? =
        m.toolResults.map fun r => (r.toolUseId, r.content) := by
      rw [List.filterMap_map]
      exact congrFun (List.filterMap_eq_map' (f := fun r : ToolResultBlock => _)) _
    rw [List.filterMap_append, htool]
    split <;> simp [ResponsesItem.output?]
  · rename_i hrole
    have hcalls : (m.toolUses.map functionCall).filterMap ResponsesItem.output? = [] := by
      simp [List.filterMap_map, functionCall, ResponsesItem.output?]
    rw [h.results (by simp [hrole]), List.filterMap_append, hcalls]
    split <;> rfl
  · rename_i hrole
    rw [h.results (by simp [hrole])]
    rfl

theorem calls_gemini (h : Placed m) :
    (messageToGemini m).flatMap (fun c => c.parts.filterMap GeminiPart.call?) =
      m.toolUses.map fun u => (u.name, u.input, thoughtSignature u) := by
  unfold messageToGemini
  split
  · rename_i hrole
    rw [h.uses (by simp [hrole])]
    rfl
  · rw [filterMap_content, List.filterMap_filterMap, Message.toolUses, List.map_filterMap]
    refine List.filterMap_congr fun b _ => ?_
    cases b with
    | text t => cases t <;> rfl
    | _ => rfl
  · rename_i hrole
    rw [filterMap_content, h.uses (by simp [hrole]), List.filterMap_append, List.filterMap_filterMap,
      List.filterMap_map]
    have htext : m.blocks.filterMap (fun b => (textPart? b).bind GeminiPart.call?) = [] := by
      refine List.filterMap_eq_nil_iff.mpr fun b _ => ?_
      cases b with
      | text t => cases t <;> rfl
      | image source => cases hs : source.type <;> simp [textPart?, hs, GeminiPart.call?]
      | _ => rfl
    rw [htext]
    exact List.filterMap_eq_nil_iff.mpr fun r _ => rfl

theorem responses_gemini (h : Placed m) :
    (messageToGemini m).flatMap (fun c => c.parts.filterMap GeminiPart.response?) =
      m.toolResults.map fun r => (r.name.getD r.toolUseId, r.content) := by
  unfold messageToGemini
  split
  · rename_i hrole
    rw [h.results (by simp [hrole])]
    rfl
  · rename_i hrole
    rw [filterMap_content, h.results (by simp [hrole]), List.filterMap_filterMap]
    refine List.filterMap_eq_nil_iff.mpr fun b _ => ?_
    cases b with
    | text t => cases t <;> rfl
    | _ => rfl
  · rw [filterMap_content, List.filterMap_append, List.filterMap_filterMap, List.filterMap_map]
    have htext : m.blocks.filterMap (fun b => (textPart? b).bind GeminiPart.response?) = [] := by
      refine List.filterMap_eq_nil_iff.mpr fun b _ => ?_
      cases b with
      | text t => cases t <;> rfl
      | image source => cases hs : source.type <;> simp [textPart?, hs, GeminiPart.response?]
      | _ => rfl
    rw [htext, List.nil_append]
    exact congrFun (List.filterMap_eq_map' (f := fun r : ToolResultBlock => _)) _

end WrongStack.Providers
