import WrongStack.Conversation.Lemmas.Adjacency
import WrongStack.Providers.ToolFormat

/-!
# Tool calls and their answers

In a paired list the results of a message answer the uses of the one before it. So the tool messages
that follow an assistant message in the body are the results of the next message, one for each.
-/

namespace WrongStack.Providers

open Lib
open Conversation (Paired PairedFrom toolUseIds toolResultIds)

variable {m : Message} {ms : List Message} {opts : ConvertOptions}

/-! ## Places in a paired list -/

theorem core_blocks (m : Message) : m.core.blocks = match m.content with
    | .text _ => []
    | .blocks bs => bs.map ContentBlock.core := by
  unfold Message.core Conversation.Message.blocks
  cases m.content <;> rfl

theorem uses_core (m : Message) :
    m.core.blocks.filterMap Conversation.ContentBlock.toolUseId? = m.toolUses.map ToolUseBlock.id := by
  rw [core_blocks, Message.toolUses, Message.blocks]
  cases m.content with
  | text s => rfl
  | blocks bs =>
      rw [List.filterMap_map, normalizeContent, List.map_filterMap]
      exact List.filterMap_congr fun b _ => by cases b <;> rfl

theorem results_core (m : Message) : m.core.blocks.filterMap Conversation.ContentBlock.toolResultId? =
    m.toolResults.map ToolResultBlock.toolUseId := by
  rw [core_blocks, Message.toolResults, Message.blocks]
  cases m.content with
  | text s => rfl
  | blocks bs =>
      rw [List.filterMap_map, normalizeContent, List.map_filterMap]
      exact List.filterMap_congr fun b _ => by cases b <;> rfl

theorem toolUseIds_core (m : Message) : toolUseIds (some m.core) =
    if m.role = .assistant then m.toolUses.map ToolUseBlock.id else [] := by
  rw [toolUseIds, uses_core]
  rfl

theorem toolResultIds_core (m : Message) : toolResultIds (some m.core) =
    if m.role = .user then m.toolResults.map ToolResultBlock.toolUseId else [] := by
  rw [toolResultIds, results_core]
  rfl

/-- The list is paired, and its first message answers all uses of `prev`. -/
structure Follows (prev : Option Conversation.Message) (ms : List Message) : Prop where
  paired : PairedFrom prev (ms.map Message.core)
  answered : ∀ id ∈ toolUseIds prev, id ∈ toolResultIds (ms.map Message.core).head?

variable {before : Option Conversation.Message}

theorem follows_init (h : Paired (ms.map Message.core)) : Follows none ms :=
  ⟨h, fun id hid => by simp [toolUseIds] at hid⟩

/-- The place of the first message. -/
structure Place (before : Option Conversation.Message) (m : Message) (ms : List Message) : Prop where
  rest : Follows (some m.core) ms
  placed : Placed m
  results : ∀ r ∈ m.toolResults, r.toolUseId ∈ toolUseIds before

theorem Follows.place (h : Follows before (m :: ms)) : Place before m ms := by
  obtain ⟨hanswered, hrest⟩ := Conversation.pairedFrom_cons.mp h.paired
  rw [Conversation.answered_iff] at hanswered
  obtain ⟨huses, hresults⟩ := hanswered
  simp only [Conversation.toolView, uses_core, results_core, List.mem_map, forall_exists_index, and_imp,
    forall_apply_eq_imp_iff₂] at huses hresults
  have hfollows : Follows (some m.core) ms := by
    refine ⟨hrest, fun id hid => ?_⟩
    rw [toolUseIds_core] at hid
    split at hid
    · obtain ⟨u, hu, rfl⟩ := List.mem_map.mp hid
      exact huses u hu
    · simp at hid
  refine ⟨hfollows, ⟨fun hrole => ?_, fun hrole => ?_⟩, hresults⟩
  · -- the next message has a result for it, which must answer an assistant
    refine List.eq_nil_iff_forall_not_mem.mpr fun u hu => ?_
    have hnext := huses u hu
    cases ms with
    | nil => simp [toolResultIds] at hnext
    | cons n ns =>
        obtain ⟨hn, -⟩ := Conversation.pairedFrom_cons.mp hrest
        rw [List.map_cons, List.head?_cons, Conversation.mem_toolResultIds_view] at hnext
        obtain ⟨v, hv, -, hid⟩ := hnext
        obtain rfl := Option.some.inj hv
        have hmine := (Conversation.answered_iff.mp hn).2 _ hid
        rw [toolUseIds_core, if_neg hrole] at hmine
        simp at hmine
  · -- what it answers must be answered by a message of the user
    refine List.eq_nil_iff_forall_not_mem.mpr fun r hr => ?_
    have hmine := h.answered _ (hresults r hr)
    rw [List.map_cons, List.head?_cons, toolResultIds_core, if_neg hrole] at hmine
    simp at hmine

theorem Follows.placed (h : Follows before ms) : ∀ m ∈ ms, Placed m := by
  induction ms generalizing before with
  | nil => exact fun m hm => absurd hm List.not_mem_nil
  | cons m ms ih =>
      intro x hx
      rcases List.mem_cons.mp hx with rfl | hx
      · exact h.place.placed
      · exact ih h.place.rest x hx

/-! ## The tool messages after a call -/

def OpenAIMessage.isTool (o : OpenAIMessage) : Bool := o.role == .tool

/-- The tool messages that `out` begins with. -/
def toolRun (out : List OpenAIMessage) : List JsString :=
  (out.takeWhile OpenAIMessage.isTool).filterMap OpenAIMessage.toolCallId

/-- Each assistant message is followed at once by exactly one tool message per call id. -/
def AnsweredAtOnce : List OpenAIMessage → Prop
  | [] => True
  | o :: rest => (o.role = .assistant → ∀ c ∈ o.toolCalls.getD [], (toolRun rest).count c.id = 1) ∧
      AnsweredAtOnce rest

theorem answeredAtOnce_skip {front : List OpenAIMessage} (h : ∀ o ∈ front, o.role ≠ .assistant)
    (rest : List OpenAIMessage) : AnsweredAtOnce (front ++ rest) ↔ AnsweredAtOnce rest := by
  induction front with
  | nil => exact Iff.rfl
  | cons o front ih =>
      have hrest := ih fun x hx => h x (List.mem_cons_of_mem o hx)
      rw [List.cons_append, AnsweredAtOnce, hrest]
      exact and_iff_right fun ha => absurd ha (h o List.mem_cons_self)

theorem toolRun_tools (rs : List ToolResultBlock) (rest : List OpenAIMessage) :
    toolRun (rs.map toolMessage ++ rest) = rs.map ToolResultBlock.toolUseId ++ toolRun rest := by
  induction rs with
  | nil => rfl
  | cons r rs ih =>
      change r.toolUseId :: toolRun (rs.map toolMessage ++ rest) = _
      rw [ih]
      rfl

/-- What follows the results of a user message is no tool message. -/
theorem toolRun_eq_nil (h : Follows before ms) (hnone : toolUseIds before = []) :
    toolRun (ms.flatMap (messageToOpenAI opts)) = [] := by
  induction ms generalizing before with
  | nil => rfl
  | cons m ms ih =>
      have hp := h.place
      have hresults : m.toolResults = [] := List.eq_nil_iff_forall_not_mem.mpr fun r hr => by
        simpa [hnone] using hp.results r hr
      rw [List.flatMap_cons]
      cases hrole : m.role with
      | assistant => simp [messageToOpenAI, hrole, toolRun, OpenAIMessage.isTool]
      | system =>
          rw [messageToOpenAI, hrole]
          exact ih hp.rest (by rw [toolUseIds_core, if_neg (by simp [hrole])])
      | user =>
          rw [messageToOpenAI, hrole]
          simp only [hresults, List.map_nil, List.nil_append]
          split
          · exact ih hp.rest (by rw [toolUseIds_core, if_neg (by simp [hrole])])
          · rfl

theorem toolRun_user (h : Follows before (m :: ms)) (hrole : m.role = .user) :
    toolRun ((m :: ms).flatMap (messageToOpenAI opts)) = m.toolResults.map ToolResultBlock.toolUseId := by
  have hrest : toolRun (ms.flatMap (messageToOpenAI opts)) = [] := toolRun_eq_nil h.place.rest
    (by rw [toolUseIds_core, if_neg (by simp [hrole])])
  rw [List.flatMap_cons, messageToOpenAI, hrole]
  simp only
  rw [List.append_assoc, toolRun_tools]
  split
  · rw [List.nil_append, hrest, List.append_nil]
  · exact List.append_nil _

/-- The messages before `m` call nothing, unless it is the user's. -/
theorem Follows.no_uses (h : Follows before (m :: ms)) (hrole : m.role ≠ .user) : toolUseIds before = [] := by
  refine List.eq_nil_iff_forall_not_mem.mpr fun id hid => ?_
  have hmine := h.answered id hid
  rw [List.map_cons, List.head?_cons, toolResultIds_core, if_neg hrole] at hmine
  simp at hmine

/-- The results of `m` answer the uses before it, so each use has one answer if no two results agree. -/
theorem count_results (h : Follows before (m :: ms)) (hrole : m.role = .user) :
    (∀ id ∈ toolUseIds before, (m.toolResults.map ToolResultBlock.toolUseId).count id = 1) ↔
      (m.toolResults.map ToolResultBlock.toolUseId).Nodup := by
  rw [List.nodup_iff_count_eq_one]
  refine ⟨fun hone id hid => ?_, fun hnd id hid => ?_⟩
  · obtain ⟨r, hr, rfl⟩ := List.mem_map.mp hid
    exact hone _ (h.place.results r hr)
  · have hmine := h.answered id hid
    rw [List.map_cons, List.head?_cons, toolResultIds_core, if_pos hrole] at hmine
    exact hnd id hmine

theorem skips_user (hrole : m.role = .user) (rest : List OpenAIMessage) :
    AnsweredAtOnce (messageToOpenAI opts m ++ rest) ↔ AnsweredAtOnce rest := by
  refine answeredAtOnce_skip (fun o ho => ?_) _
  rw [messageToOpenAI, hrole, List.mem_append] at ho
  rcases ho with ho | ho
  · obtain ⟨r, -, rfl⟩ := List.mem_map.mp ho
    simp [toolMessage]
  · split at ho
    · simp at ho
    · obtain rfl := List.mem_singleton.mp ho
      simp

theorem answered_assistant (hrole : m.role = .assistant) (rest : List OpenAIMessage) :
    AnsweredAtOnce (messageToOpenAI opts m ++ rest) ↔
      (∀ id ∈ toolUseIds (some m.core), (toolRun rest).count id = 1) ∧ AnsweredAtOnce rest := by
  have hcalls : ∀ o ∈ messageToOpenAI opts m, o.role = .assistant ∧
      o.toolCalls.getD [] = m.toolUses.map toolCall := by
    intro o ho
    rw [messageToOpenAI, hrole] at ho
    obtain rfl := List.mem_singleton.mp ho
    refine ⟨rfl, ?_⟩
    cases m.toolUses <;> rfl
  obtain ⟨o, heq⟩ : ∃ o, messageToOpenAI opts m = [o] := by
    rw [messageToOpenAI, hrole]
    exact ⟨_, rfl⟩
  obtain ⟨horole, hocalls⟩ := hcalls o (heq ▸ List.mem_singleton.mpr rfl)
  rw [heq, List.singleton_append, AnsweredAtOnce, hocalls, toolUseIds_core, if_pos hrole]
  simp only [horole, true_imp_iff, List.forall_mem_map]
  rfl

/-- In a paired list the calls are answered at once if no message has two results for one call. -/
theorem answered_iff (h : Follows before ms) (opts : ConvertOptions) :
    (∀ id ∈ toolUseIds before, (toolRun (ms.flatMap (messageToOpenAI opts))).count id = 1) ∧
        AnsweredAtOnce (ms.flatMap (messageToOpenAI opts)) ↔
      ∀ m ∈ ms, (m.toolResults.map ToolResultBlock.toolUseId).Nodup := by
  induction ms generalizing before with
  | nil =>
      have hnone : ∀ id, id ∉ toolUseIds before := fun id hid => by
        simpa [toolResultIds] using h.answered id hid
      simp [hnone, AnsweredAtOnce]
  | cons m ms ih =>
      have hp := h.place
      have hih := ih hp.rest
      rw [List.forall_mem_cons, ← hih]
      cases hrole : m.role with
      | user =>
          have hnone : toolUseIds (some m.core) = [] := by rw [toolUseIds_core, if_neg (by simp [hrole])]
          rw [toolRun_user h hrole, count_results h hrole, List.flatMap_cons, skips_user hrole, hnone]
          simp
      | assistant =>
          have hresults := hp.placed.results (by simp [hrole])
          rw [h.no_uses (by simp [hrole]), List.flatMap_cons, answered_assistant hrole, hresults]
          simp
      | system =>
          have hresults := hp.placed.results (by simp [hrole])
          have hnone : toolUseIds (some m.core) = [] := by rw [toolUseIds_core, if_neg (by simp [hrole])]
          have hskip : messageToOpenAI opts m = [] := by rw [messageToOpenAI, hrole]
          rw [h.no_uses (by simp [hrole]), List.flatMap_cons, hskip, hresults, hnone]
          simp

end WrongStack.Providers

/-!
# What reaches the provider

Which lists of messages lose nothing on the way. The converters leave out the messages of the system,
and compaction writes its digest into one.
-/

namespace WrongStack.Providers

open Lib
open Conversation (Paired)

/-- The texts occur in `texts` in the order of the messages, and `calls` and `results` are all tool uses
and all tool results, each once. -/
structure Carries {α β : Type} (ms : List Message) (texts : List JsString) (calls : List α)
    (results : List β) (call : ToolUseBlock → α) (result : ToolResultBlock → β) : Prop where
  texts : Occurs (ms.flatMap Message.texts) texts
  calls : calls = (ms.flatMap Message.toolUses).map call
  results : results = (ms.flatMap Message.toolResults).map result

/-- Nothing of the messages is lost in any of the three bodies, and the chat completions body answers
each call at once. -/
structure Delivers (ms : List Message) : Prop where
  openAI : ∀ system opts, Carries ms ((messagesToOpenAI system ms opts).flatMap OpenAIMessage.texts)
    ((messagesToOpenAI system ms opts).flatMap fun o => o.toolCalls.getD [])
    ((messagesToOpenAI system ms opts).filterMap OpenAIMessage.result?)
    toolCall fun r => (r.toolUseId, .str r.content)
  answers : ∀ system opts, AnsweredAtOnce (messagesToOpenAI system ms opts)
  responses : Carries ms ((messagesToResponsesInput ms).flatMap ResponsesItem.texts)
    ((messagesToResponsesInput ms).filterMap ResponsesItem.call?)
    ((messagesToResponsesInput ms).filterMap ResponsesItem.output?)
    (fun u => (u.id, u.name, stringifyToolInputOnce u.input)) fun r => (r.toolUseId, r.content)
  gemini : Carries ms ((messagesToGemini ms).flatMap GeminiContent.texts)
    ((messagesToGemini ms).flatMap fun c => c.parts.filterMap GeminiPart.call?)
    ((messagesToGemini ms).flatMap fun c => c.parts.filterMap GeminiPart.response?)
    (fun u => (u.name, u.input, thoughtSignature u)) fun r => (r.name.getD r.toolUseId, r.content)

theorem systemMessage_cases (system : Option (List JsString)) (opts : ConvertOptions) :
    systemMessage system opts = [] ∨ ∃ o, systemMessage system opts = [o] ∧ o.role ≠ .assistant ∧
      o.toolCalls = none ∧ o.toolCallId = none := by
  unfold systemMessage
  split
  · exact .inl rfl
  · exact .inl rfl
  · refine .inr ⟨_, rfl, ?_, rfl, rfl⟩
    simp only
    split <;> simp

section

variable {ms : List Message} (hplaced : ∀ m ∈ ms, Placed m)
  (hsystem : ∀ m ∈ ms, m.role = .system → m.texts = [])

include hplaced hsystem

theorem carries_openAI (system : Option (List JsString)) (opts : ConvertOptions) :
    Carries ms ((messagesToOpenAI system ms opts).flatMap OpenAIMessage.texts)
      ((messagesToOpenAI system ms opts).flatMap fun o => o.toolCalls.getD [])
      ((messagesToOpenAI system ms opts).filterMap OpenAIMessage.result?)
      toolCall fun r => (r.toolUseId, .str r.content) := by
  have hsys : (systemMessage system opts).flatMap (fun o => o.toolCalls.getD []) = [] ∧
      (systemMessage system opts).filterMap OpenAIMessage.result? = [] := by
    rcases systemMessage_cases system opts with heq | ⟨o, heq, -, hcalls, hid⟩
    · simp [heq]
    · simp [heq, hcalls, hid, OpenAIMessage.result?]
  unfold messagesToOpenAI
  refine ⟨?_, ?_, ?_⟩
  · rw [List.flatMap_append, List.flatMap_assoc]
    refine Occurs.skips (.flatMap fun m hm => ?_) _
    by_cases hrole : m.role = .system
    · rw [hsystem m hm hrole]
      exact .nil _
    · exact occurs_openAI hrole
  · rw [List.flatMap_append, hsys.1, List.nil_append, List.flatMap_assoc, List.map_flatMap]
    exact List.flatMap_congr fun m hm => calls_openAI (hplaced m hm)
  · rw [List.filterMap_append, hsys.2, List.nil_append, List.filterMap_flatMap, List.map_flatMap]
    exact List.flatMap_congr fun m hm => results_openAI (hplaced m hm)

theorem carries_responses : Carries ms ((messagesToResponsesInput ms).flatMap ResponsesItem.texts)
    ((messagesToResponsesInput ms).filterMap ResponsesItem.call?)
    ((messagesToResponsesInput ms).filterMap ResponsesItem.output?)
    (fun u => (u.id, u.name, stringifyToolInputOnce u.input)) fun r => (r.toolUseId, r.content) := by
  unfold messagesToResponsesInput
  refine ⟨?_, ?_, ?_⟩
  · rw [List.flatMap_assoc]
    refine .flatMap fun m hm => ?_
    by_cases hrole : m.role = .system
    · rw [hsystem m hm hrole]
      exact .nil _
    · exact occurs_responses hrole
  · rw [List.filterMap_flatMap, List.map_flatMap]
    exact List.flatMap_congr fun m hm => calls_responses (hplaced m hm)
  · rw [List.filterMap_flatMap, List.map_flatMap]
    exact List.flatMap_congr fun m hm => outputs_responses (hplaced m hm)

theorem carries_gemini : Carries ms ((messagesToGemini ms).flatMap GeminiContent.texts)
    ((messagesToGemini ms).flatMap fun c => c.parts.filterMap GeminiPart.call?)
    ((messagesToGemini ms).flatMap fun c => c.parts.filterMap GeminiPart.response?)
    (fun u => (u.name, u.input, thoughtSignature u)) fun r => (r.name.getD r.toolUseId, r.content) := by
  unfold messagesToGemini
  refine ⟨?_, ?_, ?_⟩
  · rw [List.flatMap_assoc]
    refine .flatMap fun m hm => ?_
    by_cases hrole : m.role = .system
    · rw [hsystem m hm hrole]
      exact .nil _
    · rw [texts_gemini hrole]
      exact .refl _
  · rw [List.flatMap_assoc, List.map_flatMap]
    exact List.flatMap_congr fun m hm => calls_gemini (hplaced m hm)
  · rw [List.flatMap_assoc, List.map_flatMap]
    exact List.flatMap_congr fun m hm => responses_gemini (hplaced m hm)

end

/-- Nothing is lost exactly if no message of the system has a text and no call has two results. -/
theorem delivers_iff (ms : List Message) (h : Paired (ms.map Message.core)) :
    Delivers ms ↔ (∀ m ∈ ms, m.role = .system → m.texts = []) ∧
      ∀ m ∈ ms, (m.toolResults.map ToolResultBlock.toolUseId).Nodup := by
  have hfollows := follows_init h
  have hanswers : ∀ system opts, AnsweredAtOnce (messagesToOpenAI system ms opts) ↔
      ∀ m ∈ ms, (m.toolResults.map ToolResultBlock.toolUseId).Nodup := by
    intro system opts
    have hall := answered_iff hfollows
    have hskip : AnsweredAtOnce (messagesToOpenAI system ms opts) ↔
        AnsweredAtOnce (ms.flatMap (messageToOpenAI opts)) := by
      refine answeredAtOnce_skip (fun o ho => ?_) _
      rcases systemMessage_cases system opts with heq | ⟨x, heq, hrole, -⟩
      · simp [heq] at ho
      · rw [heq] at ho
        exact List.mem_singleton.mp ho ▸ hrole
    rw [hskip, ← hall opts]
    exact (and_iff_right fun id hid => by simp [Conversation.toolUseIds] at hid).symm
  constructor
  · intro hd
    refine ⟨fun m hm hrole => ?_, (hanswers none {}).mp (hd.answers none {})⟩
    by_contra hne
    have hlt := total_responses_lt ⟨m, hm, hrole, hne⟩
    exact absurd hd.responses.texts.total_le (Nat.not_le.mpr hlt)
  · rintro ⟨hsystem, hnodup⟩
    exact ⟨carries_openAI hfollows.placed hsystem, fun system opts => (hanswers system opts).mpr hnodup,
      carries_responses hfollows.placed hsystem, carries_gemini hfollows.placed hsystem⟩

/-- A call and its answer, with a note of the user folded in. -/
def foldedNote : List Message :=
  [ { role := .user, content := .text (js "go") },
    { role := .assistant, content := .blocks [.text (js "on it"),
        .toolUse { id := js "a", name := js "read", input := [] }] },
    { role := .user, content := .blocks [.toolResult { toolUseId := js "a", content := js "ok" },
        .text (js "btw")] } ]

theorem delivers_folded_note : Paired (foldedNote.map Message.core) ∧ (Delivers foldedNote ↔
    (∀ m ∈ foldedNote, m.role = .system → m.texts = []) ∧
      ∀ m ∈ foldedNote, (m.toolResults.map ToolResultBlock.toolUseId).Nodup) := by
  have h : Paired (foldedNote.map Message.core) := by decide
  exact ⟨h, delivers_iff foldedNote h⟩

/-- A digest as compaction writes it, and what it left. -/
def digested : List Message :=
  [ { role := .system, content := .text (js "[prior_turns_digest: [user]: use port 80]") },
    { role := .user, content := .text (js "go on") } ]

theorem digest_lost : ¬ ∀ ms : List Message, Paired (ms.map Message.core) → Delivers ms := by
  intro h
  have hd := h digested (by decide)
  have hlt : Occurs.total ((messagesToResponsesInput digested).flatMap ResponsesItem.texts) <
      Occurs.total (digested.flatMap Message.texts) := by decide
  exact absurd hd.responses.texts.total_le (Nat.not_le.mpr hlt)

end WrongStack.Providers
