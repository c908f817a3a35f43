import WrongStack.Lib.Run
import WrongStack.Streaming.Lemmas.Once

/-!
# The two reducers of a stream

The builder and the aggregator are the two policies of one reducer. They give the same response, with each block once,
exactly for tidy streams that start no tool twice.
-/

namespace WrongStack.Streaming

open Lib Json

variable {ν : Type} {parse : JsString → Option Json} {model : JsString} {events : List (StreamEvent JsString ν)}

/-! ## The builder -/

namespace StreamingState

def draft (s : StreamingState ν) : Draft where
  texts := s.textBuffers
  text := s.currentTextIndex
  thoughts := s.thinking
  thought := s.currentThinkingIndex
  order := s.blockOrder

/-- The entries of the order that put a block into the content. -/
def shown (s : StreamingState ν) : List BlockRef := s.blockOrder.filter fun ref => (s.block ref).isSome

theorem draft_changeThinking (s : StreamingState ν) (x : Addition) :
    (changeThinking s fun e => e.add x).draft = s.draft.step building (.add x) := by
  cases h : s.currentThinkingIndex with
  | some i => simp [changeThinking, Draft.step, draft, h]
  | none => simp [changeThinking, handleThinkingStart, Draft.step, Draft.openThought, draft, building, h, modify_concat]

theorem draft_handleEvent (s : StreamingState ν) (ev : StreamEvent JsString ν) :
    (handleEvent s parse ev).draft = s.draft.step building ev.signal := by
  cases ev with
  | textDelta t =>
      cases h : s.currentTextIndex with
      | some i => simp [handleEvent, handleTextDelta, StreamEvent.signal, Draft.step, draft, h]
      | none => simp [handleEvent, handleTextDelta, openText, StreamEvent.signal, Draft.step, draft, h, modify_concat]
  | thinkingStart m =>
      cases h : s.currentThinkingIndex <;>
        simp [handleEvent, handleThinkingStart, StreamEvent.signal, Draft.step, Draft.openThought, building, draft, h]
  | thinkingDelta t => exact s.draft_changeThinking (.text t)
  | thinkingSignature t => exact s.draft_changeThinking (.signature t)
  | messageStart m => rfl
  | toolUseStart id name => rfl
  | toolUseInputDelta id part => rfl
  | toolUseStop id input m => rfl
  | thinkingStop => rfl
  | messageStop r u => rfl

theorem block_eq (s : StreamingState ν) (ref : BlockRef) :
    s.draft.showRef s.tools ref = (s.block ref).toList.map (ref, ·) := by
  cases ref with
  | text i =>
      simp only [Draft.showRef, showText, draft, block, List.isEmpty_iff]
      by_cases h : (s.textBuffers[i]?).getD [] = [] <;> simp [h]
  | tool id =>
      simp only [Draft.showRef, showTool, block]
      cases s.tools.get? id <;> rfl
  | thinking i =>
      simp only [Draft.showRef, draft, block]
      cases s.thinking[i]? with
      | none => rfl
      | some e =>
          have hblank : (e.textBuf.isEmpty && (shownSignature e.signature).isNone) = true ↔ e.Blank := by
            rw [Bool.and_eq_true, List.isEmpty_iff, Option.isNone_iff_eq_none]
            rfl
          simp only [showThought, hblank]
          split <;> rfl

theorem draft_stream [Zero ν] (events : List (StreamEvent JsString ν)) :
    (stream parse model events).draft = Draft.run building {} (events.map StreamEvent.signal) := by
  rw [Draft.run, List.foldl_map]
  exact run_related (R := fun (s : StreamingState ν) d => s.draft = d) (D := fun _ => True)
    (fun s d ev h _ => h ▸ s.draft_handleEvent ev) rfl fun _ _ => trivial

end StreamingState

/-! ## The aggregator -/

/-- The input of a tool is an object. -/
def StreamEvent.HasObject {α : Type} : StreamEvent α ν → Prop
  | .toolUseStop _ input _ => ∃ fields, input = some (.obj fields)
  | _ => True

namespace Aggregation

def entry (b : ThinkingBuffer) : ThinkingEntry := ⟨b.chunks.flatten, b.signature, b.providerMeta⟩

def draft (a : Aggregation ν) : Draft where
  texts := a.textBuffers.map List.flatten
  text := a.currentTextIndex
  thoughts := a.thinkingBuffers.map entry
  thought := a.currentThinkingIndex
  order := a.blockOrder

/-- The entries of the order that put a block into the content. -/
def shown (a : Aggregation ν) : List BlockRef := a.blockOrder.filter fun ref => (a.block ref).isSome

theorem map_modify {β γ : Type} (g : β → γ) (f : β → β) (f' : γ → γ) (h : ∀ b, g (f b) = f' (g b)) (l : List β)
    (i : Nat) : (l.modify i f).map g = (l.map g).modify i f' := by
  induction l generalizing i with
  | nil => simp
  | cons b l ih =>
      cases i with
      | zero => simp [h]
      | succ i => simp [ih]

theorem noThinking_eq {a : Aggregation ν} (h : a.draft.Valid) : a.noThinking = a.currentThinkingIndex.isNone := by
  unfold noThinking
  cases hthought : a.currentThinkingIndex with
  | none => rfl
  | some i =>
      have hi : i < a.thinkingBuffers.length := by simpa [draft] using h.thought i hthought
      simp [hi]

theorem draft_changeThinking {a : Aggregation ν} (h : a.draft.Valid) (x : Addition)
    {change : ThinkingBuffer → ThinkingBuffer} (hchange : ∀ b, entry (change b) = (entry b).add x) :
    (a.changeThinking change).draft = a.draft.step aggregating (.add x) := by
  have hempty : entry {} = {} := rfl
  unfold changeThinking
  rw [noThinking_eq h]
  cases hthought : a.currentThinkingIndex with
  | some i => simp [Draft.step, draft, hthought, map_modify entry change (·.add x) hchange]
  | none =>
      simp [openThinking, pushThinking, Draft.step, Draft.openThought, draft, aggregating, hthought, modify_concat,
        hchange, hempty]

theorem draft_step {a : Aggregation ν} (h : a.draft.Valid) (ev : StreamEvent JsString ν) :
    (a.step parse ev).draft = a.draft.step aggregating ev.signal := by
  cases ev with
  | textDelta t =>
      have hpush : ∀ b : List JsString, (b ++ [t]).flatten = b.flatten ++ t := fun b => by simp
      cases htext : a.currentTextIndex with
      | some i => simp [step, onTextDelta, StreamEvent.signal, Draft.step, draft, htext, map_modify List.flatten (· ++ [t]) (· ++ t) hpush]
      | none => simp [step, onTextDelta, StreamEvent.signal, Draft.step, draft, htext, modify_concat]
  | thinkingStart m =>
      have htake := map_modify entry (fun b => { b with providerMeta := m.or b.providerMeta }) (·.take m) fun _ => rfl
      have hnone : a.noThinking = a.currentThinkingIndex.isNone := noThinking_eq h
      have hnone' : noThinking { a with currentTextIndex := none } = a.noThinking := rfl
      simp only [step, onThinkingStart, hnone', hnone]
      cases hthought : a.currentThinkingIndex with
      | some i =>
          simp [pushThinking, StreamEvent.signal, Draft.step, draft, aggregating, hthought, htake]
      | none =>
          simp [openThinking, pushThinking, StreamEvent.signal, Draft.step, Draft.openThought, draft, hthought,
            modify_concat]
          rfl
  | thinkingDelta t => exact draft_changeThinking h (.text t) fun b => by simp [entry, ThinkingEntry.add]
  | thinkingSignature t => exact draft_changeThinking h (.signature t) fun b => rfl
  | messageStart m => rfl
  | toolUseStart id name => rfl
  | toolUseInputDelta id part => rfl
  | toolUseStop id input m => rfl
  | thinkingStop => rfl
  | messageStop r u => rfl

/-- Every input is an object. -/
def ObjectInputs (tools : JsMap JsString ToolEntry) : Prop :=
  ∀ id tb, tools.get? id = some tb → inputOrEmpty tb.input = objectOrEmpty tb.input

theorem block_eq {a : Aggregation ν} (h : ObjectInputs a.toolBuffers) (ref : BlockRef) :
    a.draft.showRef a.toolBuffers ref = (a.block ref).toList.map (ref, ·) := by
  cases ref with
  | text i =>
      simp only [Draft.showRef, showText, draft, block, List.isEmpty_iff, List.getElem?_map]
      by_cases h : ((a.textBuffers[i]?).map List.flatten).getD [] = [] <;> simp [h]
  | tool id =>
      simp only [Draft.showRef, showTool, block]
      cases htool : a.toolBuffers.get? id with
      | none => rfl
      | some tb =>
          simp only [h id tb htool]
          rfl
  | thinking i =>
      simp only [Draft.showRef, draft, block, List.getElem?_map]
      cases a.thinkingBuffers[i]? with
      | none => rfl
      | some t =>
          have hblank : (t.chunks.flatten.isEmpty && (shownSignature t.signature).isNone) = true ↔ (entry t).Blank := by
            rw [Bool.and_eq_true, List.isEmpty_iff, Option.isNone_iff_eq_none]
            rfl
          simp only [Option.map_some, showThought, hblank]
          split <;> rfl

theorem draft_loop [Zero ν] (events : List (StreamEvent JsString ν)) :
    (loop parse events).draft = Draft.run aggregating {} (events.map StreamEvent.signal) := by
  rw [Draft.run, List.foldl_map]
  refine (run_related (R := fun (a : Aggregation ν) d => a.draft = d ∧ d.Valid) (D := fun _ => True)
    (fun a d ev h _ => ?_) (by exact ⟨rfl, Draft.Valid.init⟩) fun _ _ => trivial).1
  obtain ⟨rfl, hvalid⟩ := h
  exact ⟨draft_step hvalid ev, hvalid.step _⟩

end Aggregation

/-! ## Tools -/

/-- Both reducers keep the same tools, whose inputs are objects, and the same end of the message. -/
structure Together (s : StreamingState ν) (a : Aggregation ν) : Prop where
  tools : s.tools = a.toolBuffers
  objects : Aggregation.ObjectInputs a.toolBuffers
  stopReason : s.stopReason = a.stopReason
  usage : s.usage = a.usage

/-- Text and thinking leave the tools and the end of the message alone. -/
theorem Together.of_frame {s s' : StreamingState ν} {a a' : Aggregation ν} (h : Together s a)
    (hs : s'.tools = s.tools ∧ s'.stopReason = s.stopReason ∧ s'.usage = s.usage)
    (ha : a'.toolBuffers = a.toolBuffers ∧ a'.stopReason = a.stopReason ∧ a'.usage = a.usage) : Together s' a' where
  tools := by rw [hs.1, ha.1, h.tools]
  objects := by
    rw [ha.1]
    exact h.objects
  stopReason := by rw [hs.2.1, ha.2.1, h.stopReason]
  usage := by rw [hs.2.2, ha.2.2, h.usage]

theorem frame_changeThinking (s : StreamingState ν) (change : ThinkingEntry → ThinkingEntry) :
    (changeThinking s change).tools = s.tools ∧ (changeThinking s change).stopReason = s.stopReason ∧
      (changeThinking s change).usage = s.usage := by
  cases hthought : s.currentThinkingIndex <;> simp [changeThinking, handleThinkingStart, hthought]

theorem frame_textDelta (s : StreamingState ν) (t : JsString) :
    (handleTextDelta s t).tools = s.tools ∧ (handleTextDelta s t).stopReason = s.stopReason ∧
      (handleTextDelta s t).usage = s.usage := by
  cases htext : s.currentTextIndex <;> simp [handleTextDelta, openText, htext]

namespace Aggregation

variable (a : Aggregation ν)

theorem frame_pushThinking : a.pushThinking.toolBuffers = a.toolBuffers ∧ a.pushThinking.stopReason = a.stopReason ∧
    a.pushThinking.usage = a.usage := by
  unfold pushThinking
  split <;> exact ⟨rfl, rfl, rfl⟩

theorem frame_changeThinking (change : ThinkingBuffer → ThinkingBuffer) :
    (a.changeThinking change).toolBuffers = a.toolBuffers ∧ (a.changeThinking change).stopReason = a.stopReason ∧
      (a.changeThinking change).usage = a.usage := by
  unfold changeThinking
  dsimp only
  split <;> split <;> exact ⟨rfl, rfl, rfl⟩

theorem frame_thinkingStart (m : Option Fields) :
    (a.onThinkingStart m).toolBuffers = a.toolBuffers ∧ (a.onThinkingStart m).stopReason = a.stopReason ∧
      (a.onThinkingStart m).usage = a.usage := by
  unfold onThinkingStart
  simp only [frame_pushThinking]
  split <;> split <;> exact ⟨rfl, rfl, rfl⟩

theorem frame_textDelta (t : JsString) :
    (a.onTextDelta t).toolBuffers = a.toolBuffers ∧ (a.onTextDelta t).stopReason = a.stopReason ∧
      (a.onTextDelta t).usage = a.usage := by
  unfold onTextDelta
  dsimp only
  split <;> split <;> exact ⟨rfl, rfl, rfl⟩

theorem ObjectInputs.set {tools : JsMap JsString ToolEntry} (h : ObjectInputs tools) (id name : JsString) :
    ObjectInputs (tools.set id { name }) := by
  intro id' tb htb
  rw [JsMap.get?_set] at htb
  split at htb
  · cases htb
    rfl
  · exact h id' tb htb

theorem ObjectInputs.modify {tools : JsMap JsString ToolEntry} (h : ObjectInputs tools) (id : JsString)
    {f : ToolEntry → ToolEntry}
    (hf : ∀ tb, inputOrEmpty tb.input = objectOrEmpty tb.input → inputOrEmpty (f tb).input = objectOrEmpty (f tb).input) :
    ObjectInputs (tools.modify id f) := by
  intro id' tb htb
  rw [JsMap.get?_modify] at htb
  split at htb
  · obtain ⟨tb', htb', rfl⟩ := Option.map_eq_some_iff.mp htb
    exact hf tb' (h _ tb' htb')
  · exact h id' tb htb

end Aggregation

theorem Together.step {s : StreamingState ν} {a : Aggregation ν} (h : Together s a) (ev : StreamEvent JsString ν)
    (hev : ev.HasObject) : Together (handleEvent s parse ev) (a.step parse ev) := by
  cases ev with
  | messageStart m => exact h.of_frame ⟨rfl, rfl, rfl⟩ ⟨rfl, rfl, rfl⟩
  | textDelta t => exact h.of_frame (frame_textDelta s t) (a.frame_textDelta t)
  | toolUseStart id name =>
      refine ⟨?_, h.objects.set id name, h.stopReason, h.usage⟩
      exact congrArg (JsMap.set · id { name }) h.tools
  | toolUseInputDelta id part =>
      refine ⟨?_, h.objects.modify id fun tb htb => htb, h.stopReason, h.usage⟩
      exact congrArg (JsMap.modify · id fun t => { t with partialJson := t.partialJson ++ part }) h.tools
  | toolUseStop id input m =>
      obtain ⟨fields, rfl⟩ := hev
      refine ⟨?_, h.objects.modify id fun tb _ => rfl, h.stopReason, h.usage⟩
      exact congrArg (JsMap.modify · id fun t =>
        { t with input := some (.obj fields), providerMeta := m.or t.providerMeta }) h.tools
  | thinkingStart m => exact h.of_frame ⟨rfl, rfl, rfl⟩ (a.frame_thinkingStart m)
  | thinkingDelta t => exact h.of_frame (frame_changeThinking s _) (a.frame_changeThinking _)
  | thinkingSignature t => exact h.of_frame (frame_changeThinking s _) (a.frame_changeThinking _)
  | thinkingStop => exact h.of_frame ⟨rfl, rfl, rfl⟩ ⟨rfl, rfl, rfl⟩
  | messageStop r u => exact ⟨h.tools, h.objects, rfl, rfl⟩

theorem together [Zero ν] (parse : JsString → Option Json) (model : JsString) (h : ∀ ev ∈ events, ev.HasObject) :
    Together (stream parse model events) (Aggregation.loop parse events) := by
  refine run_related (R := Together) (D := fun ev : StreamEvent JsString ν => ev.HasObject)
    (fun s a ev hsa hev => hsa.step ev hev) ?_ h
  refine ⟨rfl, fun id tb htb => ?_, rfl, rfl⟩
  rw [JsMap.get?_empty] at htb
  cases htb

theorem tool_kept {s : StreamingState ν} {id : JsString} (h : (s.tools.get? id).isSome)
    (ev : StreamEvent JsString ν) : ((handleEvent s parse ev).tools.get? id).isSome := by
  have hmodify (id' : JsString) (f : ToolEntry → ToolEntry) : ((s.tools.modify id' f).get? id).isSome := by
    rw [JsMap.get?_modify]
    split <;> simp [h]
  cases ev with
  | messageStart m => exact h
  | textDelta t =>
      change ((handleTextDelta s t).tools.get? id).isSome
      rwa [(frame_textDelta s t).1]
  | toolUseStart id' name =>
      change ((s.tools.set id' { name }).get? id).isSome
      rw [JsMap.get?_set]
      split <;> simp [h]
  | toolUseInputDelta id' part => exact hmodify id' _
  | toolUseStop id' input m => exact hmodify id' _
  | thinkingStart m => exact h
  | thinkingDelta t =>
      change ((changeThinking s _).tools.get? id).isSome
      rwa [(frame_changeThinking s _).1]
  | thinkingSignature t =>
      change ((changeThinking s _).tools.get? id).isSome
      rwa [(frame_changeThinking s _).1]
  | thinkingStop => exact h
  | messageStop r u => exact h

theorem tool_started (s : StreamingState ν) {id : JsString}
    (h : id ∈ toolIds (events.map StreamEvent.signal) ∨ (s.tools.get? id).isSome) :
    ((events.foldl (fun state ev => handleEvent state parse ev) s).tools.get? id).isSome := by
  induction events generalizing s with
  | nil =>
      rcases h with h | h
      · cases h
      · exact h
  | cons ev events ih =>
      refine ih (handleEvent s parse ev) ?_
      rcases h with h | h
      · rw [List.map_cons, toolIds, List.filterMap_cons] at h
        split at h
        · exact .inl h
        · rename_i id' hid'
          rcases List.mem_cons.mp h with rfl | h
          · cases ev with
            | toolUseStart id' name =>
                cases hid'
                right
                change ((s.tools.set id { name }).get? id).isSome
                simp
            | _ => cases hid'
          · exact .inl h
      · exact .inr (tool_kept h ev)

/-! ## Agreement -/

/-- The two reducers give the same response, in which each tool and each thinking block stands once. -/
structure Agree [Zero ν] (parse : JsString → Option Json) (model : JsString) (events : List (StreamEvent JsString ν)) :
    Prop where
  content : (aggregateStream parse events).content = (buildResponse (stream parse model events)).content
  stopReason : (aggregateStream parse events).stopReason = (buildResponse (stream parse model events)).stopReason
  usage : (aggregateStream parse events).usage = (buildResponse (stream parse model events)).usage
  aggregated : ((Aggregation.loop parse events).shown.filter (!·.isText)).Nodup
  built : ((stream parse model events).shown.filter (!·.isText)).Nodup

theorem shown_eq (order : List BlockRef) {block : BlockRef → Option ContentBlock} {show' : BlockRef → List Block}
    (h : ∀ ref, show' ref = (block ref).toList.map (ref, ·)) :
    order.filter (fun ref => (block ref).isSome) = (order.flatMap show').map Prod.fst ∧
      order.filterMap block = (order.flatMap show').map Prod.snd := by
  induction order with
  | nil => exact ⟨rfl, rfl⟩
  | cons ref order ih =>
      rw [List.flatMap_cons, List.map_append, List.map_append, ← ih.1, ← ih.2, h ref, List.filter_cons, List.filterMap_cons]
      cases block ref <;> exact ⟨rfl, rfl⟩

theorem orEmptyText_inj {A B : List ContentBlock} (hA : .text [] ∉ A) (hB : .text [] ∉ B) :
    orEmptyText A = orEmptyText B ↔ A = B := by
  unfold orEmptyText
  cases A with
  | nil =>
      cases B with
      | nil => simp
      | cons b B =>
          refine iff_of_false (fun h => ?_) nofun
          simp only [List.isEmpty_nil, if_true, List.isEmpty_cons, Bool.false_eq_true, if_false, List.cons.injEq] at h
          exact hB (h.1 ▸ List.mem_cons_self)
  | cons a A =>
      cases B with
      | nil =>
          refine iff_of_false (fun h => ?_) nofun
          simp only [List.isEmpty_nil, if_true, List.isEmpty_cons, Bool.false_eq_true, if_false, List.cons.injEq] at h
          exact hA (h.1 ▸ List.mem_cons_self)
      | cons b B => simp

theorem no_empty_text (T : JsMap JsString ToolEntry) (d : Draft) : .text [] ∉ (d.blocks T).map Prod.snd := by
  intro h
  obtain ⟨b, hb, heq⟩ := List.mem_map.mp h
  obtain ⟨ref, -, hb⟩ := List.mem_flatMap.mp hb
  cases ref with
  | text i =>
      simp only [Draft.showRef, showText] at hb
      split at hb
      · cases hb
      · rename_i ht
        obtain rfl := List.mem_singleton.mp hb
        exact ht (ContentBlock.text.inj heq)
  | tool id =>
      simp only [Draft.showRef, showTool] at hb
      split at hb
      · obtain rfl := List.mem_singleton.mp hb
        cases heq
      · cases hb
  | thinking i =>
      simp only [Draft.showRef] at hb
      split at hb
      · unfold showThought at hb
        split at hb
        · cases hb
        · obtain rfl := List.mem_singleton.mp hb
          cases heq
      · cases hb

theorem quiet_building (h : Option ThinkingEntry) (es : List Signal) : Quiet building h es := by
  induction es generalizing h with
  | nil => cases h <;> trivial
  | cons s es ih => cases s <;> cases h <;> exact ih _

/-- The blocks of a run from the start are those that are read off. -/
theorem blocks_start (P : Policy) (T : JsMap JsString ToolEntry) (es : List Signal) :
    (Draft.run P {} es).blocks T = rest P T {} es := by
  rw [Draft.blocks_run Draft.Valid.init]
  rfl

/-- For every stream whose tool inputs are objects. -/
theorem agree_iff [Zero ν] (parse : JsString → Option Json) (model : JsString)
    (events : List (StreamEvent JsString ν)) (h : ∀ ev ∈ events, ev.HasObject) :
    Agree parse model events ↔
      Tidy .out false (events.map StreamEvent.signal) ∧ (toolIds (events.map StreamEvent.signal)).Nodup := by
  obtain ⟨htools, hobjects, hstop, husage⟩ := together parse model h
  generalize hs : stream parse model events = s at htools hstop husage
  generalize ha : Aggregation.loop parse events = a at htools hobjects hstop husage
  have hsdraft : s.draft = Draft.run building {} (events.map StreamEvent.signal) := hs ▸ StreamingState.draft_stream events
  have hadraft : a.draft = Draft.run aggregating {} (events.map StreamEvent.signal) := ha ▸ Aggregation.draft_loop events
  have hstarted : ∀ id ∈ toolIds (events.map StreamEvent.signal), (s.tools.get? id).isSome := fun id hid =>
    hs ▸ tool_started _ (.inl hid)
  have hsblocks := shown_eq s.blockOrder s.block_eq
  have hablocks := shown_eq a.blockOrder (Aggregation.block_eq hobjects)
  have hsrest : s.blockOrder.flatMap (s.draft.showRef s.tools) =
      rest building s.tools {} (events.map StreamEvent.signal) := by
    rw [← blocks_start, ← hsdraft]
    rfl
  have harest : a.blockOrder.flatMap (a.draft.showRef a.toolBuffers) =
      rest aggregating s.tools {} (events.map StreamEvent.signal) := by
    rw [htools, ← blocks_start, ← hadraft]
    rfl
  have hcontent : a.response.content = (buildResponse s).content ↔
      contents aggregating s.tools {} (events.map StreamEvent.signal) =
        contents building s.tools {} (events.map StreamEvent.signal) := by
    have hA : .text [] ∉ a.blockOrder.filterMap a.block := hablocks.2 ▸ no_empty_text _ a.draft
    have hB : .text [] ∉ s.blockOrder.filterMap s.block := hsblocks.2 ▸ no_empty_text _ s.draft
    refine (orEmptyText_inj hA hB).trans ?_
    rw [hablocks.2, hsblocks.2, harest, hsrest]
    rfl
  have honce (P : Policy) : (refs P s.tools {} (events.map StreamEvent.signal)).Nodup ↔
      (toolIds (events.map StreamEvent.signal)).Nodup ∧ Quiet P none (events.map StreamEvent.signal) := by
    have hfresh := fresh_iff (P := P) (c := {}) hstarted fun _ _ h => by cases h
    refine Iff.trans ?_ hfresh
    exact (and_iff_left fun _ _ h => by cases h).symm
  have haonce : (a.shown.filter (!·.isText)).Nodup ↔
      (toolIds (events.map StreamEvent.signal)).Nodup ∧ Quiet aggregating none (events.map StreamEvent.signal) := by
    rw [← honce, Aggregation.shown, hablocks.1, harest]
    rfl
  have hsonce : (s.shown.filter (!·.isText)).Nodup ↔ (toolIds (events.map StreamEvent.signal)).Nodup := by
    have hbuilding := (honce building).trans (and_iff_left (quiet_building none _))
    rw [← hbuilding, StreamingState.shown, hsblocks.1, hsrest]
    rfl
  have htidy := agreeing_iff (T := s.tools) (p := .out) (c := {}) (d := {}) (events.map StreamEvent.signal)
    ⟨iff_of_true rfl rfl, fun _ => rfl, fun h => by cases h⟩ rfl fun _ _ _ _ h => by cases h
  refine Iff.trans ?_ (and_congr_left fun _ => htidy)
  constructor
  · intro hagree
    have hcontents := hagree.content
    have haggregated := hagree.aggregated
    rw [aggregateStream, ha, hs, hcontent] at hcontents
    rw [ha, haonce] at haggregated
    exact ⟨⟨hcontents, haggregated.2⟩, haggregated.1⟩
  · rintro ⟨⟨hcontents, hquiet⟩, hnodup⟩
    constructor
    · rw [aggregateStream, ha, hs, hcontent]
      exact hcontents
    · rw [aggregateStream, ha, hs]
      exact hstop.symm
    · rw [aggregateStream, ha, hs]
      exact husage.symm
    · rw [ha, haonce]
      exact ⟨hnodup, hquiet⟩
    · rw [hs, hsonce]
      exact hnodup

/-- A thought, an answer and a tool call. -/
def answered : List (StreamEvent JsString Nat) :=
  [.messageStart (js "m"), .thinkingStart none, .thinkingDelta (js "hm"), .thinkingSignature (js "s"), .thinkingStop,
    .textDelta (js "a"), .textDelta (js "b"), .toolUseStart (js "t") (js "read"), .toolUseInputDelta (js "t") (js "{}"),
    .toolUseStop (js "t") (some (.obj [])) none, .messageStop .toolUse { input := 1, output := 2 }]

theorem agree_answered : Agree (fun _ => none) (js "m") answered ↔
    Tidy .out false (answered.map StreamEvent.signal) ∧ (toolIds (answered.map StreamEvent.signal)).Nodup :=
  agree_iff _ _ answered (by simp [answered, StreamEvent.HasObject])

/-- A thinking block is started while one is open. -/
def restarted : List (StreamEvent JsString Nat) :=
  [.thinkingStart none, .thinkingDelta (js "a"), .thinkingStart none, .thinkingDelta (js "b"), .thinkingStop,
    .messageStop .endTurn { input := 1, output := 2 }]

/-- The aggregator shows the block twice, and the builder two blocks. -/
theorem restarted_twice : (∀ ev ∈ restarted, ev.HasObject) ∧ ¬Agree (fun _ => none) [] restarted := by
  refine ⟨by simp [restarted, StreamEvent.HasObject], fun h => absurd h.aggregated ?_⟩
  decide +kernel

end WrongStack.Streaming
