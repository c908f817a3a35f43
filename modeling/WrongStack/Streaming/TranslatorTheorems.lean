import WrongStack.Streaming.Lemmas.Protocol
import WrongStack.Streaming.Theorems

/-!
# What the translators emit

Whatever a body holds, both translators keep to the protocol of streams, so the two reducers of a stream agree on what
they emit.
-/

namespace WrongStack.Streaming

open Lib Json StreamState

variable {ν : Type} {q q' : Place} {es : Events ν} {parse : JsString → Option Json} {e : ToolState}

/-! ## The end of the calls -/

/-- Events that lead from `q` to `q'`, or somewhere if something throws. -/
def Settles (q q' : Place) : Except (Events ν) (Events ν) → Prop
  | .ok es => Reads q es q'
  | .error es => ∃ q'', Reads q es q''

theorem gather_ok {ε : Type} (es : List ε) (rest : List (Except (List ε) (List ε))) :
    gather (.ok es :: rest) = after es (gather rest) := by
  rw [gather]
  cases gather rest <;> rfl

theorem Settles.after {q'' : Place} {r : Except (Events ν) (Events ν)}
    (hr : Settles q' q'' r) (h : Reads q es q') : Settles q q'' (after es r) := by
  cases r with
  | ok es' => exact h.append hr
  | error es' => exact hr.imp fun _ hr => h.append hr

/-- The start of a call that was not announced, and its stop. -/
theorem stopCall_settles {id name : Json} (hid : e.emittedStart = true → e.id = some id) (c : Multiset Json) :
    Settles (ν := ν) (.within false (↑e.running.toList + c)) (.within false c) (stopCall parse id name e) := by
  have hopening : Reads (ν := ν) (.within false (↑e.running.toList + c))
      (if e.emittedStart then [] else [.toolUseStart id name]) (.within false (id ::ₘ c)) := by
    cases hstart : e.emittedStart with
    | true =>
        rw [ToolState.running, hstart, if_pos rfl, hid hstart]
        exact .nil
    | false =>
        rw [ToolState.running, hstart]
        simpa using Reads.single .toolUseStart
  unfold stopCall
  cases inputOf parse (joinArgBuffer e.chunks) with
  | some fields => exact hopening.append (.single .toolUseStop)
  | none => exact ⟨_, hopening⟩

/-- A call that was announced has an id and a name. -/
theorem ToolState.Sound.filters (he : e.Sound) (hstart : e.emittedStart = true) :
    (∃ id, e.id = some id ∧ e.id.filter Json.truthy = some id) ∧ ∃ name, e.name.filter Json.truthy = some name := by
  obtain ⟨id, hid⟩ := Option.isSome_iff_exists.mp (Option.isSome_filter.trans (he hstart).1)
  exact ⟨⟨id, (Option.filter_eq_some_iff.mp hid).1, hid⟩,
    Option.isSome_iff_exists.mp (Option.isSome_filter.trans (he hstart).2)⟩

theorem ToolState.Sound.not_running (he : e.Sound)
    (h : e.id.filter Json.truthy = none ∨ e.name.filter Json.truthy = none) : e.running = none := by
  refine if_neg fun hstart => ?_
  obtain ⟨⟨id, -, hid⟩, name, hname⟩ := he.filters hstart
  rcases h with h | h
  · cases hid.symm.trans h
  · cases hname.symm.trans h

theorem gather_settles {κ : Type} {f : κ × ToolState → Nat → Except (Events ν) (Events ν)}
    {entries : List (κ × ToolState)} (hf : ∀ e ∈ entries, ∀ i c,
      Settles (.within false (↑e.2.running.toList + c)) (.within false c) (f e i))
    (htail : Reads (.within false 0) es q) (i : Nat) :
    Settles (.within false (calls entries)) q (gather ((entries.zipIdx i).map (fun e => f e.1 e.2) ++ [.ok es])) := by
  induction entries generalizing i with
  | nil =>
      change Reads (.within false 0) (es ++ []) q
      rwa [List.append_nil]
  | cons e entries ih =>
      have hhead := hf e List.mem_cons_self i (calls entries)
      have hrest := ih (fun e' he' => hf e' (List.mem_cons_of_mem _ he')) (i + 1)
      simp only [List.zipIdx_cons, List.map_cons, List.cons_append, calls_cons]
      cases hfe : f e i with
      | error es' =>
          rw [hfe] at hhead
          exact hhead
      | ok es' =>
          rw [hfe] at hhead
          rw [gather_ok]
          exact hrest.after hhead

/-! ## The end of a stream -/

/-- After a body without a chunk nothing has begun, and after any other the message is ended. -/
def Place.Rests : Place → Prop
  | .within .. => False
  | _ => True

/-- The calls are stopped and the message is ended, if it has begun. -/
theorem ends {s : StreamState ν} (hs : s.Sound) (hclosed : s.thinkingOpen = false)
    {f : ToolKey × ToolState → Nat → Except (Events ν) (Events ν)}
    (hf : ∀ e : ToolKey × ToolState, e.2.Sound → ∀ i c,
      Settles (.within false (↑e.2.running.toList + c)) (.within false c) (f e i)) :
    ∃ q, q.Rests ∧ Settles s.place q
      (gather ((s.toolByIndex.entries.zipIdx.map fun e => f e.1 e.2) ++ [.ok (stopMessage s)])) := by
  unfold stopMessage place
  cases hstarted : s.started with
  | true =>
      rw [if_pos rfl, if_pos rfl, hclosed]
      refine ⟨.ended, trivial, gather_settles (fun e he => hf e ?_) (.single .messageStop) 0⟩
      exact hs.tools e.1 e.2 (JsMap.mem_entries_iff.mp he)
  | false =>
      rw [(hs.idle hstarted).2]
      exact ⟨.before, trivial, .nil⟩

theorem StreamState.Live.sound {s : StreamState ν} (h : s.Live) : s.Sound where
  tools := h.tools
  idle hstarted := by simp [h.started] at hstarted

theorem keeps_closeThinking_sound :
    Keeps (ν := ν) place Sound closeThinking fun s => s.Sound ∧ s.thinkingOpen = false := by
  intro s hs
  cases hstarted : s.started with
  | true =>
      obtain ⟨hquiet, hreads⟩ := keeps_closeThinking s ⟨hstarted, hs.tools⟩
      exact ⟨⟨hquiet.sound, hquiet.closed⟩, hreads⟩
  | false =>
      have hclosed := (hs.idle hstarted).1
      have hnothing : closeThinking s = (s, []) := by simp [closeThinking, hclosed]
      rw [hnothing]
      exact ⟨⟨hs, hclosed⟩, .nil⟩

theorem closeChunk_live (A : Arithmetic ν) (promptTokens : Json → Option Json) (chunk : Json) {s : StreamState ν}
    (hs : s.Live) : (closeChunk A promptTokens chunk s).Live ∧ (closeChunk A promptTokens chunk s).place = s.place := by
  unfold closeChunk
  dsimp only
  split <;> split <;> exact ⟨⟨hs.started, hs.tools⟩, rfl⟩

/-! ## Bodies -/

namespace Outcome

/-- What was emitted keeps to the protocol, to the end if nothing throws. -/
def WellFormed (q : Place) (o : Outcome (StreamEvent Json ν)) : Prop :=
  match o.broken with
  | none => ∃ q', q'.Rests ∧ Reads q o.events q'
  | some es => ∃ q', Reads q (o.events ++ es) q'

theorem WellFormed.prepend {o : Outcome (StreamEvent Json ν)} (h : Reads q es q') (ho : o.WellFormed q') :
    ({ o with events := es ++ o.events } : Outcome (StreamEvent Json ν)).WellFormed q := by
  unfold WellFormed at ho ⊢
  split at ho
  · simp only [‹o.broken = none›]
    exact ho.imp fun _ ho => ⟨ho.1, h.append ho.2⟩
  · simp only [‹o.broken = some _›, List.append_assoc]
    exact ho.imp fun _ ho => h.append ho

/-- What a step leads to. -/
def Steps {σ : Type} (place : σ → Place) (I : σ → Prop) (q : Place) :
    Except (Events ν) (σ × Events ν) → Prop
  | .ok (s', es) => I s' ∧ Reads q es (place s')
  | .error es => ∃ q', Reads q es q'

/-- The run rule of translators. -/
theorem of_wellFormed {σ μ : Type} (place : σ → Place) {I : σ → Prop}
    {step : σ → μ → Except (Events ν) (σ × Events ν)}
    {finish : σ → Except (Events ν) (Events ν)}
    (hstep : ∀ s m, I s → Steps place I (place s) (step s m))
    (hfinish : ∀ s, I s → ∃ q, q.Rests ∧ Settles (place s) q (finish s)) {s : σ} (hs : I s)
    (ms : List μ) :
    (Outcome.of step finish s ms).WellFormed (place s) := by
  induction ms generalizing s with
  | nil =>
      obtain ⟨q, hq, hsettles⟩ := hfinish s hs
      rw [Outcome.of]
      cases hend : finish s with
      | ok es =>
          rw [hend] at hsettles
          exact ⟨q, hq, hsettles⟩
      | error es =>
          rw [hend] at hsettles
          exact hsettles
  | cons m ms ih =>
      have hm := hstep s m hs
      rw [Outcome.of]
      cases hone : step s m with
      | ok r =>
          rw [hone] at hm
          exact (ih hm.1).prepend hm.2
      | error es =>
          rw [hone] at hm
          exact hm

end Outcome

/-! ## `openaiWireFormat` -/

namespace OpenAIPreset

theorem keeps_emitChunk (message : Nat) (chunk : Json) : Keeps (ν := ν) place Sound (emitChunk message chunk) Live := by
  refine (keeps_startMessage chunk).andThen ((keeps_emitReasoning chunk).andThen (.andThen (Q := Live) ?_ ?_))
  · unfold emitContent
    split
    · exact keeps_emitText _
    · exact .nothing
  · unfold emitToolCalls
    split
    · exact keeps_takeToolCalls message _
    · exact .nothing

theorem finishCall_settles (he : e.Sound) (c : Multiset Json) :
    Settles (ν := ν) (.within false (↑e.running.toList + c)) (.within false c) (finishCall parse e) := by
  unfold finishCall
  split
  · rename_i id name hid hname
    refine stopCall_settles (fun hstart => ?_) c
    obtain ⟨⟨id', hid', hfilter⟩, -⟩ := he.filters hstart
    exact hid'.trans (hfilter.symm.trans hid)
  · rename_i hnone
    rw [he.not_running]
    · exact (zero_add c).symm ▸ Reads.nil
    · cases hid : e.id.filter Json.truthy with
      | none => exact .inl rfl
      | some id =>
          cases hname : e.name.filter Json.truthy with
          | none => exact .inr rfl
          | some name => exact absurd hname (hnone id name hid)

theorem wellFormed (A : Arithmetic ν) (fallbackModel : JsString) (messages : List JsString) :
    (openaiWireFormat A parse fallbackModel messages).WellFormed .before := by
  have hstart : (createStreamState A fallbackModel).Sound := ⟨nofun, fun _ => ⟨rfl, rfl⟩⟩
  refine Outcome.of_wellFormed place (fun s msg hs => ?_) (fun s hs => ?_) hstart _
  · unfold parseStreamEvent
    split
    · exact ⟨hs, .nil⟩
    · rename_i chunk _
      obtain ⟨hlive, hreads⟩ := keeps_emitChunk msg.1 chunk s hs
      obtain ⟨hclosed, hplace⟩ := closeChunk_live A promptTokens chunk hlive
      dsimp only
      split
      · exact ⟨_, .nil⟩
      · exact ⟨hclosed.sound, hplace ▸ hreads⟩
  · obtain ⟨⟨hsound, hquiet⟩, hreads⟩ := keeps_closeThinking_sound s hs
    obtain ⟨q, hq, hsettles⟩ := ends (f := fun e _ => finishCall parse e.2) hsound hquiet fun e he _ =>
      finishCall_settles he
    have hcalls (l : List (ToolKey × ToolState)) :
        l.zipIdx.map (fun e => finishCall (ν := ν) parse e.1.2) = l.map fun e => finishCall parse e.2 := by
      conv_rhs => rw [← List.zipIdx_map_fst 0 l, List.map_map]
      rfl
    rw [hcalls] at hsettles
    have hall := hsettles.after hreads
    refine ⟨q, hq, ?_⟩
    unfold finalizeStream
    dsimp only
    split
    · rename_i hok
      rwa [hok] at hall
    · exact ⟨_, .nil⟩

end OpenAIPreset

/-! ## `parseOpenAIStream` -/

namespace OpenAI

/-- The filter holds nothing back before the message has begun. -/
structure Sound (s : State ν) : Prop where
  stream : s.stream.Sound
  carry : s.stream.started = false → ∀ f ∈ s.thinkFilter, f.carry = []

abbrev place (s : State ν) : Place := s.stream.place

abbrev Live (s : State ν) : Prop := s.stream.Live

theorem keeps_onStream {P Q : StreamState ν → Prop} {f : Emitter ν} (h : Keeps StreamState.place P f Q) :
    Keeps place (fun s => P s.stream) (onStream f) fun s => Q s.stream := fun s hs => h s.stream hs

theorem keeps_emitContentSegment (seg : ThinkSegment) :
    Keeps (ν := ν) StreamState.place StreamState.Live (emitContentSegment seg) StreamState.Live := by
  unfold emitContentSegment
  split
  · exact .nothing
  · split
    · exact keeps_thinkingDelta _ fun _ => false
    · exact keeps_emitText _

theorem keeps_filtered (use : ThinkTagFilter → List ThinkSegment × ThinkTagFilter) :
    Keeps (ν := ν) place Live (filtered use) Live := by
  intro s hs
  unfold filtered
  split
  · exact Keeps.each keeps_emitContentSegment _ s.stream hs
  · exact ⟨hs, .nil⟩

theorem keeps_emitChunk (message : Nat) (chunk : Json) :
    Keeps (ν := ν) place (fun s => s.stream.Sound) (emitChunk message chunk) Live := by
  refine (keeps_onStream (keeps_startMessage chunk)).andThen
    ((keeps_onStream (keeps_emitReasoning chunk)).andThen (.andThen (Q := Live) ?_ ?_))
  · intro s hs
    unfold emitContent
    split
    · exact ⟨hs, .nil⟩
    · exact keeps_filtered _ s hs
    · exact keeps_emitText _ s.stream hs
  · unfold emitToolCalls
    split
    · exact (keeps_filtered _).andThen (keeps_onStream (keeps_takeToolCalls message _))
    · exact .nothing

theorem keeps_flush :
    Keeps (ν := ν) place Sound (filtered ThinkTagFilter.flush) fun s => s.stream.Sound := by
  intro s hs
  cases hstarted : s.stream.started with
  | true =>
      obtain ⟨hlive, hreads⟩ := keeps_filtered ThinkTagFilter.flush s ⟨hstarted, hs.stream.tools⟩
      exact ⟨hlive.sound, hreads⟩
  | false =>
      unfold filtered
      split
      · rename_i f hf
        simp only [ThinkTagFilter.flush, hs.carry hstarted f hf, ThinkTagFilter.segment, List.isEmpty_nil, if_true]
        exact ⟨hs.stream, .nil⟩
      · exact ⟨hs.stream, .nil⟩

theorem finishCall_settles (he : e.Sound) (randomUUID : Nat → JsString) (i : Nat) (c : Multiset Json) :
    Settles (ν := ν) (.within false (↑e.running.toList + c)) (.within false c) (finishCall parse randomUUID i e) := by
  unfold finishCall
  split
  · rename_i hname
    rw [he.not_running (.inr hname)]
    exact (zero_add c).symm ▸ Reads.nil
  · refine stopCall_settles (fun hstart => ?_) c
    obtain ⟨⟨id, hid, hfilter⟩, -⟩ := he.filters hstart
    rw [hid, ← hid, hfilter]
    exact hid

theorem wellFormed (A : Arithmetic ν) (randomUUID : Nat → JsString) (stripThinkTags : Bool) (fallbackModel : JsString)
    (messages : List JsString) :
    (parseOpenAIStream A parse randomUUID stripThinkTags fallbackModel messages).WellFormed .before := by
  have hstart (thinkFilter : Option ThinkTagFilter) (h : ∀ f ∈ thinkFilter, f.carry = []) :
      Sound (⟨{ model := fallbackModel, usage := { input := A.zero, output := A.zero } }, thinkFilter⟩ : State ν) :=
    ⟨⟨nofun, fun _ => ⟨rfl, rfl⟩⟩, fun _ => h⟩
  refine Outcome.of_wellFormed place (fun s msg hs => ?_) (fun s hs => ?_) (hstart _ ?_) _
  · unfold step
    split
    · exact ⟨hs, .nil⟩
    · rename_i chunk _
      obtain ⟨hlive, hreads⟩ := keeps_emitChunk msg.1 chunk s hs.stream
      obtain ⟨hclosed, hplace⟩ := closeChunk_live A promptTokens chunk hlive
      dsimp only
      split
      · exact ⟨_, hreads⟩
      · refine ⟨⟨hclosed.sound, fun h => by simp [hclosed.started] at h⟩, ?_⟩
        change Reads _ _ (closeChunk ..).place
        rwa [hplace]
  · obtain ⟨⟨hsound, hquiet⟩, hreads⟩ := keeps_flush.andThen (keeps_onStream keeps_closeThinking_sound) s hs
    obtain ⟨q, hq, hsettles⟩ := ends (f := fun e i => finishCall parse randomUUID i e.2) hsound hquiet
      fun e he i => finishCall_settles he randomUUID i
    exact ⟨q, hq, hsettles.after hreads⟩
  · cases stripThinkTags <;> simp

end OpenAI

/-- Whatever the messages of a body hold, both translators emit a stream that keeps to the protocol. -/
theorem translators_wellFormed (A : Arithmetic ν) (parse : JsString → Option Json) (randomUUID : Nat → JsString)
    (stripThinkTags : Bool) (fallbackModel : JsString) (messages : List JsString) :
    (parseOpenAIStream A parse randomUUID stripThinkTags fallbackModel messages).WellFormed .before ∧
      (openaiWireFormat A parse fallbackModel messages).WellFormed .before :=
  ⟨OpenAI.wellFormed A randomUUID stripThinkTags fallbackModel messages,
    OpenAIPreset.wellFormed A fallbackModel messages⟩

/-! ## What becomes of the stream -/

def StreamEvent.map {α β : Type} (f : α → β) : StreamEvent α ν → StreamEvent β ν
  | .messageStart model => .messageStart (f model)
  | .textDelta text => .textDelta (f text)
  | .toolUseStart id name => .toolUseStart (f id) (f name)
  | .toolUseInputDelta id part => .toolUseInputDelta (f id) (f part)
  | .toolUseStop id input providerMeta => .toolUseStop (f id) input providerMeta
  | .thinkingStart providerMeta => .thinkingStart providerMeta
  | .thinkingDelta text => .thinkingDelta (f text)
  | .thinkingSignature signature => .thinkingSignature (f signature)
  | .thinkingStop => .thinkingStop
  | .messageStop stopReason usage => .messageStop stopReason usage

def Place.thinking : Place → Bool
  | .within thinking _ => thinking
  | _ => false

theorem TextPhase.text_ne_late {p : TextPhase} (h : p ≠ .late) (t : JsString) : p.text t ≠ .late := by
  cases p with
  | late => exact absurd rfl h
  | filled => simp [TextPhase.text]
  | _ => by_cases ht : t = [] <;> simp [TextPhase.text, ht]

/-- A stream that keeps to the protocol is tidy. -/
theorem Reads.tidy {events : List (StreamEvent JsString ν)} (h : Reads q (events.map (.map .str)) q') {p : TextPhase}
    (hp : p ≠ .late) : (∀ ev ∈ events, ev.HasObject) ∧ Tidy p q.thinking (events.map StreamEvent.signal) ∧
      (q.thinking = true → restarts (events.map StreamEvent.signal) = false) := by
  induction events generalizing q p with
  | nil => exact ⟨nofun, trivial, fun _ => rfl⟩
  | cons ev events ih =>
      rw [List.forall_mem_cons]
      cases h with
      | cons hnext hrest =>
          cases ev with
          | textDelta t =>
              cases hnext
              obtain ⟨hobject, htidy, -⟩ := ih hrest (TextPhase.text_ne_late hp t)
              exact ⟨⟨trivial, hobject⟩, ⟨fun h => absurd h hp, htidy⟩, nofun⟩
          | thinkingStart m =>
              cases hnext
              obtain ⟨hobject, htidy, hrestarts⟩ := ih hrest (p := .out) nofun
              refine ⟨⟨trivial, hobject⟩, ⟨fun h => ?_, htidy⟩, nofun⟩
              simp [hrestarts rfl, Place.thinking] at h
          | thinkingDelta t =>
              cases hnext
              obtain ⟨hobject, htidy, hrestarts⟩ := ih hrest hp
              exact ⟨⟨trivial, hobject⟩, htidy, hrestarts⟩
          | toolUseStart id name =>
              cases hnext
              obtain ⟨hobject, htidy, -⟩ := ih hrest (p := .out) nofun
              exact ⟨⟨trivial, hobject⟩, htidy, nofun⟩
          | toolUseStop id input m =>
              cases hnext
              obtain ⟨hobject, htidy, -⟩ := ih hrest (p := .out) nofun
              exact ⟨⟨⟨_, rfl⟩, hobject⟩, htidy, nofun⟩
          | thinkingSignature t => cases hnext
          | _ =>
              cases hnext
              obtain ⟨hobject, htidy, -⟩ := ih hrest hp
              exact ⟨⟨trivial, hobject⟩, htidy, by simp [Place.thinking, StreamEvent.signal, restarts]⟩

/-- Every stop that a translator emits has an object, and but for repeated ids its events are those on which the two
reducers agree. -/
theorem translated_tidy (A : Arithmetic ν) (parse : JsString → Option Json) (randomUUID : Nat → JsString)
    (stripThinkTags : Bool) (fallbackModel : JsString) (messages : List JsString) {o : Outcome (StreamEvent Json ν)}
    (ho : o = parseOpenAIStream A parse randomUUID stripThinkTags fallbackModel messages ∨
      o = openaiWireFormat A parse fallbackModel messages)
    {events : List (StreamEvent JsString ν)} (hevents : o.events ++ o.broken.getD [] = events.map (.map .str)) :
    (∀ ev ∈ events, ev.HasObject) ∧ Tidy .out false (events.map StreamEvent.signal) := by
  have hwell : o.WellFormed .before := by
    rcases ho with rfl | rfl
    · exact OpenAI.wellFormed A randomUUID stripThinkTags fallbackModel messages
    · exact OpenAIPreset.wellFormed A fallbackModel messages
  obtain ⟨q, hreads⟩ : ∃ q, Reads .before (events.map (.map .str)) q := by
    rw [← hevents]
    unfold Outcome.WellFormed at hwell
    split at hwell
    · rename_i hbroken
      simpa [hbroken] using hwell.imp fun _ => And.right
    · rename_i hbroken
      simpa [hbroken] using hwell
  obtain ⟨hobject, htidy, -⟩ := hreads.tidy (p := .out) nofun
  exact ⟨hobject, htidy⟩

def naturals : Arithmetic Nat := ⟨fun _ => 0, 0, (· + ·), (· - ·), (· != 0)⟩

/-- Every text is that of a chunk with one call. -/
def calling : JsString → Option Json := fun _ =>
  let call := Json.obj [(js "id", .str (js "c")), (js "function", .obj [(js "name", .str (js "read"))])]
  some (.obj [(js "choices", .arr [.obj [(js "delta", .obj [(js "tool_calls", .arr [call])])]])])

def called : List (StreamEvent JsString Nat) :=
  [.messageStart (js "m"), .toolUseStart (js "c") (js "read"), .toolUseStop (js "c") (some (.obj [])) none,
    .messageStop .endTurn { input := 0, output := 0 }]

theorem translated_tidy_called :
    (∀ ev ∈ called, ev.HasObject) ∧ Tidy .out false (called.map StreamEvent.signal) :=
  translated_tidy naturals calling (fun _ => []) false (js "m") [js "1"] (.inr rfl) rfl

end WrongStack.Streaming
