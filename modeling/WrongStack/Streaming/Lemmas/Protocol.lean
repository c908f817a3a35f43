import Mathlib.Data.Multiset.AddSub
import WrongStack.Streaming.OpenAI

/-!
# The protocol of a stream

What a consumer may meet at each place of a stream, and that the parts of a translator keep to it.
-/

namespace WrongStack.Streaming

open Lib Json

/-! ## The protocol -/

abbrev Events (ν : Type) := List (StreamEvent Json ν)

variable {ν : Type}

/-- Where a stream is. Within a message a thinking block is open or not, and the calls that were started run. -/
inductive Place
  | before
  | within (thinking : Bool) (calls : Multiset Json)
  | ended

/-- Nothing but thoughts is within a thinking block. A stopped call has its input, and a message ends when no call
runs. -/
inductive Next : Place → StreamEvent Json ν → Place → Prop
  | messageStart {model} : Next .before (.messageStart model) (.within false 0)
  | textDelta {calls text} : Next (.within false calls) (.textDelta text) (.within false calls)
  | thinkingStart {calls} : Next (.within false calls) (.thinkingStart none) (.within true calls)
  | thinkingDelta {calls text} : Next (.within true calls) (.thinkingDelta text) (.within true calls)
  | thinkingStop {calls} : Next (.within true calls) .thinkingStop (.within false calls)
  | toolUseStart {calls id name} : Next (.within false calls) (.toolUseStart id name) (.within false (id ::ₘ calls))
  | toolUseInputDelta {calls id part} :
      id ∈ calls → Next (.within false calls) (.toolUseInputDelta id part) (.within false calls)
  | toolUseStop {calls id fields} :
      Next (.within false (id ::ₘ calls)) (.toolUseStop id (some (.obj fields)) none) (.within false calls)
  | messageStop {stopReason usage} : Next (.within false 0) (.messageStop stopReason usage) .ended

inductive Reads : Place → Events ν → Place → Prop
  | nil {q} : Reads q [] q
  | cons {q q' q'' ev es} : Next q ev q' → Reads q' es q'' → Reads q (ev :: es) q''

variable {q q' q'' : Place} {ev : StreamEvent Json ν} {es es' : Events ν}

theorem Reads.single (h : Next q ev q') : Reads q [ev] q' := .cons h .nil

theorem Reads.append (h : Reads q es q') (h' : Reads q' es' q'') : Reads q (es ++ es') q'' := by
  induction h with
  | nil => exact h'
  | cons hnext _ ih => exact .cons hnext (ih h')

theorem Reads.each {β : Type} {f : β → StreamEvent Json ν} (h : ∀ b, Next q (f b) q) (l : List β) :
    Reads q (l.map f) q := by
  induction l with
  | nil => exact .nil
  | cons b l ih => exact .cons (h b) ih

/-! ## Steps that keep to it -/

/-- From a state that meets `P` the step leads to one that meets `Q`, and what it emits leads from place to place. -/
def Keeps {σ : Type} (place : σ → Place) (P : σ → Prop) (f : Emit σ (StreamEvent Json ν)) (Q : σ → Prop) : Prop :=
  ∀ s, P s → Q (f s).1 ∧ Reads (place s) (f s).2 (place (f s).1)

section
variable {σ β : Type} {place : σ → Place} {P Q R : σ → Prop} {f g : Emit σ (StreamEvent Json ν)}

theorem Keeps.andThen (hf : Keeps place P f Q) (hg : Keeps place Q g R) : Keeps place P (f.andThen g) R := by
  intro s hs
  obtain ⟨hQ, hfirst⟩ := hf s hs
  obtain ⟨hR, hsecond⟩ := hg _ hQ
  exact ⟨hR, hfirst.append hsecond⟩

theorem Keeps.nothing : Keeps (ν := ν) place P .nothing P := fun _ hs => ⟨hs, .nil⟩

theorem Keeps.each {f : β → Emit σ (StreamEvent Json ν)} (h : ∀ b, Keeps place P (f b) P) (l : List β) :
    Keeps place P (.each f l) P := by
  induction l with
  | nil => exact .nothing
  | cons b l ih => exact (h b).andThen ih

theorem Keeps.weaken (h : Keeps place P f Q) (hQ : ∀ s, Q s → R s) : Keeps place P f R := fun s hs =>
  ⟨hQ _ (h s hs).1, (h s hs).2⟩

end

/-! ## The calls that run -/

/-- The id of a call that was announced. -/
def ToolState.running (e : ToolState) : Option Json := if e.emittedStart then e.id else none

/-- An announced call can be stopped by its id and name. -/
def ToolState.Sound (e : ToolState) : Prop := e.emittedStart = true → isTruthy e.id = true ∧ isTruthy e.name = true

def calls {κ : Type} (entries : List (κ × ToolState)) : Multiset Json := ↑(entries.filterMap fun e => e.2.running)

@[simp] theorem calls_cons {κ : Type} (e : κ × ToolState) (entries : List (κ × ToolState)) :
    calls (e :: entries) = ↑e.2.running.toList + calls entries := by
  rw [calls, List.filterMap_cons]
  cases e.2.running <;> rfl

theorem mem_calls {κ : Type} [DecidableEq κ] {m : JsMap κ ToolState} {k : κ} {e : ToolState} {id : Json}
    (h : m.get? k = some e) (hid : id ∈ e.running) : id ∈ calls m.entries :=
  List.mem_filterMap.mpr ⟨(k, e), JsMap.mem_entries_iff.mpr h, hid⟩

theorem calls_setList {κ : Type} [DecidableEq κ] (k : κ) (e : ToolState) (l : List (κ × ToolState)) :
    calls (JsMap.setList k e l) + ↑((JsMap.lookupList k l).bind ToolState.running).toList = calls l + ↑e.running.toList := by
  induction l with
  | nil =>
      rw [JsMap.setList, calls_cons]
      exact (add_zero _).trans (add_comm _ _)
  | cons p l ih =>
      by_cases h : p.1 = k
      · simp only [JsMap.setList, JsMap.lookupList, h, if_true, calls_cons, Option.bind_some]
        rw [add_comm, add_comm _ (calls l), ← add_assoc]
      · simp only [JsMap.setList, JsMap.lookupList, h, if_false, calls_cons, add_assoc, ih]

/-- A fragment changes neither the id of an announced call nor whether it is announced. -/
theorem merged_spec (tc : ToolDelta) (o : Option ToolState) (ho : ∀ e ∈ o, e.Sound) :
    (merged o tc).Sound ∧ (merged o tc).running = o.bind ToolState.running := by
  cases o with
  | none => exact ⟨nofun, rfl⟩
  | some e =>
      cases hstart : e.emittedStart with
      | false => simp [merged, ToolState.Sound, ToolState.running, hstart]
      | true =>
          obtain ⟨hid, hname⟩ := ho e rfl hstart
          simp [merged, ToolState.Sound, ToolState.running, hstart, hid, hname]

/-- A call is announced with its id, which runs from then on, or nothing is emitted. -/
theorem announced_spec {e : ToolState} (he : e.Sound) : (announced (ν := ν) e).1.Sound ∧
    ∀ c c' : Multiset Json, c' + ↑e.running.toList = c + ↑(announced (ν := ν) e).1.running.toList →
      Reads (.within false c) (announced (ν := ν) e).2 (.within false c') := by
  have hsame : ∀ c c' : Multiset Json, c' + ↑e.running.toList = c + ↑e.running.toList →
      Reads (ν := ν) (.within false c) [] (.within false c') := by
    intro c c' h
    rw [add_right_cancel h]
    exact .nil
  unfold announced
  split
  · rename_i id name hstart hid hname
    split
    · rename_i htruthy
      rw [Bool.and_eq_true] at htruthy
      refine ⟨fun _ => by simpa [isTruthy, hid, hname] using htruthy, fun c c' h => ?_⟩
      have hc : c' = id ::ₘ c := by
        rw [← Multiset.singleton_add, add_comm]
        simpa [ToolState.running, hstart, hid] using h
      rw [hc]
      exact .single .toolUseStart
    · exact ⟨he, hsame⟩
  · exact ⟨he, hsame⟩

theorem emittedChunks_spec {e : ToolState} (he : e.Sound) :
    (emittedChunks (ν := ν) e).1.Sound ∧ (emittedChunks (ν := ν) e).1.running = e.running ∧
      ∀ c : Multiset Json, (∀ id ∈ e.running, id ∈ c) →
        Reads (.within false c) (emittedChunks (ν := ν) e).2 (.within false c) := by
  unfold emittedChunks
  split
  · rename_i id hstart hid
    split
    · refine ⟨he, rfl, fun c hc => .each (fun part => .toolUseInputDelta (hc id ?_)) _⟩
      simp [ToolState.running, hstart, hid]
    · exact ⟨he, rfl, fun _ _ => .nil⟩
  · exact ⟨he, rfl, fun _ _ => .nil⟩

/-! ## The parts of a chunk -/

namespace StreamState

def place (s : StreamState ν) : Place :=
  if s.started then .within s.thinkingOpen (calls s.toolByIndex.entries) else .before

def SoundTools (s : StreamState ν) : Prop := ∀ k e, s.toolByIndex.get? k = some e → e.Sound

/-- Nothing is open before the message has begun. -/
structure Sound (s : StreamState ν) : Prop where
  tools : s.SoundTools
  idle : s.started = false → s.thinkingOpen = false ∧ s.toolByIndex.entries = []

structure Live (s : StreamState ν) : Prop where
  started : s.started = true
  tools : s.SoundTools

/-- No thinking block is open. -/
structure Quiet (s : StreamState ν) : Prop extends s.Live where
  closed : s.thinkingOpen = false

theorem Live.place_eq {s : StreamState ν} (h : s.Live) :
    s.place = .within s.thinkingOpen (calls s.toolByIndex.entries) := if_pos h.started

end StreamState

open StreamState

theorem startMessage_eq (chunk : Json) (s : StreamState ν) : ∃ model, startMessage chunk s =
    if s.started then ({ s with model }, []) else ({ s with model, started := true }, [.messageStart (.str model)]) := by
  unfold startMessage
  split
  · exact ⟨_, rfl⟩
  · exact ⟨s.model, rfl⟩

theorem keeps_startMessage (chunk : Json) : Keeps (ν := ν) place Sound (startMessage chunk) Live := by
  intro s hs
  obtain ⟨model, heq⟩ := startMessage_eq chunk s
  rw [heq]
  cases hstarted : s.started with
  | true =>
      refine ⟨⟨rfl, hs.tools⟩, ?_⟩
      simpa [place, hstarted] using Reads.nil
  | false =>
      obtain ⟨hclosed, hnone⟩ := hs.idle hstarted
      refine ⟨⟨rfl, hs.tools⟩, ?_⟩
      simpa [place, hstarted, hclosed, hnone, calls] using Reads.single .messageStart

theorem keeps_openThinking : Keeps (ν := ν) place Live openThinking fun s => s.Live ∧ s.thinkingOpen = true := by
  intro s hs
  unfold openThinking
  split
  · exact ⟨⟨hs, ‹_›⟩, .nil⟩
  · have hs' : ({ s with thinkingOpen := true } : StreamState ν).Live := ⟨hs.started, hs.tools⟩
    refine ⟨⟨hs', rfl⟩, ?_⟩
    rw [hs.place_eq, hs'.place_eq, Bool.eq_false_of_not_eq_true ‹¬ s.thinkingOpen = true›]
    exact .single .thinkingStart

theorem keeps_closeThinking : Keeps (ν := ν) place Live closeThinking Quiet := by
  intro s hs
  unfold closeThinking
  split
  · have hs' : ({ s with thinkingOpen := false } : StreamState ν).Live := ⟨hs.started, hs.tools⟩
    refine ⟨⟨hs', rfl⟩, ?_⟩
    rw [hs.place_eq, hs'.place_eq, ‹s.thinkingOpen = true›]
    exact .single .thinkingStop
  · exact ⟨⟨hs, Bool.eq_false_of_not_eq_true ‹_›⟩, .nil⟩

/-- A thought, whatever becomes of the block of text. -/
theorem keeps_thinkingDelta (text : Json) (change : StreamState ν → Bool) :
    Keeps place Live (openThinking.andThen fun s => ({ s with textOpen := change s }, [.thinkingDelta text])) Live := by
  refine keeps_openThinking.andThen fun s hs => ?_
  have hs' : ({ s with textOpen := change s } : StreamState ν).Live := ⟨hs.1.started, hs.1.tools⟩
  refine ⟨hs', ?_⟩
  rw [hs.1.place_eq, hs'.place_eq, hs.2]
  exact .single .thinkingDelta

theorem keeps_emitThinking (text : Json) : Keeps (ν := ν) place Live (emitThinking text) Live :=
  keeps_thinkingDelta text (·.textOpen)

theorem keeps_emitText (text : Json) : Keeps (ν := ν) place Live (emitText text) Live := by
  refine keeps_closeThinking.andThen fun s hs => ?_
  have hs' : ({ s with textOpen := true } : StreamState ν).Live := ⟨hs.started, hs.tools⟩
  refine ⟨hs', ?_⟩
  rw [hs.place_eq, hs'.place_eq, hs.closed]
  exact .single .textDelta

theorem keeps_emitReasoning (chunk : Json) : Keeps (ν := ν) place Live (emitReasoning chunk) Live := by
  unfold emitReasoning
  split
  · exact .nothing
  · exact keeps_emitThinking _

theorem keeps_takeDelta (tc : ToolDelta) : Keeps (ν := ν) place Quiet (takeDelta tc) Quiet := by
  intro s hs
  obtain ⟨hmerged, hrunning⟩ := merged_spec tc (s.toolByIndex.get? tc.key) fun e he => hs.tools _ e he
  obtain ⟨hsound, hstart⟩ := announced_spec (ν := ν) hmerged
  obtain ⟨hemitted, hkept, hchunks⟩ := emittedChunks_spec (ν := ν) hsound
  have htools : (takeDelta tc s).1.SoundTools := by
    intro k e he
    rw [takeDelta, JsMap.get?_set] at he
    split at he
    · cases he
      exact hemitted
    · exact hs.tools k e he
  have hquiet : (takeDelta tc s).1.Quiet := ⟨⟨hs.started, htools⟩, hs.closed⟩
  refine ⟨hquiet, ?_⟩
  rw [hs.place_eq, hquiet.place_eq, hs.closed, hquiet.closed]
  refine .append (hstart _ _ ?_) (hchunks _ fun id hid => mem_calls (JsMap.get?_set_self ..) (hkept ▸ hid))
  rw [hrunning, ← hkept]
  exact calls_setList ..

theorem keeps_takeToolCalls (message : Nat) (calls : Json) :
    Keeps (ν := ν) place Live (takeToolCalls message calls) Live :=
  (keeps_closeThinking.andThen (.each keeps_takeDelta _)).weaken fun _ h => h.toLive

end WrongStack.Streaming
