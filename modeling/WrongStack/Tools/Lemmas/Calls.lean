import WrongStack.Tools.AgentTools

/-!
# What a call can do between two awaits

`Moves` lists the moves of a call with the events they leave, and forgets texts and budgets. Every reply is
answered by one of them.
-/

namespace WrongStack.Tools

open Lib Utils Permission Setup

variable {o : Setup} {i : Nat} {use : ToolUse} {tool : Tool} {input : Json} {budget : Nat}
  {st : Stage} {reply : Reply} {r : Resumed}

/-- `tool.validate` accepts the input. -/
def Validates (tool : Tool) (input : Json) : Prop := ∀ validate ∈ tool.validate, validate input = .ok []

/-- A tool runs. -/
def Stage.executes : Stage → Bool
  | execute .. => true
  | _ => false

inductive Moves (o : Setup) (i : Nat) (use : ToolUse) : Stage → Stage → List Event → Prop
  | found {tool : Tool} (hget : o.registry.get use.name = some tool)
      (hschema : validateAgainstSchema use.input tool.inputSchema = []) :
      Moves o i use .waiting (.preToolUse tool) []
  | evaluates {tool : Tool} {input : Json}
      (hschema : input = use.input ∨ validateAgainstSchema input tool.inputSchema = [])
      (hvalid : Validates tool input) :
      Moves o i use (.preToolUse tool) (.evaluate tool input) [.evaluated i input]
  | asks {tool : Tool} {input : Json} (hawaiter : o.confirmAwaiter = true) :
      Moves o i use (.evaluate tool input) (.confirmAwaiter tool input) [.asked i input]
  | defers {tool : Tool} {input : Json} {pending : ToolConfirmPendingResult}
      (hid : pending.toolUseId = use.id) (hinput : pending.input = input) :
      Moves o i use (.evaluate tool input) (.settled (.pending tool pending)) []
  | starts {tool : Tool} {input : Json} {hint : Nat} :
      Moves o i use (.evaluate tool input) (.execute tool input hint) [.started i input]
  | confirms {tool : Tool} {input : Json} {hint : Nat} {choice : Choice} :
      Moves o i use (.confirmAwaiter tool input) (.execute tool input hint)
        [.answered i choice, .started i input]
  | refuses {tool : Tool} {input : Json} {result : ToolResult} {choice : Choice}
      (hid : result.toolUseId = use.id) :
      Moves o i use (.confirmAwaiter tool input) (.settled (.result result)) [.answered i choice]
  | returns {tool : Tool} {input : Json} {hint : Nat} {result : ToolResult}
      (hid : result.toolUseId = use.id) :
      Moves o i use (.execute tool input hint) (.postToolUse tool result) [.finished i]
  | throws {tool : Tool} {input : Json} {hint : Nat} {result : ToolResult}
      (hid : result.toolUseId = use.id) :
      Moves o i use (.execute tool input hint) (.settled (.result result)) [.finished i]
  | settles {st : Stage} {result : ToolResult} (hst : st.executes = false) (hunsettled : st.isSettled = false)
      (hid : result.toolUseId = use.id ∨ ∃ tool result', st = .postToolUse tool result' ∧
        result.toolUseId = result'.toolUseId) :
      Moves o i use st (.settled (.result result)) []

theorem settle_moves {result : ToolResult} (hst : st.executes = false) (hunsettled : st.isSettled = false)
    (hid : result.toolUseId = use.id) :
    Moves o i use st (settle budget result).stage (settle budget result).events :=
  .settles hst hunsettled (.inl hid)

theorem safeRunCatch_moves {err : Thrown} (hst : st.executes = false) (hunsettled : st.isSettled = false) :
    Moves o i use st (o.safeRunCatch use budget err).stage (o.safeRunCatch use budget err).events :=
  settle_moves hst hunsettled rfl

theorem runOneCatch_settled (o : Setup) (use : ToolUse) (tool : Tool) (budget : Nat) (err : Thrown) :
    ∃ result, o.runOneCatch use tool budget err = settle budget result ∧ result.toolUseId = use.id := by
  cases err with
  | bare message => exact ⟨_, rfl, rfl⟩
  | structured message description => exact ⟨_, rfl, rfl⟩

theorem runOneCatch_moves {err : Thrown} (hst : st.executes = false) (hunsettled : st.isSettled = false) :
    Moves o i use st (o.runOneCatch use tool budget err).stage (o.runOneCatch use tool budget err).events := by
  obtain ⟨result, heq, hid⟩ := runOneCatch_settled o use tool budget err
  rw [heq]
  exact settle_moves hst hunsettled hid

theorem begin_moves :
    Moves o i use .waiting (o.begin use budget).stage (o.begin use budget).events := by
  unfold Setup.begin
  split
  · exact settle_moves rfl rfl rfl
  · rename_i tool hget
    split
    · rename_i hschema
      split
      · exact settle_moves rfl rfl rfl
      · exact .found hget hschema
    · exact settle_moves rfl rfl rfl

theorem crossFields_moves (hschema : input = use.input ∨ validateAgainstSchema input tool.inputSchema = []) :
    Moves o i use (.preToolUse tool) (o.crossFields i use tool input budget).stage
      (o.crossFields i use tool input budget).events := by
  unfold Setup.crossFields
  split
  · rename_i hnone
    exact .evaluates hschema fun validate hv => by simp [hnone] at hv
  · rename_i validate hsome
    split
    · rename_i hok
      refine .evaluates hschema fun v hv => ?_
      obtain rfl := Option.some.inj (hsome.symm.trans hv)
      exact hok
    · exact settle_moves rfl rfl rfl
    · exact safeRunCatch_moves rfl rfl

theorem afterHook_moves {pre : PreToolUseResult} :
    Moves o i use (.preToolUse tool) (o.afterHook i use tool pre budget).stage
      (o.afterHook i use tool pre budget).events := by
  unfold Setup.afterHook
  split
  · exact settle_moves rfl rfl rfl
  · split
    · exact crossFields_moves (.inl rfl)
    · split
      · exact crossFields_moves (.inl rfl)
      · split
        · rename_i hschema
          exact crossFields_moves (.inr hschema)
        · exact settle_moves rfl rfl rfl

theorem afterEvaluate_moves {decision : PermissionDecision} {yolo : Bool} {signal : Option Thrown} :
    Moves o i use (.evaluate tool input) (o.afterEvaluate i use tool input decision yolo signal budget).stage
      (o.afterEvaluate i use tool input decision yolo signal budget).events := by
  unfold Setup.afterEvaluate
  split
  · exact settle_moves rfl rfl rfl
  · split
    · rename_i hawaiter
      exact .asks hawaiter
    · exact .defers rfl rfl
  · unfold Setup.execute
    cases signal with
    | none => exact .starts
    | some err => exact runOneCatch_moves rfl rfl

theorem afterConfirm_moves {choice : Choice} {signal : Option Thrown} :
    Moves o i use (.confirmAwaiter tool input) (o.afterConfirm i use tool input choice signal budget).stage
      (o.afterConfirm i use tool input choice signal budget).events := by
  unfold Setup.afterConfirm
  split
  · unfold Setup.execute
    cases signal with
    | none => exact .confirms
    | some err =>
        obtain ⟨result, heq, hid⟩ := runOneCatch_settled o use tool budget err
        simp only [heq]
        exact .refuses hid
  · exact .refuses rfl

theorem afterExecute_moves {hint : Nat} {produced : Except Thrown JsString} :
    Moves o i use (.execute tool input hint) (o.afterExecute i use tool produced budget).stage
      (o.afterExecute i use tool produced budget).events := by
  unfold Setup.afterExecute
  cases produced with
  | ok text => exact .returns rfl
  | error err =>
      obtain ⟨result, heq, hid⟩ := runOneCatch_settled o use tool budget err
      simp only [heq]
      exact .throws hid

theorem afterPostToolUse_moves {result : ToolResult} {additionalContext : Option JsString} :
    Moves o i use (.postToolUse tool result) (afterPostToolUse result additionalContext budget).stage
      (afterPostToolUse result additionalContext budget).events := by
  unfold afterPostToolUse
  split
  · exact .settles rfl rfl (.inr ⟨_, _, rfl, rfl⟩)
  · exact .settles rfl rfl (.inr ⟨_, _, rfl, rfl⟩)

theorem resume_moves (h : o.resume i use budget st reply = some r) : Moves o i use st r.stage r.events := by
  unfold Setup.resume at h
  split at h
  · obtain rfl := Option.some.inj h
    exact begin_moves
  · obtain rfl := Option.some.inj h
    split
    · exact afterHook_moves
    · exact safeRunCatch_moves rfl rfl
  · obtain rfl := Option.some.inj h
    split
    · exact afterEvaluate_moves
    · exact safeRunCatch_moves rfl rfl
  · obtain rfl := Option.some.inj h
    split
    · exact afterConfirm_moves
    · exact safeRunCatch_moves rfl rfl
  · obtain rfl := Option.some.inj h
    exact afterExecute_moves
  · obtain rfl := Option.some.inj h
    split
    · exact afterPostToolUse_moves
    · exact runOneCatch_moves rfl rfl
  · simp at h

end WrongStack.Tools

/-!
# What a step of a batch does

`Steps` lists the steps that the code can take, and a run is a list of such steps with others in between
that change nothing.
-/

namespace WrongStack.Tools

open Lib Permission Setup

variable {o : Setup} {uses : List ToolUse} {b b' : Batch} {op : Op} {i : Nat}

inductive Steps (o : Setup) (uses : List ToolUse) (b : Batch) : Op → Batch → Prop
  | call {i : Nat} {use : ToolUse} {reply : Reply} {r : Resumed} (hphase : b.phase = .executing)
      (huse : uses[i]? = some use) (hbegin : b.stages i = .waiting → o.canBegin uses b i = true)
      (hr : o.resume i use b.budget (b.stages i) reply = some r) :
      Steps o uses b (.call i reply)
        { b with stages := Function.update b.stages i r.stage, budget := r.budget, log := b.log ++ r.events }
  | gather (hphase : b.phase = .executing) (hsettled : ∀ i < uses.length, (b.stages i).isSettled = true) :
      Steps o uses b .gather { b with phase := .handling (o.order uses) }
  | handles {i : Nat} {rest : List Nat} {result : ToolResult} (hphase : b.phase = .handling (i :: rest))
      (hstage : b.stages i = .settled (.result result)) :
      Steps o uses b .handle (push uses b i result ToolUse.input rest)
  | asks {i : Nat} {rest : List Nat} {tool : Tool} {pending : ToolConfirmPendingResult}
      (hphase : b.phase = .handling (i :: rest)) (hstage : b.stages i = .settled (.pending tool pending)) :
      Steps o uses b .handle
        { b with phase := .confirming i tool pending rest, log := b.log ++ [.asked i pending.input] }
  | declines {i : Nat} {rest : List Nat} {tool : Tool} {pending : ToolConfirmPendingResult}
      {choice : Choice} {signal : Option Thrown} (hphase : b.phase = .confirming i tool pending rest)
      (hchoice : choice.approves = false) :
      Steps o uses b (.answer choice signal)
        (push uses { b with log := b.log ++ [.answered i choice] } i (refused tool pending choice)
          (fun _ => pending.input) rest)
  | aborts {i : Nat} {rest : List Nat} {tool : Tool} {pending : ToolConfirmPendingResult}
      {choice : Choice} {err : Thrown} (hphase : b.phase = .confirming i tool pending rest)
      (hchoice : choice.approves = true) :
      Steps o uses b (.answer choice (some err))
        (push uses { b with log := b.log ++ [.answered i choice] } i (rerunCatch tool pending err)
          (fun _ => pending.input) rest)
  | approves {i : Nat} {rest : List Nat} {tool : Tool} {pending : ToolConfirmPendingResult}
      {choice : Choice} (hphase : b.phase = .confirming i tool pending rest)
      (hchoice : choice.approves = true) :
      Steps o uses b (.answer choice none)
        { b with
          phase := .rerunning i tool pending rest
          log := b.log ++ [.answered i choice] ++ [.started i pending.input] }
  | reruns {i : Nat} {rest : List Nat} {tool : Tool} {pending : ToolConfirmPendingResult} {run : ToolRun}
      {late : Option Thrown} {filePath : Option JsString}
      (hphase : b.phase = .rerunning i tool pending rest) :
      Steps o uses b (.rerun run late filePath)
        (push uses { b with log := b.log ++ [.finished i] } i
          (o.rerunResult tool pending run late filePath) (fun _ => pending.input) rest)
  | appends (hphase : b.phase = .handling []) :
      Steps o uses b .append
        { b with phase := .returned, messages := b.messages ++ [b.resultsForMessage] }

theorem steps_call {reply : Reply} (h : o.step? uses b (.call i reply) = some b') :
    Steps o uses b (.call i reply) b' := by
  unfold step? at h
  simp only at h
  split at h
  · rename_i use hphase huse
    have hcall : o.call b i use reply = some b' ∧ (b.stages i = .waiting → o.canBegin uses b i = true) := by
      split at h
      · rename_i hwaiting
        split at h
        · rename_i hbegin
          exact ⟨h, fun _ => hbegin⟩
        · simp at h
      · rename_i hwaiting
        exact ⟨h, fun heq => absurd heq hwaiting⟩
    obtain ⟨h, hbegin⟩ := hcall
    unfold Setup.call at h
    obtain ⟨r, hr, rfl⟩ := Option.map_eq_some_iff.mp h
    exact .call hphase huse hbegin hr
  · simp at h

theorem steps_handle (h : o.step? uses b .handle = some b') : Steps o uses b .handle b' := by
  unfold step? at h
  simp only at h
  split at h
  · rename_i i rest hphase
    unfold Setup.handle at h
    split at h
    · rename_i result hstage
      obtain rfl := Option.some.inj h
      exact .handles hphase hstage
    · rename_i tool pending hstage
      obtain rfl := Option.some.inj h
      exact .asks hphase hstage
    · simp at h
  · simp at h

theorem steps_answer {choice : Choice} {signal : Option Thrown}
    (h : o.step? uses b (.answer choice signal) = some b') : Steps o uses b (.answer choice signal) b' := by
  unfold step? at h
  simp only at h
  split at h
  · rename_i i tool pending rest hphase
    split at h
    · simp at h
    · obtain rfl := Option.some.inj h
      unfold Setup.answer
      simp only
      cases hchoice : choice.approves with
      | true =>
          cases signal with
          | none => exact .approves hphase hchoice
          | some err => exact .aborts hphase hchoice
      | false => exact .declines hphase hchoice
  · simp at h

theorem steps_of_step? (h : o.step? uses b op = some b') : Steps o uses b op b' := by
  cases op with
  | call i reply => exact steps_call h
  | gather =>
      unfold step? at h
      simp only at h
      split at h
      · rename_i hphase
        split at h
        · rename_i hall
          obtain rfl := Option.some.inj h
          refine .gather hphase fun i hi => ?_
          exact List.all_eq_true.mp hall i (List.mem_range.mpr hi)
        · simp at h
      · simp at h
  | handle => exact steps_handle h
  | answer choice signal => exact steps_answer h
  | rerun run late filePath =>
      unfold step? at h
      simp only at h
      split at h
      · rename_i i tool pending rest hphase
        obtain rfl := Option.some.inj h
        exact .reruns hphase
      · simp at h
  | append =>
      unfold step? at h
      simp only at h
      split at h
      · rename_i hphase
        obtain rfl := Option.some.inj h
        exact .appends hphase
      · simp at h

theorem step_cases (o : Setup) (uses : List ToolUse) (b : Batch) (op : Op) :
    o.step uses b op = b ∨ Steps o uses b op (o.step uses b op) := by
  unfold Setup.step
  cases h : o.step? uses b op with
  | none => exact .inl rfl
  | some b' => exact .inr (steps_of_step? h)

end WrongStack.Tools

/-!
# The history of a call

Every event about the input of a call is about the same input: the one that its policy decision is about,
which the schema and `validate` of its tool have accepted. `History` says so of the stages and the log, and
a step at one position keeps it.
-/

namespace WrongStack.Tools

open Lib Utils Permission Setup

variable {o : Setup} {uses : List ToolUse} {b : Batch} {op : Op} {i j : Nat} {use : ToolUse} {tool : Tool}
  {x y input : Json} {st st' : Stage} {stages : Nat → Stage} {log events : List Event} {e : Event}

/-! ## Inputs -/

/-- The input that an event is about, if the event is about the call at `i`. -/
def Event.inputAt (i : Nat) : Event → Option Json
  | evaluated j x | asked j x | started j x => if j = i then some x else none
  | _ => none

/-- The input that a call goes on with. -/
def Stage.input? : Stage → Option Json
  | evaluate _ x | confirmAwaiter _ x | execute _ x _ => some x
  | settled (.pending _ pending) => some pending.input
  | _ => none

/-- The policy has not been asked. -/
def Stage.fresh : Stage → Bool
  | waiting | preToolUse _ => true
  | _ => false

/-- The input has passed the schema and the validation of the registered tool. -/
structure Checked (o : Setup) (use : ToolUse) (tool : Tool) (input : Json) : Prop where
  registered : o.registry.get use.name = some tool
  schema : validateAgainstSchema input tool.inputSchema = []
  validates : Validates tool input

/-- What is known of a call at each of its stages. -/
def StageOk (o : Setup) (use : ToolUse) : Stage → Prop
  | .waiting => True
  | .preToolUse tool =>
      o.registry.get use.name = some tool ∧ validateAgainstSchema use.input tool.inputSchema = []
  | .evaluate tool input | .confirmAwaiter tool input | .execute tool input _ => Checked o use tool input
  | .postToolUse _ result | .settled (.result result) => result.toolUseId = use.id
  | .settled (.pending tool pending) =>
      Checked o use tool pending.input ∧ pending.toolUseId = use.id

theorem StageOk.moves (h : StageOk o use st) (hm : Moves o i use st st' events) : StageOk o use st' := by
  cases hm with
  | found hget hschema => exact ⟨hget, hschema⟩
  | evaluates hschema hvalid =>
      refine ⟨h.1, ?_, hvalid⟩
      rcases hschema with rfl | hschema
      · exact h.2
      · exact hschema
  | asks | starts | confirms => exact h
  | defers hid hinput => exact ⟨hinput ▸ h, hid⟩
  | refuses hid | returns hid | throws hid => exact hid
  | settles hst hunsettled hid =>
      rcases hid with hid | ⟨tool, result, rfl, hid⟩
      · exact hid
      · exact hid.trans h

/-! ## Events of a move -/

theorem Moves.inputAt (hm : Moves o i use st st' events) (he : e ∈ events) (hx : e.inputAt j = some x) :
    j = i ∧ st'.input? = some x := by
  cases hm <;> simp only [List.mem_cons, List.not_mem_nil, or_false] at he
  case evaluates | asks | starts =>
    subst he
    simp only [Event.inputAt, Option.ite_none_right_eq_some, Option.some.injEq] at hx
    exact ⟨hx.1.symm, congrArg some hx.2⟩
  case confirms =>
    rcases he with rfl | rfl
    · simp [Event.inputAt] at hx
    · simp only [Event.inputAt, Option.ite_none_right_eq_some, Option.some.injEq] at hx
      exact ⟨hx.1.symm, congrArg some hx.2⟩
  case refuses | returns | throws =>
    subst he
    simp [Event.inputAt] at hx

theorem Moves.input? (hm : Moves o i use st st' events) (hx : st'.input? = some x) :
    st.input? = some x ∨ (st.fresh = true ∧ .evaluated i x ∈ events) := by
  cases hm with
  | found | refuses | returns | throws | settles => simp [Stage.input?] at hx
  | evaluates =>
      obtain rfl := Option.some.inj hx
      exact .inr ⟨rfl, List.mem_singleton_self _⟩
  | asks | starts | confirms => exact .inl hx
  | defers hid hinput =>
      obtain rfl := Option.some.inj hx
      exact .inl (congrArg some hinput.symm)

theorem Moves.fresh (hm : Moves o i use st st' events) (hf : st'.fresh = true) :
    st.fresh = true ∧ events = [] := by
  cases hm with
  | found => exact ⟨rfl, rfl⟩
  | _ => simp [Stage.fresh] at hf

/-! ## One input for each call -/

structure History (stages : Nat → Stage) (log : List Event) : Prop where
  fresh : ∀ i, (stages i).fresh = true → ∀ e ∈ log, e.inputAt i = none
  one : ∀ i, ∀ e ∈ log, ∀ e' ∈ log, ∀ x y, e.inputAt i = some x → e'.inputAt i = some y → x = y
  carried : ∀ i x, (stages i).input? = some x → .evaluated i x ∈ log
  started : ∀ i x, .started i x ∈ log → .evaluated i x ∈ log

theorem Event.inputAt_evaluated (i : Nat) (x : Json) : (Event.evaluated i x).inputAt i = some x := by
  simp [Event.inputAt]

theorem Event.inputAt_started (i : Nat) (x : Json) : (Event.started i x).inputAt i = some x := by
  simp [Event.inputAt]

theorem Event.inputAt_asked (i : Nat) (x : Json) : (Event.asked i x).inputAt i = some x := by
  simp [Event.inputAt]

/-- What is in the log about a call that carries an input is about that input. -/
theorem History.carried_one (h : History stages log) (hx : (stages i).input? = some x) (he : e ∈ log)
    (hy : e.inputAt i = some y) : y = x :=
  h.one i e he _ (h.carried i x hx) y x hy (Event.inputAt_evaluated i x)

/-- Events about the input that the call at `i` then carries are added. -/
theorem History.update (h : History stages log) (st : Stage)
    (hevents : ∀ e ∈ events, ∀ j x, e.inputAt j = some x → j = i ∧ st.input? = some x)
    (hinput : ∀ x, st.input? = some x →
      (stages i).input? = some x ∨ ((stages i).fresh = true ∧ .evaluated i x ∈ events))
    (hfresh : st.fresh = true → (stages i).fresh = true ∧ events = []) :
    History (Function.update stages i st) (log ++ events) := by
  have hold : ∀ e ∈ log, ∀ x y, st.input? = some x → e.inputAt i = some y → y = x := by
    intro e he x y hx hy
    rcases hinput x hx with hsame | ⟨hf, -⟩
    · exact h.carried_one hsame he hy
    · exact absurd ((h.fresh i hf e he).symm.trans hy) (by simp)
  have hcarried : ∀ j x, (Function.update stages i st j).input? = some x →
      .evaluated j x ∈ log ++ events := by
    intro j x hx
    by_cases hj : j = i
    · subst hj
      rw [Function.update_self] at hx
      rcases hinput x hx with hsame | ⟨-, hmem⟩
      · exact List.mem_append_left _ (h.carried j x hsame)
      · exact List.mem_append_right _ hmem
    · rw [Function.update_of_ne hj] at hx
      exact List.mem_append_left _ (h.carried j x hx)
  refine ⟨fun j hf e he => ?_, fun j e he e' he' x y hx hy => ?_, hcarried, fun j x hmem => ?_⟩
  · by_cases hj : j = i
    · subst hj
      rw [Function.update_self] at hf
      obtain ⟨hf, rfl⟩ := hfresh hf
      rw [List.append_nil] at he
      exact h.fresh j hf e he
    · rw [Function.update_of_ne hj] at hf
      rcases List.mem_append.mp he with he | he
      · exact h.fresh j hf e he
      · cases hx : e.inputAt j with
        | none => rfl
        | some x => exact absurd (hevents e he j x hx).1 hj
  · rcases List.mem_append.mp he with he | he
    · rcases List.mem_append.mp he' with he' | he'
      · exact h.one j e he e' he' x y hx hy
      · obtain ⟨rfl, hst⟩ := hevents e' he' j y hy
        exact hold e he y x hst hx
    · obtain ⟨rfl, hst⟩ := hevents e he j x hx
      rcases List.mem_append.mp he' with he' | he'
      · exact (hold e' he' x y hst hy).symm
      · exact Option.some.inj (hst.symm.trans (hevents e' he' j y hy).2)
  · rcases List.mem_append.mp hmem with hmem | hmem
    · exact List.mem_append_left _ (h.started j x hmem)
    · obtain ⟨rfl, hst⟩ := hevents _ hmem j x (Event.inputAt_started j x)
      exact hcarried j x (by rw [Function.update_self]; exact hst)

theorem History.moves (h : History stages log) (hm : Moves o i use (stages i) st' events) :
    History (Function.update stages i st') (log ++ events) :=
  h.update st' (fun _ he _ _ hx => hm.inputAt he hx) (fun _ hx => hm.input? hx) fun hf => hm.fresh hf

theorem History.note (h : History stages log)
    (hevents : ∀ e ∈ events, ∀ j x, e.inputAt j = some x → j = i ∧ (stages i).input? = some x)
    (hfresh : (stages i).fresh = false) : History stages (log ++ events) := by
  have hkeep := h.update (stages i) hevents (fun x hx => .inl hx) (by simp [hfresh])
  rwa [Function.update_eq_self] at hkeep

theorem History.append (h : History stages log) (hevents : ∀ e ∈ events, ∀ j, e.inputAt j = none) :
    History stages (log ++ events) := by
  refine ⟨fun j hf e he => ?_, fun j e he e' he' x y hx hy => ?_, fun j x hx => ?_, fun j x hmem => ?_⟩
  · rcases List.mem_append.mp he with he | he
    · exact h.fresh j hf e he
    · exact hevents e he j
  · rcases List.mem_append.mp he with he | he
    · rcases List.mem_append.mp he' with he' | he'
      · exact h.one j e he e' he' x y hx hy
      · exact absurd ((hevents e' he' j).symm.trans hy) (by simp)
    · exact absurd ((hevents e he j).symm.trans hx) (by simp)
  · exact List.mem_append_left _ (h.carried j x hx)
  · rcases List.mem_append.mp hmem with hmem | hmem
    · exact List.mem_append_left _ (h.started j x hmem)
    · exact absurd ((hevents _ hmem j).symm.trans (Event.inputAt_started j x)) (by simp)

end WrongStack.Tools
