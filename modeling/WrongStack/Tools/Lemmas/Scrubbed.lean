import WrongStack.Tools.Lemmas.Order

/-!
# Two runs with the same scrubbed texts

Texts of the tools that the scrubber does not tell apart lead to the same batch, up to the results of the
calls that the user has confirmed.
-/

namespace WrongStack.Tools

open Lib Permission Setup

variable {o : Setup} {uses : List ToolUse} {b b' c : Batch} {op op' : Op} {i : Nat} {use : ToolUse} {tool : Tool}
  {ran ran' : ToolRun} {late : Option Thrown} {filePath : Option JsString} {budget : Nat}

/-! ## Texts that differ -/

inductive SameThrown (o : Setup) : Thrown → Thrown → Prop
  | bare {m m' : JsString} (hmessage : o.scrub m = o.scrub m') : SameThrown o (.bare m) (.bare m')
  | structured {m m' d d' : JsString} (hmessage : o.scrub m = o.scrub m') (hdescription : o.scrub d = o.scrub d') :
      SameThrown o (.structured m d) (.structured m' d')

inductive SameOutcome (o : Setup) : Except Thrown JsString → Except Thrown JsString → Prop
  | ok {text text' : JsString} (htext : o.scrub text = o.scrub text') : SameOutcome o (.ok text) (.ok text')
  | error {err err' : Thrown} (herr : SameThrown o err err') : SameOutcome o (.error err) (.error err')

inductive SameStreamed (o : Setup) : StreamEvent → StreamEvent → Prop
  | final {text text' : JsString} (htext : o.scrub text = o.scrub text') :
      SameStreamed o (.final text) (.final text')
  | other : SameStreamed o .other .other

inductive SameToolRun (o : Setup) : ToolRun → ToolRun → Prop
  | execute {outcome outcome' : Except Thrown JsString} (houtcome : SameOutcome o outcome outcome') :
      SameToolRun o (.execute outcome) (.execute outcome')
  | executeStream {events events' : List StreamEvent} {thrown thrown' : Option Thrown}
      (hevents : List.Forall₂ (SameStreamed o) events events') (hthrown : Option.Rel (SameThrown o) thrown thrown') :
      SameToolRun o (.executeStream events thrown) (.executeStream events' thrown')

/-- The same step, but for what the tool returns or throws. -/
inductive SameOp (o : Setup) : Op → Op → Prop
  | refl (op : Op) : SameOp o op op
  | execute {ran ran' : ToolRun} (i : Nat) (late : Option Thrown) (filePath : Option JsString)
      (hrun : SameToolRun o ran ran') :
      SameOp o (.call i (.execute ran late filePath)) (.call i (.execute ran' late filePath))
  | rerun {ran ran' : ToolRun} (late : Option Thrown) (filePath : Option JsString) (hrun : SameToolRun o ran ran') :
      SameOp o (.rerun ran late filePath) (.rerun ran' late filePath)

theorem SameThrown.refl : (err : Thrown) → SameThrown o err err
  | .bare _ => .bare rfl
  | .structured _ _ => .structured rfl rfl

theorem SameThrown.symm {err err' : Thrown} : SameThrown o err err' → SameThrown o err' err
  | .bare h => .bare h.symm
  | .structured h h' => .structured h.symm h'.symm

theorem SameOutcome.symm {outcome outcome' : Except Thrown JsString} :
    SameOutcome o outcome outcome' → SameOutcome o outcome' outcome
  | .ok h => .ok h.symm
  | .error h => .error h.symm

theorem SameOutcome.refl (outcome : Except Thrown JsString) : SameOutcome o outcome outcome := by
  cases outcome with
  | ok text => exact .ok rfl
  | error err => exact .error (.refl err)

theorem SameStreamed.refl : (e : StreamEvent) → SameStreamed o e e
  | .final _ => .final rfl
  | .other => .other

theorem SameStreamed.symm {e e' : StreamEvent} : SameStreamed o e e' → SameStreamed o e' e
  | .final h => .final h.symm
  | .other => .other

theorem SameToolRun.refl : (ran : ToolRun) → SameToolRun o ran ran
  | .execute outcome => .execute (.refl outcome)
  | .executeStream events thrown => by
      refine .executeStream (List.forall₂_same.mpr fun e _ => .refl e) ?_
      cases thrown with
      | none => exact .none
      | some err => exact .some (.refl err)

theorem SameToolRun.symm : SameToolRun o ran ran' → SameToolRun o ran' ran
  | .execute h => .execute h.symm
  | .executeStream hevents hthrown => by
      refine .executeStream (hevents.flip.imp fun _ _ h => h.symm) ?_
      cases hthrown with
      | none => exact .none
      | some h => exact .some h.symm

theorem SameOp.symm : SameOp o op op' → SameOp o op' op
  | .refl op => .refl op
  | .execute i late filePath h => .execute i late filePath h.symm
  | .rerun late filePath h => .rerun late filePath h.symm

/-! ## What the executor makes of them -/

theorem sameOutcome_runStreamedTool {events events' : List StreamEvent} {thrown thrown' : Option Thrown}
    (hevents : List.Forall₂ (SameStreamed o) events events') (hthrown : Option.Rel (SameThrown o) thrown thrown') :
    SameOutcome o (runStreamedTool tool thrown events) (runStreamedTool tool thrown' events') := by
  induction hevents with
  | nil =>
      cases hthrown with
      | none => exact .refl _
      | some h => exact .error h
  | cons hevent _ ih =>
      cases hevent with
      | final htext => exact .ok htext
      | other => exact ih

theorem SameOutcome.bind {outcome outcome' : Except Thrown JsString} (h : SameOutcome o outcome outcome')
    (f : JsString → Except Thrown JsString) (hf : ∀ text text', o.scrub text = o.scrub text' →
      SameOutcome o (f text) (f text')) : SameOutcome o (outcome >>= f) (outcome' >>= f) := by
  cases h with
  | ok htext => exact hf _ _ htext
  | error herr => exact .error herr

theorem sameOutcome_runWithTimeout (tool : Tool) (late : Option Thrown) (h : SameToolRun o ran ran') :
    SameOutcome o (runWithTimeout tool ran late) (runWithTimeout tool ran' late) := by
  unfold runWithTimeout
  cases h with
  | execute houtcome =>
      refine houtcome.bind _ fun text text' htext => ?_
      cases late with
      | none => exact .ok htext
      | some err => exact .refl _
  | executeStream hevents hthrown =>
      refine (sameOutcome_runStreamedTool hevents hthrown).bind _ fun text text' htext => ?_
      cases late with
      | none => exact .ok htext
      | some err => exact .refl _

theorem runOneCatch_same {err err' : Thrown} (h : SameThrown o err err') :
    o.runOneCatch use tool budget err' = o.runOneCatch use tool budget err := by
  cases h with
  | bare hmessage => simp only [runOneCatch, hmessage]
  | structured hmessage hdescription => simp only [runOneCatch, safeRunCatch, hdescription]

theorem afterExecute_same {budgetHint : Nat} (h : SameToolRun o ran ran') :
    o.afterExecute i use tool (o.produceToolOutput tool ran' late filePath budgetHint) budget =
      o.afterExecute i use tool (o.produceToolOutput tool ran late filePath budgetHint) budget := by
  unfold produceToolOutput
  have hsame := sameOutcome_runWithTimeout tool late h
  generalize runWithTimeout tool ran late = outcome at hsame ⊢
  generalize runWithTimeout tool ran' late = outcome' at hsame ⊢
  cases hsame with
  | ok htext => simp only [Except.map, htext]
  | error herr => simp only [Except.map, afterExecute, runOneCatch_same herr]

theorem resume_same (h : SameToolRun o ran ran') (st : Stage) :
    o.resume i use budget st (.execute ran' late filePath) =
      o.resume i use budget st (.execute ran late filePath) := by
  unfold resume
  cases st with
  | execute tool input budgetHint => simp only [afterExecute_same h]
  | _ => rfl

/-! ## Steps -/

/-- The same batch with other results. -/
def Batch.answering (b : Batch) (results : List ToolResult) (messages : List (List ToolResult)) : Batch :=
  { b with resultsForMessage := results, messages }

/-- A call that the user has confirmed does not throw, or it throws the same in both runs. -/
def ThrowsTheSame (b : Batch) : Op × Op → Prop
  | (.rerun ran late _, .rerun ran' late' _) => ∀ i tool pending rest err err',
      b.phase = .rerunning i tool pending rest → runWithTimeout tool ran late = .error err →
      runWithTimeout tool ran' late' = .error err' → toErrorMessage err = toErrorMessage err'
  | _ => True

theorem rerunResult_same {pending : ToolConfirmPendingResult} (h : SameToolRun o ran ran') :
    o.rerunResult tool pending ran late filePath = o.rerunResult tool pending ran' late filePath ↔
      ∀ err err', runWithTimeout tool ran late = .error err → runWithTimeout tool ran' late = .error err' →
        toErrorMessage err = toErrorMessage err' := by
  unfold rerunResult produceToolOutput
  have hsame := sameOutcome_runWithTimeout tool late h
  generalize runWithTimeout tool ran late = outcome at hsame ⊢
  generalize runWithTimeout tool ran' late = outcome' at hsame ⊢
  cases hsame with
  | ok htext => simp [Except.map, htext]
  | error herr => simp [Except.map, rerunCatch, confirmedResult]

theorem call_same {reply : Reply} {r : Resumed} (h : SameOp o (.call i reply) op')
    (hr : o.resume i use budget (b.stages i) reply = some r) :
    ∃ reply', op' = .call i reply' ∧ o.resume i use budget (b.stages i) reply' = some r := by
  cases h with
  | refl => exact ⟨reply, rfl, hr⟩
  | execute i late filePath hrun => exact ⟨_, rfl, (resume_same hrun _).trans hr⟩

theorem answer_allowed {choice : Choice} {signal : Option Thrown} {pending : ToolConfirmPendingResult}
    {rest : List Nat} (h : o.step? uses b (.answer choice signal) = some c)
    (hphase : b.phase = .confirming i tool pending rest) : (o.headless && choice != .deny) = false := by
  unfold Setup.step? at h
  simp only [hphase] at h
  split at h
  · cases h
  · rename_i hallowed
    exact Bool.not_eq_true _ ▸ hallowed

/-- A step that one run takes is taken by the other, and its results are the same exactly if what it
throws is. -/
theorem step?_same (h : SameOp o op op') (results : List ToolResult) (messages : List (List ToolResult))
    (hstep : o.step? uses b op = some c) : ∃ added added' messages',
      c.resultsForMessage = b.resultsForMessage ++ added ∧ added.length = added'.length ∧
      o.step? uses (b.answering results messages) op' = some (c.answering (results ++ added') messages') ∧
      (added = added' ↔ ThrowsTheSame b (op, op')) := by
  cases steps_of_step? hstep with
  | call hphase huse hbegin hr =>
      rename_i i use reply r
      have hsame : ThrowsTheSame b (.call i reply, op') := by cases h <;> trivial
      obtain ⟨reply', rfl, hr'⟩ := call_same h hr
      refine ⟨[], [], messages, (List.append_nil _).symm, rfl, ?_, iff_of_true rfl hsame⟩
      have hcall : o.call (b.answering results messages) i use reply' = some (Batch.answering { b with
          stages := Function.update b.stages i r.stage, budget := r.budget, log := b.log ++ r.events }
          (results ++ []) messages) := by
        simp [Setup.call, Batch.answering, hr']
      have hphase' : (b.answering results messages).phase = .executing := hphase
      have hcan : o.canBegin uses (b.answering results messages) i = o.canBegin uses b i := rfl
      unfold Setup.step?
      simp only [hphase', huse, hcall, hcan]
      split
      · rename_i hwaiting
        rw [if_pos (hbegin hwaiting)]
      · rfl
  | gather hphase hsettled =>
      cases h
      refine ⟨[], [], messages, (List.append_nil _).symm, rfl, ?_, iff_of_true rfl trivial⟩
      have hall : ∀ i < uses.length, (b.stages i).isSettled = true := hsettled
      simpa [Setup.step?, Batch.answering, hphase] using hall
  | handles hphase hstage =>
      cases h
      rename_i i rest result
      refine ⟨[result], [result], messages, rfl, rfl, ?_, iff_of_true rfl trivial⟩
      simp [Setup.step?, Setup.handle, Batch.answering, hphase, hstage, Setup.push]
  | asks hphase hstage =>
      cases h
      refine ⟨[], [], messages, (List.append_nil _).symm, rfl, ?_, iff_of_true rfl trivial⟩
      simp [Setup.step?, Setup.handle, Batch.answering, hphase, hstage]
  | declines hphase hchoice | aborts hphase hchoice =>
      cases h
      refine ⟨[_], [_], messages, rfl, rfl, ?_, iff_of_true rfl trivial⟩
      simp [Setup.step?, Setup.answer, Batch.answering, hphase, hchoice, answer_allowed hstep hphase, Setup.push]
  | approves hphase hchoice =>
      cases h
      refine ⟨[], [], messages, (List.append_nil _).symm, rfl, ?_, iff_of_true rfl trivial⟩
      simp [Setup.step?, Setup.answer, Batch.answering, hphase, hchoice, answer_allowed hstep hphase]
  | reruns hphase =>
      rename_i i rest tool pending ran late filePath
      have hsame : ∃ ran', op' = .rerun ran' late filePath ∧ SameToolRun o ran ran' := by
        cases h with
        | refl => exact ⟨ran, rfl, .refl ran⟩
        | rerun late filePath hrun => exact ⟨_, rfl, hrun⟩
      obtain ⟨ran', rfl, hrun⟩ := hsame
      refine ⟨[o.rerunResult tool pending ran late filePath], [o.rerunResult tool pending ran' late filePath],
        messages, rfl, rfl, ?_, ?_⟩
      · simp [Setup.step?, Batch.answering, hphase, Setup.push, rerunResult_id]
      · rw [List.cons.injEq, and_iff_left rfl, rerunResult_same hrun]
        constructor
        · intro hthrows i' tool' pending' rest' err err' hphase'
          cases hphase.symm.trans hphase'
          exact hthrows err err'
        · intro hthrows err err'
          exact hthrows i tool pending rest err err' hphase
  | appends hphase =>
      cases h
      refine ⟨[], [], messages ++ [results], (List.append_nil _).symm, rfl, ?_, iff_of_true rfl trivial⟩
      simp [Setup.step?, Batch.answering, hphase]

theorem step_same (uses : List ToolUse) (b : Batch) (h : SameOp o op op') (results : List ToolResult) (messages : List (List ToolResult)) :
    ∃ added added' messages', (o.step uses b op).resultsForMessage = b.resultsForMessage ++ added ∧
      added.length = added'.length ∧
      o.step uses (b.answering results messages) op' =
        (o.step uses b op).answering (results ++ added') messages' ∧
      (added = added' ↔ ThrowsTheSame b (op, op')) := by
  unfold Setup.step
  cases hstep : o.step? uses b op with
  | some c =>
      obtain ⟨added, added', messages', hresults, hlength, hstep', hsame⟩ := step?_same h results messages hstep
      exact ⟨added, added', messages', hresults, hlength, by rw [hstep']; rfl, hsame⟩
  | none =>
      have hnone : o.step? uses (b.answering results messages) op' = none := by
        by_contra hsome
        obtain ⟨c, hc⟩ := Option.ne_none_iff_exists'.mp hsome
        obtain ⟨_, _, _, -, -, hstep', -⟩ := step?_same h.symm b.resultsForMessage b.messages hc
        have hback : (b.answering results messages).answering b.resultsForMessage b.messages = b := rfl
        rw [hback, hstep] at hstep'
        cases hstep'
      refine ⟨[], [], messages, (List.append_nil _).symm, rfl, ?_, iff_of_true rfl ?_⟩
      · rw [hnone, List.append_nil]
        rfl
      · unfold ThrowsTheSame
        split
        · rename_i ran late filePath ran' late' filePath' heq
          intro i tool pending rest err err' hphase
          cases heq
          simp [Setup.step?, hphase] at hstep
        · trivial

/-! ## Runs -/

/-- The results of two runs are the same exactly if they were, and every call that the user has confirmed
throws the same. -/
theorem run_same (uses : List ToolUse) (ps : List (Op × Op)) (h : ∀ p ∈ ps, SameOp o p.1 p.2) (b : Batch) (results : List ToolResult)
    (messages : List (List ToolResult)) (hlength : b.resultsForMessage.length = results.length) :
    ∃ results' messages', run (o.step uses) (b.answering results messages) (ps.map Prod.snd) =
        (run (o.step uses) b (ps.map Prod.fst)).answering results' messages' ∧
      ((run (o.step uses) b (ps.map Prod.fst)).resultsForMessage = results' ↔
        b.resultsForMessage = results ∧ Under (fun b p => o.step uses b p.1) ThrowsTheSame b ps) := by
  induction ps generalizing b results messages with
  | nil => exact ⟨results, messages, rfl, (and_iff_left trivial).symm⟩
  | cons p ps ih =>
      obtain ⟨added, added', messages', hadded, hlength', hstep, hsame⟩ :=
        step_same uses b (h p List.mem_cons_self) results messages
      obtain ⟨results'', messages'', hrun, hiff⟩ := ih (fun q hq => h q (List.mem_cons_of_mem _ hq))
        (o.step uses b p.1) (results ++ added') messages' (by simp [hadded, hlength, hlength'])
      refine ⟨results'', messages'', ?_, ?_⟩
      · rw [List.map_cons, List.map_cons, run_cons, run_cons, hstep, hrun]
      · rw [List.map_cons, run_cons, hiff, hadded, Under]
        constructor
        · rintro ⟨heq, hunder⟩
          obtain ⟨hresults, hnew⟩ := List.append_inj heq hlength
          exact ⟨hresults, hsame.mp hnew, hunder⟩
        · rintro ⟨rfl, hthrows, hunder⟩
          exact ⟨by rw [hsame.mpr hthrows], hunder⟩

end WrongStack.Tools
