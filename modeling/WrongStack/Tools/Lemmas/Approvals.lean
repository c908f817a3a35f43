import WrongStack.Permission.Lemmas.Cache
import WrongStack.Tools.Lemmas.Order

/-!
# Approvals

What the policy decides with and without the grants that the user has given once, and how often a call that
the user has approved is run.
-/

namespace WrongStack.Tools

open Lib Utils Permission Setup

variable {o : Setup} {uses : List ToolUse} {b b' : Batch} {op : Op} {i j : Nat} {x : Json}
  {p : Permission.State} {c : Call}

/-! ## Grants -/

def withoutGrants (p : Permission.State) : Permission.State := { p with sessionAllowed := .empty }

/-- The executor runs the call at once. -/
def approved (p : Permission.State) (c : Call) : Bool :=
  effectivePermission c.tool (p.evaluate c).1 (p.evaluate c).2.yolo == .auto

/-- The evaluation takes a grant. -/
def SpendsGrant (p : Permission.State) (c : Call) : Prop :=
  p.ensureLoaded.hit c = none ∧ p.ensureLoaded.sessionDenied.has c.cacheKey = false ∧
    p.ensureLoaded.sessionAllowed.has c.cacheKey = true

/-- A grant that is taken makes no difference: the rules approve the call, or the executor asks all the same. -/
def NeedsNoGrant (p : Permission.State) (c : Call) : Prop :=
  SpendsGrant p c → effectivePermission c.tool (p.ensureLoaded.verdict c).decision p.yolo = .auto ∨
    (getDangerousCapabilities c.tool ≠ [] ∧ p.yolo = false)

theorem ensureLoaded_withoutGrants (p : Permission.State) :
    (withoutGrants p).ensureLoaded = withoutGrants p.ensureLoaded := by
  unfold State.ensureLoaded withoutGrants
  split
  · rfl
  · rfl

theorem evaluate_yolo (p : Permission.State) (c : Call) : (p.evaluate c).2.yolo = p.yolo := by
  have hloaded : p.ensureLoaded.yolo = p.yolo := by
    unfold State.ensureLoaded
    split <;> rfl
  unfold State.evaluate
  rw [State.evaluateLoaded_eq, ← hloaded]
  split
  · rfl
  · split
    · rfl
    · split <;> rfl

theorem hit_withoutGrants (p : Permission.State) (c : Call) : (withoutGrants p).hit c = p.hit c := rfl

theorem verdict_withoutGrants (p : Permission.State) (c : Call) : (withoutGrants p).verdict c = p.verdict c := rfl

theorem evaluateLoaded_withoutGrants (p : Permission.State) (c : Call) :
    ((withoutGrants p).evaluateLoaded c).1 = match p.hit c with
      | some decision => decision
      | none =>
          if p.sessionDenied.has c.cacheKey then
            { permission := .deny, source := .deny, reason := "session soft deny (user pressed no)" }
          else (p.verdict c).decision := by
  rw [State.evaluateLoaded_eq, hit_withoutGrants]
  cases p.hit c with
  | some decision => rfl
  | none =>
      have hnone : (withoutGrants p).sessionAllowed.has c.cacheKey = false := rfl
      have hdenied : (withoutGrants p).sessionDenied = p.sessionDenied := rfl
      simp only [hnone, hdenied, verdict_withoutGrants, Bool.false_eq_true, if_false]
      split <;> rfl

/-- Unless it takes a grant, an evaluation does not depend on the grants. -/
theorem evaluate_of_not_spends (h : ¬ SpendsGrant p c) : (p.evaluate c).1 = ((withoutGrants p).evaluate c).1 := by
  unfold State.evaluate
  rw [ensureLoaded_withoutGrants, evaluateLoaded_withoutGrants, State.evaluateLoaded_eq]
  unfold SpendsGrant at h
  generalize p.ensureLoaded = q at h
  cases hhit : q.hit c with
  | some decision => rfl
  | none =>
      cases hdenied : q.sessionDenied.has c.cacheKey with
      | true => rfl
      | false =>
          have hallowed : q.sessionAllowed.has c.cacheKey = false := by
            by_contra hne
            exact h ⟨hhit, hdenied, by simpa using hne⟩
          simp only [hallowed, Bool.false_eq_true, if_false]

theorem evaluate_of_spends (h : SpendsGrant p c) :
    (p.evaluate c).1 =
        { permission := .auto, source := .trust, reason := "session one-shot allow (user pressed yes)" } ∧
      ((withoutGrants p).evaluate c).1 = (p.ensureLoaded.verdict c).decision := by
  unfold State.evaluate
  rw [ensureLoaded_withoutGrants, evaluateLoaded_withoutGrants, State.evaluateLoaded_eq]
  obtain ⟨hhit, hdenied, hallowed⟩ := h
  simp only [hhit, hdenied, hallowed, Bool.false_eq_true, if_false, if_true]
  exact ⟨trivial, trivial⟩

theorem effectivePermission_trust (tool : Permission.Tool) (yolo : Bool) {reason : Option String} :
    effectivePermission tool { permission := .auto, source := .trust, reason } yolo = .auto ↔
      ¬ (getDangerousCapabilities tool ≠ [] ∧ yolo = false) := by
  unfold effectivePermission
  cases yolo <;> cases getDangerousCapabilities tool <;> simp

/-- A call is approved without the grants whenever it is with them, exactly if it needs no grant. -/
theorem approved_unaided_iff (p : Permission.State) (c : Call) :
    (approved p c = true → approved (withoutGrants p) c = true) ↔ NeedsNoGrant p c := by
  unfold approved NeedsNoGrant
  rw [evaluate_yolo, evaluate_yolo]
  have hyolo : (withoutGrants p).yolo = p.yolo := rfl
  rw [hyolo]
  by_cases hspends : SpendsGrant p c
  · obtain ⟨hwith, hwithout⟩ := evaluate_of_spends hspends
    rw [hwith, hwithout, beq_iff_eq, beq_iff_eq, effectivePermission_trust]
    constructor
    · intro h _
      by_cases hdowngraded : getDangerousCapabilities c.tool ≠ [] ∧ p.yolo = false
      · exact .inr hdowngraded
      · exact .inl (h hdowngraded)
    · intro h hnot
      exact (h hspends).resolve_right hnot
  · rw [evaluate_of_not_spends hspends]
    exact ⟨fun _ h => absurd h hspends, fun _ h => h⟩

/-! ## Confirmed calls -/

/-- The inputs with which the call at `i` has started. -/
def startsAt (i : Nat) (log : List Event) : List Json :=
  log.filterMap fun
    | .started j x => if j = i then some x else none
    | _ => none

/-- A call that the user has approved has been run once, with the input that the user was asked about. -/
def ConfirmedOnce (b : Batch) : Prop :=
  ∀ i, .answered i .yes ∈ b.log → ∃ x, .asked i x ∈ b.log ∧ startsAt i b.log = [x]

theorem startsAt_append (i : Nat) (log events : List Event) :
    startsAt i (log ++ events) = startsAt i log ++ startsAt i events := List.filterMap_append

theorem startsAt_eq_nil {log : List Event} : startsAt i log = [] ↔ ∀ x, .started i x ∉ log := by
  rw [startsAt, List.filterMap_eq_nil_iff]
  constructor
  · intro h x hx
    simpa using h _ hx
  · intro h e he
    cases e with
    | started j x =>
        simp only [ite_eq_right_iff, reduceCtorEq, imp_false]
        rintro rfl
        exact h x he
    | _ => rfl

/-- Only pending calls are answered, and no call twice. -/
structure Prompted (o : Setup) (uses : List ToolUse) (b : Batch) : Prop where
  deferred : ∀ i tool input, b.stages i ≠ .confirmAwaiter tool input
  asked : ∀ i tool pending rest, b.phase = .confirming i tool pending rest → .asked i pending.input ∈ b.log
  answered : ∀ i choice, .answered i choice ∈ b.log → (b.stages i).isPending = true ∧ i ∉ b.ahead o uses

theorem prompted_batch (o : Setup) (uses : List ToolUse) : Prompted o uses o.batch := by
  refine ⟨?_, ?_, ?_⟩ <;> simp [Setup.batch]

theorem Stage.isSettled_of_isPending {st : Stage} (h : st.isPending = true) : st.isSettled = true := by
  cases st <;> simp_all [Stage.isPending, Stage.isSettled]

theorem Moves.awaits {st st' : Stage} {use : ToolUse} {events : List Event} {tool : Tool} {input : Json}
    (hm : Moves o i use st st' events) (hst : st' = .confirmAwaiter tool input) : o.confirmAwaiter = true := by
  cases hm with
  | asks hawaiter => exact hawaiter
  | _ => cases hst

theorem Moves.answered {st st' : Stage} {use : ToolUse} {events : List Event} {choice : Choice}
    (hm : Moves o i use st st' events) (he : .answered j choice ∈ events) :
    ∃ tool input, st = .confirmAwaiter tool input := by
  cases hm <;> simp at he
  case confirms tool input hint choice => exact ⟨tool, input, rfl⟩
  case refuses tool input result choice hid => exact ⟨tool, input, rfl⟩

/-- Events that answer nothing are added, and no output comes back. -/
theorem Prompted.append (h : Prompted o uses b) (noted : List Event) (phase : Phase) (results : List ToolResult)
    (messages : List (List ToolResult)) (hnoted : ∀ j choice, .answered j choice ∉ noted)
    (hasked : ∀ i tool pending rest, phase = .confirming i tool pending rest →
      .asked i pending.input ∈ b.log ++ noted)
    (hahead : Batch.ahead o uses { b with phase } ⊆ b.ahead o uses) :
    Prompted o uses { b with phase, resultsForMessage := results, messages, log := b.log ++ noted } := by
  refine ⟨h.deferred, hasked, fun j choice hj => ?_⟩
  obtain ⟨hp, hnot⟩ := h.answered j choice ((List.mem_append.mp hj).resolve_right (hnoted j choice))
  exact ⟨hp, fun hin => hnot (hahead hin)⟩

/-- The answer of the user takes an output from those ahead. -/
theorem Prompted.answer (h : Prompted o uses b) (ht : Tracked o uses b) {tool : Tool}
    {pending : ToolConfirmPendingResult} {rest : List Nat} {choice : Choice}
    (hphase : b.phase = .confirming i tool pending rest) :
    Prompted o uses { b with phase := .handling rest, log := b.log ++ [.answered i choice] } := by
  have hremaining : b.remaining o uses = i :: rest := by rw [Batch.remaining, hphase]
  refine ⟨h.deferred, by simp, fun j c hj => ?_⟩
  rcases List.mem_append.mp hj with hj | hj
  · obtain ⟨hp, hnot⟩ := h.answered j c hj
    refine ⟨hp, fun hin => hnot ?_⟩
    simp only [Batch.ahead, hphase]
    exact List.mem_cons_of_mem _ hin
  · obtain ⟨rfl, rfl⟩ := Event.answered.inj (List.mem_singleton.mp hj)
    have hstage := ht.current (j, tool, pending) (by rw [hphase]; rfl)
    exact ⟨by simp [hstage, Stage.isPending], (List.nodup_cons.mp (hremaining ▸ ht.remaining_nodup)).1⟩

theorem Prompted.steps (hawaiter : o.confirmAwaiter = false) (ht : Tracked o uses b) (h : Prompted o uses b)
    (hs : Steps o uses b op b') : Prompted o uses b' := by
  cases hs with
  | call hphase huse hbegin hr =>
      rename_i i use reply r
      have hm := resume_moves hr
      refine ⟨fun j tool input heq => ?_, by simp [hphase], fun j choice hj => ?_⟩
      · by_cases hji : j = i
        · subst hji
          simp only [Function.update_self] at heq
          exact absurd (hawaiter.symm.trans (hm.awaits heq)) (by simp)
        · simp only [Function.update_of_ne hji] at heq
          exact h.deferred j tool input heq
      · have hold := (List.mem_append.mp hj).resolve_right fun hmem => by
          obtain ⟨tool, input, heq⟩ := hm.answered hmem
          exact h.deferred i tool input heq
        obtain ⟨hp, hnot⟩ := h.answered j choice hold
        simp only [settled_update hm (Stage.isSettled_of_isPending hp)]
        exact ⟨hp, hnot⟩
  | gather hphase hsettled =>
      have hkeep := h.append [] (.handling (o.order uses)) b.resultsForMessage b.messages (by simp) (by simp)
        (by simp [Batch.ahead, hphase])
      simpa only [List.append_nil] using hkeep
  | handles hphase hstage =>
      exact h.append _ _ _ _ (by simp) (by simp) (by simp [Batch.ahead, hphase])
  | asks hphase hstage =>
      refine h.append _ _ _ _ (by simp) (fun j t p r heq => ?_) (by simp [Batch.ahead, hphase])
      cases heq
      exact List.mem_append_right _ (List.mem_singleton_self _)
  | declines hphase hchoice | aborts hphase hchoice =>
      exact (h.answer ht hphase).append _ _ _ _ (by simp) (by simp) (List.Subset.refl _)
  | approves hphase hchoice =>
      exact (h.answer ht hphase).append _ _ _ _ (by simp) (by simp) (List.Subset.refl _)
  | reruns hphase =>
      rename_i i rest tool pending run late filePath
      have hnoted := h.append [.finished i] b.phase b.resultsForMessage b.messages (by simp)
        (by simp [hphase]) (List.Subset.refl _)
      exact hnoted.append _ _ _ _ (by simp) (by simp) (by simp [Batch.ahead, hphase])
  | appends hphase =>
      have hkeep := h.append [] .returned b.resultsForMessage (b.messages ++ [b.resultsForMessage]) (by simp)
        (by simp) (by simp [Batch.ahead])
      simpa only [List.append_nil] using hkeep

/-- Events are added that neither approve a call nor start one that has been approved. -/
theorem ConfirmedOnce.append (h : ConfirmedOnce b) {noted : List Event} (hlog : b'.log = b.log ++ noted)
    (hanswered : ∀ j, .answered j .yes ∉ noted)
    (hstarted : ∀ j x, .started j x ∈ noted → .answered j .yes ∉ b.log) : ConfirmedOnce b' := by
  intro j hj
  rw [hlog] at hj ⊢
  have hold := (List.mem_append.mp hj).resolve_right (hanswered j)
  obtain ⟨x, hasked, hstarts⟩ := h j hold
  have hnone : startsAt j noted = [] := startsAt_eq_nil.mpr fun x hx => hstarted j x hx hold
  refine ⟨x, List.mem_append_left _ hasked, ?_⟩
  rw [startsAt_append, hstarts, hnone, List.append_nil]

theorem ConfirmedOnce.push (h : ConfirmedOnce b) (noted : List Event) (rest : List Nat) (input : ToolUse → Json)
    {result : ToolResult} (hanswered : ∀ j, .answered j .yes ∉ noted) (hstarted : ∀ j x, .started j x ∉ noted) :
    ConfirmedOnce (Setup.push uses { b with log := b.log ++ noted } i result input rest) := by
  refine h.append (List.append_assoc ..) (fun j => ?_) fun j x hx => ?_
  · simp [hanswered]
  · simp [hstarted] at hx

/-- A call that is approved starts, and for the first time. -/
theorem ConfirmedOnce.approve (honce : StartsOnce o uses b) (hprompted : Prompted o uses b) (ht : Tracked o uses b)
    (h : ConfirmedOnce b) {tool : Tool} {pending : ToolConfirmPendingResult} {rest : List Nat} {choice : Choice}
    (hphase : b.phase = .confirming i tool pending rest)
    (hlog : b'.log = b.log ++ [.answered i choice] ++ [.started i pending.input]) : ConfirmedOnce b' := by
  have hstage := ht.current (i, tool, pending) (by rw [hphase]; rfl)
  have hahead : i ∈ b.ahead o uses := by simp [Batch.ahead, hphase]
  have hnone : startsAt i b.log = [] :=
    startsAt_eq_nil.mpr fun x => honce.pending i x (by simp [hstage, Stage.isPending]) hahead
  intro j hj
  by_cases hji : j = i
  · subst hji
    refine ⟨pending.input, ?_, ?_⟩
    · rw [hlog]
      simp [hprompted.asked j tool pending rest hphase]
    · rw [hlog, startsAt_append, startsAt_append, hnone]
      simp [startsAt]
  · have hnot : ∀ c, .answered j c ∉ [Event.answered i choice, .started i pending.input] := by simp [hji]
    rw [hlog, List.append_assoc] at hj ⊢
    obtain ⟨x, hasked, hstarts⟩ := h j ((List.mem_append.mp hj).resolve_right (hnot .yes))
    refine ⟨x, List.mem_append_left _ hasked, ?_⟩
    rw [startsAt_append, hstarts]
    simp [startsAt, Ne.symm hji]

/-- Exactly an approval after an abort is without effect. -/
theorem ConfirmedOnce.steps_iff (ht : Tracked o uses b) (honce : StartsOnce o uses b)
    (hprompted : Prompted o uses b) (h : ConfirmedOnce b) (hs : Steps o uses b op b') :
    ConfirmedOnce b' ↔ ∀ err, op ≠ .answer .yes (some err) := by
  cases hs with
  | call hphase huse hbegin hr =>
      rename_i i use reply r
      have hm := resume_moves hr
      refine iff_of_true (h.append rfl (fun j hj => ?_) fun j x hx hj => ?_) (by simp)
      · obtain ⟨tool, input, heq⟩ := hm.answered hj
        exact hprompted.deferred i tool input heq
      · obtain ⟨rfl, hstartable, -⟩ := hm.started hx
        have hpending := (hprompted.answered j .yes hj).1
        cases hst : b.stages j <;> simp_all [Stage.startable, Stage.isPending]
  | gather hphase hsettled =>
      exact iff_of_true (h.append (List.append_nil _).symm (by simp) (by simp)) (by simp)
  | handles hphase hstage =>
      rename_i i rest result
      refine iff_of_true ?_ (by simp)
      have hkeep : ConfirmedOnce (Setup.push uses { b with log := b.log ++ [] } i result ToolUse.input rest) :=
        h.push _ _ _ (by simp) (by simp)
      simpa only [List.append_nil] using hkeep
  | asks hphase hstage => exact iff_of_true (h.append rfl (by simp) (by simp)) (by simp)
  | declines hphase hchoice =>
      rename_i i rest tool pending choice signal
      refine iff_of_true (h.push _ _ _ ?_ (by simp)) ?_
      · cases choice <;> simp_all [Choice.approves]
      · cases choice <;> simp_all [Choice.approves]
  | aborts hphase hchoice =>
      rename_i i rest tool pending choice err
      cases choice with
      | yes =>
          refine iff_of_false (fun honce' => ?_) fun hlive => hlive err rfl
          obtain ⟨x, -, hstarts⟩ := honce' i (by simp [Setup.push])
          have hstage := ht.current (i, tool, pending) (by rw [hphase]; rfl)
          have hnone : startsAt i b.log = [] := startsAt_eq_nil.mpr fun x =>
            honce.pending i x (by simp [hstage, Stage.isPending]) (by simp [Batch.ahead, hphase])
          have hreports : startsAt i ((useById uses (rerunCatch tool pending err).toolUseId).toList.map fun _ =>
              .reported i pending.input) = [] := by
            cases useById uses (rerunCatch tool pending err).toolUseId <;> rfl
          simp only [Setup.push, startsAt_append, hnone, hreports] at hstarts
          simp [startsAt] at hstarts
      | always => exact iff_of_true (h.push _ _ _ (by simp) (by simp)) (by simp)
      | no | deny => simp [Choice.approves] at hchoice
  | approves hphase hchoice =>
      exact iff_of_true (ConfirmedOnce.approve honce hprompted ht h hphase rfl) (by simp)
  | reruns hphase => exact iff_of_true (h.push _ _ _ (by simp) (by simp)) (by simp)
  | appends hphase =>
      exact iff_of_true (h.append (List.append_nil _).symm (by simp) (by simp)) (by simp)

end WrongStack.Tools

/-!
# Sessions of batches

A step of a session begins a batch, takes a step of the batch or changes the policy, so what is known of
every batch is known of the batch of every session.
-/

namespace WrongStack.Tools

open Lib Permission Setup

variable {o : Setup} {s s' : Session} {op : SessionOp}

/-- What is known of the batch of a session. -/
structure Session.Tracks (o : Setup) (s : Session) : Prop where
  tracked : Tracked o s.uses s.batch
  once : StartsOnce o s.uses s.batch
  prompted : Prompted o s.uses s.batch

theorem tracks_batch (o : Setup) (policy : Permission.State) (uses : List ToolUse) :
    Session.Tracks o { policy, uses, batch := o.batch } :=
  ⟨tracked_batch o uses, startsOnce_batch o uses, prompted_batch o uses⟩

/-- The step of the batch that a step of the session takes. -/
def Session.batchOp (s : Session) : SessionOp → Option Op
  | .evaluate i ctx signal =>
      match s.batch.stages i with
      | .evaluate tool input =>
          let (decision, policy) := s.policy.evaluate ⟨tool.toTool, input, ctx⟩
          some (.call i (.evaluate (.ok (decision, policy.yolo)) signal))
      | _ => none
  | .answer choice signal _ => some (.answer choice signal)
  | .other op => some op
  | .begin _ | .host _ => none

/-- The three kinds of steps of a session. -/
inductive SessionSteps (o : Setup) (s : Session) : SessionOp → Session → Prop
  | begins {uses : List ToolUse} : SessionSteps o s (.begin uses) { s with uses, batch := o.batch }
  | takes {op : SessionOp} {bop : Op} {policy : Permission.State} {batch : Batch} (hop : s.batchOp op = some bop)
      (hstep : o.step? s.uses s.batch bop = some batch) : SessionSteps o s op { s with policy, batch }
  | changes {op : Permission.Op} {policy : Permission.State} : SessionSteps o s (.host op) { s with policy }

theorem take_some {policy : Permission.State} {bop : Op} (hop : s.batchOp op = some bop)
    (h : s.take o policy bop = some s') : SessionSteps o s op s' := by
  unfold Session.take at h
  obtain ⟨batch, hstep, rfl⟩ := Option.map_eq_some_iff.mp h
  exact .takes hop hstep

theorem sessionSteps_of_step? (h : s.step? o op = some s') : SessionSteps o s op s' := by
  unfold Session.step? at h
  cases op with
  | begin uses =>
      simp only at h
      split at h
      · obtain rfl := Option.some.inj h
        exact .begins
      · cases h
  | evaluate i ctx signal =>
      simp only at h
      split at h
      · rename_i tool input hst
        exact take_some (by rw [Session.batchOp, hst]) h
      · cases h
  | answer choice signal written =>
      simp only at h
      split at h
      · exact take_some rfl h
      · cases h
  | other op =>
      simp only at h
      split at h
      · cases h
      · cases h
      · exact take_some rfl h
  | host op =>
      simp only at h
      split at h
      · cases h
      · cases h
      · cases h
      · obtain rfl := Option.some.inj h
        exact .changes

theorem sessionSteps_or (o : Setup) (s : Session) (op : SessionOp) :
    s.step? o op = none ∧ s.step o op = s ∨ s.step? o op = some (s.step o op) ∧ SessionSteps o s op (s.step o op) := by
  unfold Session.step
  cases h : s.step? o op with
  | none => exact .inl ⟨rfl, rfl⟩
  | some s' => exact .inr ⟨rfl, sessionSteps_of_step? h⟩

theorem Session.Tracks.sessionSteps (hawaiter : o.confirmAwaiter = false) (h : s.Tracks o)
    (hs : SessionSteps o s op s') : s'.Tracks o := by
  cases hs with
  | begins => exact tracks_batch ..
  | takes hop hstep =>
      have hsteps := steps_of_step? hstep
      exact ⟨h.tracked.steps hsteps, h.once.steps h.tracked hsteps, h.prompted.steps hawaiter h.tracked hsteps⟩
  | changes => exact ⟨h.tracked, h.once, h.prompted⟩

theorem Session.Tracks.step (hawaiter : o.confirmAwaiter = false) (op : SessionOp) (h : s.Tracks o) :
    (s.step o op).Tracks o := by
  rcases sessionSteps_or o s op with ⟨-, heq⟩ | ⟨-, hs⟩
  · exact heq.symm ▸ h
  · exact h.sessionSteps hawaiter hs

/-! ## Approvals in a session -/

/-- The user is asked. -/
def Session.asks (o : Setup) (s : Session) : Bool :=
  match s.batch.phase with
  | .confirming .. => !o.headless
  | _ => false

/-- The user does not say yes once the run has been aborted. -/
def YesLive (o : Setup) (s : Session) : SessionOp → Prop
  | .answer .yes (some _) _ => s.asks o = false
  | _ => True

theorem answer_step?_none {choice : Choice} {signal : Option Thrown} {written : Bool} (hdeny : choice ≠ .deny) :
    s.step? o (.answer choice signal written) = none ↔ s.asks o = false := by
  unfold Session.asks Session.step?
  cases hphase : s.batch.phase with
  | confirming i tool pending rest => cases hheadless : o.headless <;>
      simp [Session.take, Setup.step?, hphase, hheadless, hdeny]
  | _ => simp

theorem confirmedOnce_batch (o : Setup) : ConfirmedOnce o.batch := fun i hi => by simp [Setup.batch] at hi

theorem confirmedOnce_step_iff (s : Session) (op : SessionOp) (h : s.Tracks o) (honce : ConfirmedOnce s.batch) :
    ConfirmedOnce (s.step o op).batch ↔ YesLive o s op := by
  rcases sessionSteps_or o s op with ⟨hnone, heq⟩ | ⟨hsome, hs⟩
  · rw [heq]
    refine iff_of_true honce ?_
    unfold YesLive
    split
    · exact (answer_step?_none (by simp)).mp hnone
    · trivial
  · generalize s.step o op = s' at hsome hs
    cases hs with
    | begins => exact iff_of_true (confirmedOnce_batch o) trivial
    | changes => exact iff_of_true honce trivial
    | takes hop hstep =>
        rw [ConfirmedOnce.steps_iff h.tracked h.once h.prompted honce (steps_of_step? hstep)]
        cases op with
        | answer choice signal written =>
            obtain rfl := Option.some.inj hop
            cases signal with
            | none => exact iff_of_true (by simp) (by cases choice <;> trivial)
            | some err =>
                cases choice with
                | yes =>
                    refine iff_of_false (fun hnot => hnot err rfl) fun hlive => ?_
                    rw [(answer_step?_none (by simp)).mpr hlive] at hsome
                    cases hsome
                | no | always | deny => exact iff_of_true (by simp) trivial
        | other bop =>
            obtain rfl := Option.some.inj hop
            refine iff_of_true (fun err heq => ?_) trivial
            subst heq
            cases hsome
        | evaluate i ctx signal =>
            refine iff_of_true (fun err heq => ?_) trivial
            subst heq
            unfold Session.batchOp at hop
            cases hst : s.batch.stages i <;> simp [hst] at hop
        | _ => exact iff_of_true (by cases hop) trivial

end WrongStack.Tools
