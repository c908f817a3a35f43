import WrongStack.Tools.Lemmas.Calls

/-!
# A batch from its first step to its message

Which calls have settled in which phase, which outputs are still to be handled, and what has been
pushed for the others.
-/

namespace WrongStack.Tools

open Lib Utils Permission Setup

variable {o : Setup} {uses : List ToolUse} {b b' : Batch} {op : Op} {i j : Nat} {use : ToolUse} {tool : Tool}
  {x y : Json} {st st' : Stage} {events : List Event}

/-- The outputs that are still to be handled; the one that is being confirmed comes first. -/
def Batch.remaining (o : Setup) (uses : List ToolUse) (b : Batch) : List Nat :=
  match b.phase with
  | .executing => o.order uses
  | .handling rest => rest
  | .confirming i _ _ rest | .rerunning i _ _ rest => i :: rest
  | .returned => []

/-- The pending call that the user is asked about or has approved. -/
def Phase.current : Phase → Option (Nat × Tool × ToolConfirmPendingResult)
  | confirming i tool pending _ | rerunning i tool pending _ => some (i, tool, pending)
  | _ => none

def idAt (uses : List ToolUse) (i : Nat) : JsString := (uses[i]?.map ToolUse.id).getD []

structure Tracked (o : Setup) (uses : List ToolUse) (b : Batch) : Prop where
  history : History b.stages b.log
  ok : ∀ i use, uses[i]? = some use → StageOk o use (b.stages i)
  checked : ∀ i x, .evaluated i x ∈ b.log → ∃ use tool, uses[i]? = some use ∧ Checked o use tool x
  current : ∀ p ∈ b.phase.current, b.stages p.1 = .settled (.pending p.2.1 p.2.2)
  begun : ∀ i, b.stages i ≠ .waiting → i < uses.length ∧
    ∀ j < uses.length, o.precedes uses j i = true → (b.stages j).isSettled = true
  settled : b.phase ≠ .executing → ∀ i < uses.length, (b.stages i).isSettled = true
  handled : ∃ done, o.order uses = done ++ b.remaining o uses ∧
    b.resultsForMessage.map ToolResult.toolUseId = done.map (idAt uses)
  messages : b.messages = if b.phase matches .returned then [b.resultsForMessage] else []

theorem tracked_batch (o : Setup) (uses : List ToolUse) : Tracked o uses o.batch := by
  refine ⟨⟨?_, ?_, ?_, ?_⟩, ?_, ?_, ?_, ?_, ?_, ⟨[], rfl, rfl⟩, rfl⟩ <;>
    simp [Setup.batch, StageOk, Phase.current, Stage.input?]

/-! ## The order of the outputs -/

theorem order_perm (o : Setup) (uses : List ToolUse) : (o.order uses).Perm (List.range uses.length) := by
  unfold Setup.order
  split
  · have h := List.filter_append_perm (fun i => !o.isMutating uses i) (List.range uses.length)
    simpa only [Bool.not_not] using h
  · exact .refl _

theorem mem_order : i ∈ o.order uses ↔ i < uses.length :=
  (order_perm o uses).mem_iff.trans List.mem_range

theorem order_nodup (o : Setup) (uses : List ToolUse) : (o.order uses).Nodup :=
  (order_perm o uses).nodup_iff.mpr List.nodup_range

theorem Tracked.remaining_lt (h : Tracked o uses b) (hi : i ∈ b.remaining o uses) : i < uses.length := by
  obtain ⟨done, horder, -⟩ := h.handled
  exact mem_order.mp (horder ▸ List.mem_append_right _ hi)

theorem Tracked.remaining_nodup (h : Tracked o uses b) : (b.remaining o uses).Nodup := by
  obtain ⟨done, horder, -⟩ := h.handled
  exact (List.nodup_append.mp (horder ▸ order_nodup o uses)).2.1

theorem idAt_of_get (h : uses[i]? = some use) : idAt uses i = use.id := by
  rw [idAt, h]
  rfl

theorem get_of_lt (h : i < uses.length) : ∃ use, uses[i]? = some use :=
  ⟨uses[i], List.getElem?_eq_getElem h⟩

/-! ## Steps of a call -/

theorem Moves.unsettled (hm : Moves o i use st st' events) : st.isSettled = false := by
  cases hm with
  | settles hst hunsettled hid => exact hunsettled
  | _ => rfl

theorem Moves.evaluated (hm : Moves o i use st st' events) (he : .evaluated j x ∈ events) :
    j = i ∧ ∃ tool, st' = .evaluate tool x := by
  cases hm <;> simp at he
  case evaluates tool input hschema hvalid =>
    obtain ⟨rfl, rfl⟩ := he
    exact ⟨rfl, tool, rfl⟩

theorem canBegin_iff : o.canBegin uses b i = true ↔
    ∀ j < uses.length, o.precedes uses j i = true → (b.stages j).isSettled = true := by
  simp only [canBegin, List.all_eq_true, List.mem_range, Bool.or_eq_true, Bool.not_eq_true']
  refine forall₂_congr fun j hj => ?_
  cases o.precedes uses j i <;> simp

/-- What has settled stays as it is while a call moves. -/
theorem settled_update (hm : Moves o i use (b.stages i) st' events) (h : (b.stages j).isSettled = true) :
    Function.update b.stages i st' j = b.stages j := by
  refine Function.update_of_ne ?_ _ _
  rintro rfl
  exact absurd (h.symm.trans hm.unsettled) (by simp)

theorem Tracked.call (h : Tracked o uses b) {r : Resumed} (hphase : b.phase = .executing)
    (huse : uses[i]? = some use) (hbegin : b.stages i = .waiting → o.canBegin uses b i = true)
    (hm : Moves o i use (b.stages i) r.stage r.events) :
    Tracked o uses { b with
      stages := Function.update b.stages i r.stage, budget := r.budget, log := b.log ++ r.events } := by
  have hi : i < uses.length := (List.getElem?_eq_some_iff.mp huse).1
  have hok : StageOk o use r.stage := (h.ok i use huse).moves hm
  refine ⟨h.history.moves hm, fun j v hv => ?_, fun j x he => ?_, ?_, fun j hj => ?_, ?_, h.handled, ?_⟩
  · by_cases hji : j = i
    · subst hji
      obtain rfl := Option.some.inj (huse.symm.trans hv)
      simp only [Function.update_self]
      exact hok
    · simp only [Function.update_of_ne hji]
      exact h.ok j v hv
  · rcases List.mem_append.mp he with he | he
    · exact h.checked j x he
    · obtain ⟨rfl, tool, hst⟩ := hm.evaluated he
      rw [hst] at hok
      exact ⟨use, tool, huse, hok⟩
  · simp [hphase, Phase.current]
  · have hbefore : j < uses.length ∧ ∀ k < uses.length, o.precedes uses k j = true →
        (b.stages k).isSettled = true := by
      by_cases hji : j = i
      · subst hji
        refine ⟨hi, ?_⟩
        by_cases hw : b.stages j = .waiting
        · exact canBegin_iff.mp (hbegin hw)
        · exact (h.begun j hw).2
      · simp only [Function.update_of_ne hji] at hj
        exact h.begun j hj
    refine ⟨hbefore.1, fun k hk hprec => ?_⟩
    have hset := hbefore.2 k hk hprec
    simp only [settled_update hm hset]
    exact hset
  · exact fun hne => absurd hphase hne
  · exact h.messages

/-! ## Steps of `executeTools` -/

theorem tracked_gather (h : Tracked o uses b) (hphase : b.phase = .executing)
    (hsettled : ∀ i < uses.length, (b.stages i).isSettled = true) :
    Tracked o uses { b with phase := .handling (o.order uses) } := by
  refine ⟨h.history, h.ok, h.checked, by simp [Phase.current], h.begun, fun _ => hsettled, ?_, ?_⟩
  · have hh := h.handled
    simp only [Batch.remaining, hphase] at hh ⊢
    exact hh
  · rw [h.messages, hphase]

theorem Tracked.push (h : Tracked o uses b) (noted : List Event) (rest : List Nat) (input : ToolUse → Json)
    {result : ToolResult} (hremaining : b.remaining o uses = i :: rest) (hphase : b.phase ≠ .executing)
    (hreturned : b.messages = []) (hnoted : ∀ e ∈ noted, ∀ j, e.inputAt j = none)
    (hid : result.toolUseId = idAt uses i) :
    Tracked o uses (Setup.push uses { b with log := b.log ++ noted } i result input rest) := by
  unfold Setup.push
  refine ⟨?_, h.ok, fun j x he => ?_, by simp [Phase.current], h.begun, fun _ => h.settled hphase, ?_, ?_⟩
  · refine (h.history.append hnoted).append fun e he j => ?_
    obtain ⟨use, -, rfl⟩ := List.mem_map.mp he
    rfl
  · rcases List.mem_append.mp he with he | he
    · rcases List.mem_append.mp he with he | he
      · exact h.checked j x he
      · exact absurd ((hnoted _ he j).symm.trans (Event.inputAt_evaluated j x)) (by simp)
    · obtain ⟨use, -, heq⟩ := List.mem_map.mp he
      cases heq
  · obtain ⟨done, horder, hresults⟩ := h.handled
    refine ⟨done ++ [i], ?_, ?_⟩
    · rw [horder, hremaining]
      simp [Batch.remaining]
    · simp [hresults, hid]
  · exact hreturned

theorem Tracked.pending_id (h : Tracked o uses b) {pending : ToolConfirmPendingResult}
    (hstage : b.stages i = .settled (.pending tool pending)) (hi : i < uses.length) :
    pending.toolUseId = idAt uses i := by
  obtain ⟨use, huse⟩ := get_of_lt hi
  have hok := h.ok i use huse
  rw [hstage] at hok
  exact hok.2.trans (idAt_of_get huse).symm

/-- Events about the pending input are added, and the phase goes on. -/
theorem Tracked.goes_on (h : Tracked o uses b) (phase : Phase) (noted : List Event)
    {pending : ToolConfirmPendingResult} (hphase : b.phase ≠ .executing)
    (hstage : b.stages i = .settled (.pending tool pending)) (hmessages : b.messages = [])
    (hremaining : Batch.remaining o uses { b with phase } = b.remaining o uses)
    (hcurrent : phase.current = some (i, tool, pending)) (hreturned : phase ≠ .returned)
    (hnoted : ∀ e ∈ noted, ∀ j x, e.inputAt j = some x → j = i ∧ x = pending.input)
    (hevaluated : ∀ j x, .evaluated j x ∉ noted) :
    Tracked o uses { b with phase, log := b.log ++ noted } := by
  refine ⟨?_, h.ok, fun j x he => ?_, ?_, h.begun, fun _ => h.settled hphase, ?_, ?_⟩
  · refine h.history.note (i := i) (fun e he j x hx => ?_) (by rw [hstage]; rfl)
    obtain ⟨rfl, rfl⟩ := hnoted e he j x hx
    refine ⟨rfl, ?_⟩
    rw [hstage]
    rfl
  · exact h.checked j x ((List.mem_append.mp he).resolve_right (hevaluated j x))
  · intro p hp
    obtain rfl := Option.some.inj (hcurrent.symm.trans hp)
    exact hstage
  · obtain ⟨done, horder, hresults⟩ := h.handled
    exact ⟨done, horder.trans (congrArg (done ++ ·) hremaining.symm), hresults⟩
  · rw [hmessages]
    cases phase <;> simp at hreturned ⊢

theorem Tracked.no_message (h : Tracked o uses b) (hphase : b.phase ≠ .returned) : b.messages = [] := by
  rw [h.messages]
  split
  · rename_i heq
    exact absurd heq hphase
  · rfl

theorem rerunResult_id {pending : ToolConfirmPendingResult} {run : ToolRun} {late : Option Thrown}
    {filePath : Option JsString} :
    (o.rerunResult tool pending run late filePath).toolUseId = pending.toolUseId := by
  unfold Setup.rerunResult
  split <;> rfl

theorem Tracked.steps (h : Tracked o uses b) (hs : Steps o uses b op b') : Tracked o uses b' := by
  cases hs with
  | call hphase huse hbegin hr => exact h.call hphase huse hbegin (resume_moves hr)
  | gather hphase hsettled => exact tracked_gather h hphase hsettled
  | handles hphase hstage =>
      rename_i i rest result
      have hremaining : b.remaining o uses = i :: rest := by rw [Batch.remaining, hphase]
      obtain ⟨use, huse⟩ := get_of_lt (h.remaining_lt (hremaining ▸ List.mem_cons_self))
      have hid := h.ok i use huse
      rw [hstage] at hid
      have hpush := h.push [] rest ToolUse.input hremaining (by simp [hphase]) (h.no_message (by simp [hphase]))
        (by simp) (hid.trans (idAt_of_get huse).symm)
      simpa only [List.append_nil] using hpush
  | asks hphase hstage =>
      refine h.goes_on _ _ (by simp [hphase]) hstage (h.no_message (by simp [hphase])) ?_ rfl (by simp) ?_ (by simp)
      · simp [Batch.remaining, hphase]
      · simp +contextual [Event.inputAt, eq_comm]
  | declines hphase hchoice | aborts hphase hchoice =>
      rename_i i rest tool pending _ _
      have hremaining : b.remaining o uses = i :: rest := by rw [Batch.remaining, hphase]
      have hlt := h.remaining_lt (hremaining ▸ List.mem_cons_self)
      have hstage := h.current (i, tool, pending) (by rw [hphase]; rfl)
      refine h.push _ _ _ hremaining (by simp [hphase]) (h.no_message (by simp [hphase])) ?_
        (h.pending_id hstage hlt)
      simp [Event.inputAt]
  | approves hphase hchoice =>
      rename_i i rest tool pending choice
      have hstage := h.current (i, tool, pending) (by rw [hphase]; rfl)
      have hgo := h.goes_on (.rerunning i tool pending rest)
        [.answered i choice, .started i pending.input] (by simp [hphase]) hstage
        (h.no_message (by simp [hphase])) (by simp [Batch.remaining, hphase]) rfl (by simp) ?_ (by simp)
      · simpa only [List.append_assoc, List.cons_append, List.nil_append] using hgo
      · simp +contextual [Event.inputAt, eq_comm]
  | reruns hphase =>
      rename_i i rest tool pending run late filePath
      have hremaining : b.remaining o uses = i :: rest := by rw [Batch.remaining, hphase]
      have hlt := h.remaining_lt (hremaining ▸ List.mem_cons_self)
      have hstage := h.current (i, tool, pending) (by rw [hphase]; rfl)
      refine h.push _ _ _ hremaining (by simp [hphase]) (h.no_message (by simp [hphase])) ?_
        (rerunResult_id.trans (h.pending_id hstage hlt))
      simp [Event.inputAt]
  | appends hphase =>
      have hmessages := h.no_message (by simp [hphase])
      refine ⟨h.history, h.ok, h.checked, by simp [Phase.current], h.begun,
        fun _ => h.settled (by simp [hphase]), ?_, by simp [hmessages]⟩
      obtain ⟨done, horder, hresults⟩ := h.handled
      refine ⟨done, ?_, hresults⟩
      rw [horder]
      simp [Batch.remaining, hphase]

/-- The run rule for batches: what the steps of a tracked batch keep holds throughout. -/
theorem run_tracked (uses : List ToolUse) {I : Batch → Prop} {C : Batch → Op → Prop} (hinit : I o.batch)
    (hstep : ∀ b op b', Tracked o uses b → I b → C b op → Steps o uses b op b' → I b') {ops : List Op}
    (hunder : Under (o.step uses) C o.batch ops) :
    Tracked o uses (run (o.step uses) o.batch ops) ∧ I (run (o.step uses) o.batch ops) := by
  refine run_invariant_under (I := fun b => Tracked o uses b ∧ I b) (C := C) ?_
    ⟨tracked_batch o uses, hinit⟩ hunder
  rintro b op ⟨ht, hi⟩ hc
  rcases step_cases o uses b op with heq | hs
  · rw [heq]
    exact ⟨ht, hi⟩
  · exact ⟨ht.steps hs, hstep b op _ ht hi hc hs⟩

end WrongStack.Tools

/-!
# Which call runs, and when

Mutating calls run one at a time. Inside the batch they run in the order of their tool uses; a call that
the user confirms runs after the batch, where the order of the outputs says nothing about those before it.
-/

namespace WrongStack.Tools

open Lib Permission Setup

variable {o : Setup} {uses : List ToolUse} {b b' : Batch} {op : Op} {i j : Nat} {use : ToolUse} {tool : Tool}
  {x y : Json} {st st' : Stage} {events : List Event}

/-! ## One at a time -/

/-- The tool of the call at `i` runs. -/
def Batch.Runs (b : Batch) (i : Nat) : Prop :=
  (b.stages i).executes = true ∨ ∃ tool pending rest, b.phase = .rerunning i tool pending rest

theorem Stage.not_settled_of_executes (h : st.executes = true) : st.isSettled = false := by
  cases st <;> simp_all [Stage.executes, Stage.isSettled]

/-- Of two calls, one of them mutating, one waits for the other. -/
theorem precedes_or (hstrategy : o.strategy ≠ .parallel) (hi : o.isMutating uses i = true) (hne : j ≠ i) :
    o.precedes uses j i = true ∨ o.precedes uses i j = true := by
  unfold precedes
  cases hs : o.strategy with
  | parallel => exact absurd hs hstrategy
  | sequential =>
      simp only [decide_eq_true_eq]
      omega
  | smart =>
      simp only [hi, Bool.true_and, Bool.not_true, Bool.false_or, Bool.or_eq_true, Bool.and_eq_true,
        decide_eq_true_eq, Bool.not_eq_true']
      cases o.isMutating uses j with
      | false => exact .inl (.inl rfl)
      | true =>
          simp only [true_and, Bool.true_eq_false, false_or]
          omega

theorem Tracked.alone (h : Tracked o uses b) (hstrategy : o.strategy ≠ .parallel)
    (hi : o.isMutating uses i = true) (hr : b.Runs i) (hr' : b.Runs j) : j = i := by
  have hnot : ∀ k, (b.stages k).executes = true → b.phase = .executing ∧ k < uses.length := by
    intro k hk
    have hlt := (h.begun k (by rintro heq; simp [heq, Stage.executes] at hk)).1
    refine ⟨?_, hlt⟩
    by_contra hphase
    exact absurd ((h.settled hphase k hlt).symm.trans (Stage.not_settled_of_executes hk)) (by simp)
  rcases hr with hr | ⟨tool, pending, rest, hphase⟩
  · obtain ⟨hphase, hlt⟩ := hnot i hr
    rcases hr' with hr' | ⟨tool, pending, rest, heq⟩
    · by_contra hne
      obtain ⟨-, hlt'⟩ := hnot j hr'
      have hbegun : ∀ k, (b.stages k).executes = true → b.stages k ≠ .waiting := by
        intro k hk heq
        simp [heq, Stage.executes] at hk
      rcases precedes_or hstrategy hi hne with hprec | hprec
      · have hset := (h.begun i (hbegun i hr)).2 j hlt' hprec
        exact absurd (hset.symm.trans (Stage.not_settled_of_executes hr')) (by simp)
      · have hset := (h.begun j (hbegun j hr')).2 i hlt hprec
        exact absurd (hset.symm.trans (Stage.not_settled_of_executes hr)) (by simp)
    · exact absurd (hphase.symm.trans heq) (by simp)
  · rcases hr' with hr' | ⟨tool', pending', rest', heq⟩
    · exact absurd (hphase.symm.trans (hnot j hr').1) (by simp)
    · rw [hphase] at heq
      cases heq
      rfl

/-! ## Starts -/

/-- The position of the call that starts to run. -/
def Event.startedAt : Event → Option Nat
  | started i _ => some i
  | _ => none

/-- The outputs that nobody has approved yet. -/
def Batch.ahead (o : Setup) (uses : List ToolUse) (b : Batch) : List Nat :=
  match b.phase with
  | .executing => o.order uses
  | .handling rest | .rerunning _ _ _ rest => rest
  | .confirming i _ _ rest => i :: rest
  | .returned => []

/-- The call may still start. -/
def Stage.startable : Stage → Bool
  | evaluate .. | confirmAwaiter .. => true
  | _ => false

def Stage.isPending : Stage → Bool
  | settled (.pending ..) => true
  | _ => false

/-- No call starts twice. -/
structure StartsOnce (o : Setup) (uses : List ToolUse) (b : Batch) : Prop where
  startable : ∀ i x, (b.stages i).startable = true → .started i x ∉ b.log
  pending : ∀ i x, (b.stages i).isPending = true → i ∈ b.ahead o uses → .started i x ∉ b.log

theorem Moves.started (hm : Moves o i use st st' events) (he : .started j x ∈ events) :
    j = i ∧ st.startable = true ∧ st'.executes = true ∧ st'.input? = some x := by
  cases hm <;> simp at he
  case starts | confirms =>
    obtain ⟨rfl, rfl⟩ := he
    exact ⟨rfl, rfl, rfl, rfl⟩

/-- A call that has started does not become one that may start. -/
theorem Moves.startable (hm : Moves o i use st st' events)
    (h : st'.startable = true ∨ st'.isPending = true) : st.startable = true ∨ st.fresh = true := by
  cases hm with
  | evaluates => exact .inr rfl
  | asks | defers => exact .inl rfl
  | _ => simp [Stage.startable, Stage.isPending] at h

/-- Events that start nothing are added, and no output comes back. -/
theorem StartsOnce.append (h : StartsOnce o uses b) (noted : List Event) (phase : Phase)
    (results : List ToolResult) (messages : List (List ToolResult))
    (hnoted : ∀ j x, .started j x ∉ noted)
    (hahead : Batch.ahead o uses { b with phase } ⊆ b.ahead o uses) :
    StartsOnce o uses
      { b with phase, resultsForMessage := results, messages, log := b.log ++ noted } := by
  refine ⟨fun j x hj hmem => ?_, fun j x hj hin hmem => ?_⟩
  · exact h.startable j x hj ((List.mem_append.mp hmem).resolve_right (hnoted j x))
  · exact h.pending j x hj (hahead hin) ((List.mem_append.mp hmem).resolve_right (hnoted j x))

theorem StartsOnce.push (h : StartsOnce o uses b) (noted : List Event) (rest : List Nat)
    (input : ToolUse → Json) {result : ToolResult} (hnoted : ∀ j x, .started j x ∉ noted)
    (hahead : rest ⊆ b.ahead o uses) :
    StartsOnce o uses (Setup.push uses { b with log := b.log ++ noted } i result input rest) := by
  have hkeep := h.append (noted ++ (useById uses result.toolUseId).toList.map fun use => .reported i (input use))
    (.handling rest) (b.resultsForMessage ++ [result]) b.messages (by simp [hnoted]) hahead
  simpa only [Setup.push, List.append_assoc] using hkeep

theorem StartsOnce.steps (ht : Tracked o uses b) (h : StartsOnce o uses b) (hs : Steps o uses b op b') :
    StartsOnce o uses b' := by
  cases hs with
  | call hphase huse hbegin hr =>
      rename_i i use reply r
      have hm := resume_moves hr
      have hnot : ∀ j x, (Function.update b.stages i r.stage j).startable = true ∨
          (Function.update b.stages i r.stage j).isPending = true → j ∈ o.order uses →
          .started j x ∉ b.log ++ r.events := by
        intro j x hj hin hmem
        by_cases hji : j = i
        · subst hji
          rw [Function.update_self] at hj
          rcases List.mem_append.mp hmem with hmem | hmem
          · rcases hm.startable hj with hst | hfresh
            · exact h.startable j x hst hmem
            · exact absurd ((ht.history.fresh j hfresh _ hmem).symm.trans (Event.inputAt_started j x)) (by simp)
          · obtain ⟨-, -, hexec, -⟩ := hm.started hmem
            cases hst : r.stage <;> simp_all [Stage.executes, Stage.startable, Stage.isPending]
        · rw [Function.update_of_ne hji] at hj
          have hold := (List.mem_append.mp hmem).resolve_right fun hmem => hji (hm.started hmem).1
          rcases hj with hj | hj
          · exact h.startable j x hj hold
          · exact h.pending j x hj (by simp only [Batch.ahead, hphase]; exact hin) hold
      refine ⟨fun j x hj => ?_, fun j x hj hin => ?_⟩
      · refine hnot j x (.inl hj) (mem_order.mpr ?_)
        by_cases hji : j = i
        · exact hji ▸ (List.getElem?_eq_some_iff.mp huse).1
        · simp only [Function.update_of_ne hji] at hj
          exact (ht.begun j (by rintro heq; simp [heq, Stage.startable] at hj)).1
      · refine hnot j x (.inr hj) ?_
        simp only [Batch.ahead, hphase] at hin
        exact hin
  | gather hphase hsettled =>
      have hkeep := h.append [] (.handling (o.order uses)) b.resultsForMessage b.messages (by simp)
         (by simp [Batch.ahead, hphase])
      simpa only [List.append_nil] using hkeep
  | handles hphase hstage =>
      rename_i i rest result
      have hkeep : StartsOnce o uses (Setup.push uses { b with log := b.log ++ [] } i result ToolUse.input rest) :=
        h.push [] rest _ (by simp) (by simp [Batch.ahead, hphase])
      simpa only [List.append_nil] using hkeep
  | asks hphase hstage =>
      exact h.append _ _ _ _ (by simp) (by simp [Batch.ahead, hphase])
  | declines hphase hchoice | aborts hphase hchoice =>
      exact h.push _ _ _ (by simp) (by simp [Batch.ahead, hphase])
  | approves hphase hchoice =>
      rename_i i rest tool pending choice
      have hremaining : b.remaining o uses = i :: rest := by rw [Batch.remaining, hphase]
      have hnotin : i ∉ rest := (List.nodup_cons.mp (hremaining ▸ ht.remaining_nodup)).1
      have hstage := ht.current (i, tool, pending) (by rw [hphase]; rfl)
      have hold : ∀ j x, .started j x ∈ b.log ++ [.answered i choice] ++ [.started i pending.input] →
          .started j x ∈ b.log ∨ j = i := by
        intro j x hmem
        simp only [List.append_assoc, List.mem_append, List.mem_cons, List.not_mem_nil, or_false, reduceCtorEq,
          false_or, Event.started.injEq] at hmem
        exact hmem.imp_right And.left
      refine ⟨fun j x hj hmem => ?_, fun j x hj hin hmem => ?_⟩
      · rcases hold j x hmem with hmem | rfl
        · exact h.startable j x hj hmem
        · simp only [hstage] at hj
          simp [Stage.startable] at hj
      · rcases hold j x hmem with hmem | rfl
        · refine h.pending j x hj ?_ hmem
          simp only [Batch.ahead, hphase] at hin ⊢
          exact List.mem_cons_of_mem _ hin
        · exact hnotin hin
  | reruns hphase =>
      exact h.push _ _ _ (by simp) (by simp [Batch.ahead, hphase])
  | appends hphase =>
      have hkeep := h.append [] .returned b.resultsForMessage (b.messages ++ [b.resultsForMessage]) (by simp)
         (by simp [Batch.ahead])
      simpa only [List.append_nil] using hkeep

theorem startsOnce_batch (o : Setup) (uses : List ToolUse) : StartsOnce o uses o.batch :=
  ⟨fun _ _ _ => by simp [Setup.batch], fun _ _ _ _ => by simp [Setup.batch]⟩

/-! ## In order -/

def startedIn (log : List Event) : List Nat := log.filterMap Event.startedAt

theorem mem_startedIn {log : List Event} : i ∈ startedIn log ↔ ∃ x, .started i x ∈ log := by
  rw [startedIn, List.mem_filterMap]
  constructor
  · rintro ⟨e, he, heq⟩
    cases e <;> simp only [Event.startedAt, reduceCtorEq, Option.some.injEq] at heq
    subst heq
    exact ⟨_, he⟩
  · rintro ⟨x, hx⟩
    exact ⟨_, hx, rfl⟩

/-- The mutating calls that have run, in the order in which they started. -/
def Batch.mutations (o : Setup) (uses : List ToolUse) (b : Batch) : List Nat :=
  (startedIn b.log).filter (o.isMutating uses)

theorem mem_mutations : i ∈ b.mutations o uses ↔
    (∃ x, .started i x ∈ b.log) ∧ o.isMutating uses i = true := by
  rw [Batch.mutations, List.mem_filter, mem_startedIn]

/-- The user approves no mutating call after a later one has run. -/
def ConfirmsInOrder (o : Setup) (uses : List ToolUse) (b : Batch) : Op → Prop
  | .answer choice none => ∀ i tool pending rest, b.phase = .confirming i tool pending rest →
      choice.approves = true → o.isMutating uses i = true → ∀ j ∈ b.mutations o uses, j ≤ i
  | _ => True

theorem mutations_started {log : List Event} (hold : startedIn log = startedIn b.log ++ [i])
    (hsorted : (b.mutations o uses).Pairwise (· < ·))
    (hlast : o.isMutating uses i = true → ∀ j ∈ b.mutations o uses, j < i) :
    ((startedIn log).filter (o.isMutating uses)).Pairwise (· < ·) := by
  rw [hold, List.filter_append]
  cases hi : o.isMutating uses i with
  | false =>
      rw [List.filter_cons_of_neg (by simp [hi]), List.filter_nil, List.append_nil]
      exact hsorted
  | true =>
      rw [List.filter_cons_of_pos hi, List.filter_nil]
      refine List.pairwise_append.mpr ⟨hsorted, List.pairwise_singleton _ _, fun j hj k hk => ?_⟩
      exact List.mem_singleton.mp hk ▸ hlast hi j hj

theorem Moves.startedIn (hm : Moves o i use st st' events) :
    startedIn events = [] ∨ startedIn events = [i] ∧ st.startable = true := by
  cases hm with
  | starts | confirms => exact .inr ⟨rfl, rfl⟩
  | _ => exact .inl rfl

theorem startedIn_append (log events : List Event) : startedIn (log ++ events) = startedIn log ++ startedIn events :=
  List.filterMap_append

theorem startedIn_push (uses : List ToolUse) (b : Batch) (i : Nat) (result : ToolResult)
    (input : ToolUse → Json) (rest : List Nat) :
    startedIn (Setup.push uses b i result input rest).log = startedIn b.log := by
  have hreports : startedIn ((useById uses result.toolUseId).toList.map fun use => .reported i (input use)) =
      [] := by
    cases useById uses result.toolUseId <;> rfl
  unfold Setup.push
  simp only [startedIn_append, hreports, List.append_nil]

theorem started_lt_of_begun (ht : Tracked o uses b) (hstrategy : o.strategy ≠ .parallel)
    (hi : o.isMutating uses i = true) (hlt : i < uses.length) (hunsettled : (b.stages i).isSettled = false)
    (hnot : ∀ x, .started i x ∉ b.log) (hj : j ∈ b.mutations o uses) : j < i := by
  obtain ⟨⟨x, hx⟩, hmut⟩ := mem_mutations.mp hj
  have hne : j ≠ i := by
    rintro rfl
    exact hnot x hx
  have hbegun : b.stages j ≠ .waiting := by
    intro heq
    exact absurd ((ht.history.fresh j (by simp [heq, Stage.fresh]) _ hx).symm.trans
      (Event.inputAt_started j x)) (by simp)
  by_contra hle
  have hprec : o.precedes uses i j = true := by
    unfold precedes
    cases hs : o.strategy with
    | parallel => exact absurd hs hstrategy
    | sequential =>
        simp only [decide_eq_true_eq]
        omega
    | smart =>
        simp only [hi, hmut, Bool.not_true, Bool.false_or, Bool.true_and, decide_eq_true_eq]
        omega
  exact absurd (((ht.begun j hbegun).2 i hlt hprec).symm.trans hunsettled) (by simp)

theorem mutations_steps (hstrategy : o.strategy ≠ .parallel) (ht : Tracked o uses b) (honce : StartsOnce o uses b)
    (h : (b.mutations o uses).Pairwise (· < ·)) (hc : ConfirmsInOrder o uses b op)
    (hs : Steps o uses b op b') : (b'.mutations o uses).Pairwise (· < ·) := by
  cases hs with
  | call hphase huse hbegin hr =>
      rename_i i use reply r
      have hm := resume_moves hr
      rcases hm.startedIn with hnone | ⟨hone, hstart⟩
      · simp only [Batch.mutations, startedIn_append, hnone, List.append_nil]
        exact h
      · refine mutations_started (by rw [startedIn_append, hone]) h fun hi j hj => ?_
        exact started_lt_of_begun ht hstrategy hi (List.getElem?_eq_some_iff.mp huse).1 hm.unsettled
          (honce.startable i · hstart) hj
  | gather hphase hsettled => exact h
  | handles hphase hstage =>
      rw [Batch.mutations, startedIn_push]
      exact h
  | asks hphase hstage =>
      simp only [Batch.mutations, startedIn_append]
      exact (List.append_nil (startedIn b.log)).symm ▸ h
  | declines hphase hchoice | aborts hphase hchoice | reruns hphase =>
      rw [Batch.mutations, startedIn_push, startedIn_append]
      exact (List.append_nil (startedIn b.log)).symm ▸ h
  | approves hphase hchoice =>
      rename_i i rest tool pending choice
      have hremaining : b.remaining o uses = i :: rest := by rw [Batch.remaining, hphase]
      have hlt := ht.remaining_lt (hremaining ▸ List.mem_cons_self)
      have hstage := ht.current (i, tool, pending) (by rw [hphase]; rfl)
      refine mutations_started (i := i) ?_ h fun hi j hj => ?_
      · rw [startedIn_append, startedIn_append, List.append_assoc]
        rfl
      · refine lt_of_le_of_ne (hc i tool pending rest hphase hchoice hi j hj) ?_
        rintro rfl
        obtain ⟨⟨x, hx⟩, -⟩ := mem_mutations.mp hj
        exact honce.pending j x (by simp [hstage, Stage.isPending]) (by simp [Batch.ahead, hphase]) hx
  | appends hphase => exact h

end WrongStack.Tools
