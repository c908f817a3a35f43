import Mathlib.Algebra.Order.BigOperators.Group.Finset
import Mathlib.Data.Finset.Max
import WrongStack.Tools.Lemmas.Order

/-!
# What is reported

The report of a call that the batch has run itself has the input of its tool use, that of a pending call
the input which was confirmed.
-/

namespace WrongStack.Tools

open Lib Permission Setup

variable {o : Setup} {uses : List ToolUse} {b b' : Batch} {op : Op} {i j : Nat} {use : ToolUse} {tool : Tool}
  {x y : Json} {st st' : Stage} {events : List Event} {reply : Reply} {budget : Nat}

/-! ## Reports -/

/-- A call that the batch itself lets run has the input of its tool use. -/
def RunsAsCalled (uses : List ToolUse) (b : Batch) : Op → Prop
  | .call i (.evaluate (.ok (decision, yolo)) none) => ∀ tool input use, b.stages i = .evaluate tool input →
      uses[i]? = some use → effectivePermission tool.toTool decision yolo = .auto → input = use.input
  | .call i (.confirmAwaiter (.ok choice) none) => ∀ tool input use, b.stages i = .confirmAwaiter tool input →
      uses[i]? = some use → choice.approves = true → input = use.input
  | _ => True

theorem execute_started {signal : Option Thrown}
    (h : .started j x ∈ (o.execute i use tool y signal budget).events) : x = y ∧ signal = none := by
  unfold Setup.execute at h
  cases signal with
  | none =>
      simp only [List.mem_singleton, Event.started.injEq] at h
      exact ⟨h.2, rfl⟩
  | some err =>
      obtain ⟨result, heq, -⟩ := runOneCatch_settled o use tool budget err
      simp only [heq] at h
      simp [settle] at h

/-- A call is started by a decision or by the answer of the user. -/
theorem resume_started {r : Resumed} (h : o.resume i use budget st reply = some r) (hx : .started j x ∈ r.events) :
    (∃ tool decision yolo, st = .evaluate tool x ∧ reply = .evaluate (.ok (decision, yolo)) none ∧
      effectivePermission tool.toTool decision yolo = .auto) ∨
    ∃ tool choice, st = .confirmAwaiter tool x ∧ reply = .confirmAwaiter (.ok choice) none ∧
      choice.approves = true := by
  have hstart := ((resume_moves h).started hx).2.1
  cases st with
  | evaluate tool input =>
      cases reply with
      | evaluate outcome signal =>
          obtain rfl := Option.some.inj h
          cases outcome with
          | error err => simp [safeRunCatch, settle] at hx
          | ok p =>
              obtain ⟨decision, yolo⟩ := p
              simp only [Setup.afterEvaluate] at hx
              split at hx
              · simp [settle] at hx
              · split at hx <;> simp at hx
              · rename_i hauto
                obtain ⟨rfl, rfl⟩ := execute_started hx
                exact .inl ⟨tool, decision, yolo, rfl, rfl, hauto⟩
      | _ => simp [Setup.resume] at h
  | confirmAwaiter tool input =>
      cases reply with
      | confirmAwaiter outcome signal =>
          obtain rfl := Option.some.inj h
          cases outcome with
          | error err => simp [safeRunCatch, settle] at hx
          | ok choice =>
              simp only [Setup.afterConfirm] at hx
              split at hx
              · rename_i happroves
                simp only [List.mem_cons, reduceCtorEq, false_or] at hx
                obtain ⟨rfl, rfl⟩ := execute_started hx
                exact .inr ⟨tool, choice, rfl, rfl, happroves⟩
              · simp at hx
      | _ => simp [Setup.resume] at h
  | _ => simp [Stage.startable] at hstart

theorem runsAsCalled_started {r : Resumed} (hc : RunsAsCalled uses b (.call i reply)) (huse : uses[i]? = some use)
    (hr : o.resume i use b.budget (b.stages i) reply = some r) (hx : .started j x ∈ r.events) : x = use.input := by
  rcases resume_started hr hx with ⟨tool, decision, yolo, hst, rfl, hauto⟩ | ⟨tool, choice, hst, rfl, hyes⟩
  · exact hc tool x use hst huse hauto
  · exact hc tool x use hst huse hyes

structure Reports (uses : List ToolUse) (b : Batch) : Prop where
  own : ∀ i x use, .started i x ∈ b.log → uses[i]? = some use → (b.stages i).isPending = false → x = use.input
  reported : ∀ i x, .reported i x ∈ b.log → (b.stages i).isSettled = true ∧ ∃ use, uses[i]? = some use ∧
    ((b.stages i).isPending = false → x = use.input) ∧ ∀ y, (b.stages i).input? = some y → x = y

theorem useById_of_nodup (hids : (uses.map ToolUse.id).Nodup) (h : uses[i]? = some use) :
    useById uses use.id = some use := by
  have hmem := List.mem_of_getElem? h
  unfold useById
  cases hf : uses.reverse.find? (·.id == use.id) with
  | none =>
      have hnone := List.find?_eq_none.mp hf use (List.mem_reverse.mpr hmem)
      simp at hnone
  | some v =>
      have hid : v.id = use.id := by simpa using List.find?_some hf
      have hv : v ∈ uses := List.mem_reverse.mp (List.mem_of_find?_eq_some hf)
      rw [List.inj_on_of_nodup_map hids hv hmem hid]

theorem Reports.append (h : Reports uses b) (noted : List Event) (phase : Phase) (results : List ToolResult)
    (messages : List (List ToolResult)) (hnoted : ∀ j x, .started j x ∉ noted ∧ .reported j x ∉ noted) :
    Reports uses { b with phase, resultsForMessage := results, messages, log := b.log ++ noted } := by
  refine ⟨fun j x use hx => ?_, fun j x hx => ?_⟩
  · exact h.own j x use ((List.mem_append.mp hx).resolve_right (hnoted j x).1)
  · exact h.reported j x ((List.mem_append.mp hx).resolve_right (hnoted j x).2)

theorem Reports.push (h : Reports uses b) (hids : (uses.map ToolUse.id).Nodup) (noted : List Event)
    {input : ToolUse → Json} {rest : List Nat} {result : ToolResult} (huse : uses[i]? = some use)
    (hid : result.toolUseId = use.id) (hsettled : (b.stages i).isSettled = true)
    (hnoted : ∀ j x, .started j x ∉ noted ∧ .reported j x ∉ noted)
    (hown : (b.stages i).isPending = false → input use = use.input)
    (hpending : ∀ y, (b.stages i).input? = some y → input use = y) :
    Reports uses (Setup.push uses { b with log := b.log ++ noted } i result input rest) := by
  have hkeep := h.append noted (.handling rest) (b.resultsForMessage ++ [result]) b.messages hnoted
  unfold Setup.push
  rw [hid, useById_of_nodup hids huse]
  refine ⟨fun j x v hx => ?_, fun j x hx => ?_⟩
  · exact hkeep.own j x v ((List.mem_append.mp hx).resolve_right (by simp))
  · rcases List.mem_append.mp hx with hx | hx
    · exact hkeep.reported j x hx
    · simp only [Option.toList_some, List.map_cons, List.map_nil, List.mem_singleton,
        Event.reported.injEq] at hx
      obtain ⟨rfl, rfl⟩ := hx
      exact ⟨hsettled, use, huse, hown, hpending⟩

theorem Moves.not_reported (hm : Moves o i use st st' events) : .reported j x ∉ events := by
  cases hm <;> simp

theorem Reports.steps (hids : (uses.map ToolUse.id).Nodup) (ht : Tracked o uses b) (h : Reports uses b)
    (hc : RunsAsCalled uses b op) (hs : Steps o uses b op b') : Reports uses b' := by
  have hpushed : ∀ i rest tool pending, b.remaining o uses = i :: rest →
      b.stages i = .settled (.pending tool pending) → ∃ use, uses[i]? = some use ∧
        pending.toolUseId = use.id := by
    intro i rest tool pending hremaining hstage
    have hlt := ht.remaining_lt (hremaining ▸ List.mem_cons_self)
    obtain ⟨use, huse⟩ := get_of_lt hlt
    exact ⟨use, huse, (ht.pending_id hstage hlt).trans (idAt_of_get huse)⟩
  cases hs with
  | call hphase huse hbegin hr =>
      rename_i i use reply r
      have hm := resume_moves hr
      refine ⟨fun j x v hx hv hnot => ?_, fun j x hx => ?_⟩
      · rcases List.mem_append.mp hx with hmem | hmem
        · by_cases hji : j = i
          · subst hji
            refine h.own j x v hmem hv ?_
            by_contra hp
            have hset : (b.stages j).isSettled = true := by
              cases hst : b.stages j <;> simp_all [Stage.isPending, Stage.isSettled]
            exact absurd (hset.symm.trans hm.unsettled) (by simp)
          · simp only [Function.update_of_ne hji] at hnot
            exact h.own j x v hmem hv hnot
        · obtain rfl := (hm.started hmem).1
          obtain rfl := Option.some.inj (huse.symm.trans hv)
          exact runsAsCalled_started hc huse hr hmem
      · have hold := (List.mem_append.mp hx).resolve_right hm.not_reported
        obtain ⟨hset, hrest⟩ := h.reported j x hold
        simp only [settled_update hm hset]
        exact ⟨hset, hrest⟩
  | gather hphase hsettled =>
      have hkeep := h.append [] (.handling (o.order uses)) b.resultsForMessage b.messages (by simp)
      simpa only [List.append_nil] using hkeep
  | handles hphase hstage =>
      rename_i i rest result
      have hremaining : b.remaining o uses = i :: rest := by rw [Batch.remaining, hphase]
      obtain ⟨use, huse⟩ := get_of_lt (ht.remaining_lt (hremaining ▸ List.mem_cons_self))
      have hid := ht.ok i use huse
      rw [hstage] at hid
      have hkeep : Reports uses (Setup.push uses { b with log := b.log ++ [] } i result ToolUse.input rest) :=
        h.push hids [] huse hid (by simp [hstage, Stage.isSettled]) (by simp) (fun _ => rfl)
          (by simp [hstage, Stage.input?])
      simpa only [List.append_nil] using hkeep
  | asks hphase hstage => exact h.append _ _ _ _ (by simp)
  | declines hphase hchoice | aborts hphase hchoice =>
      rename_i i rest tool pending _ _
      have hremaining : b.remaining o uses = i :: rest := by rw [Batch.remaining, hphase]
      have hstage := ht.current (i, tool, pending) (by rw [hphase]; rfl)
      obtain ⟨use, huse, hid⟩ := hpushed i rest tool pending hremaining hstage
      exact h.push hids _ huse hid (by simp [hstage, Stage.isSettled]) (by simp)
        (by simp [hstage, Stage.isPending]) (by simp [hstage, Stage.input?])
  | approves hphase hchoice =>
      rename_i i rest tool pending choice
      have hstage := ht.current (i, tool, pending) (by rw [hphase]; rfl)
      refine ⟨fun j x v hx hv hnot => ?_, fun j x hx => ?_⟩
      · simp only [List.append_assoc, List.mem_append, List.mem_cons, List.not_mem_nil, or_false, reduceCtorEq,
          false_or, Event.started.injEq] at hx
        rcases hx with hx | ⟨rfl, rfl⟩
        · exact h.own j x v hx hv hnot
        · simp only [hstage] at hnot
          simp [Stage.isPending] at hnot
      · simp only [List.append_assoc, List.mem_append, List.mem_cons, List.not_mem_nil, or_false, reduceCtorEq]
          at hx
        exact h.reported j x hx
  | reruns hphase =>
      rename_i i rest tool pending run late filePath
      have hremaining : b.remaining o uses = i :: rest := by rw [Batch.remaining, hphase]
      have hstage := ht.current (i, tool, pending) (by rw [hphase]; rfl)
      obtain ⟨use, huse, hid⟩ := hpushed i rest tool pending hremaining hstage
      exact h.push hids _ huse (rerunResult_id.trans hid) (by simp [hstage, Stage.isSettled]) (by simp)
        (by simp [hstage, Stage.isPending]) (by simp [hstage, Stage.input?])
  | appends hphase =>
      have hkeep := h.append [] .returned b.resultsForMessage (b.messages ++ [b.resultsForMessage]) (by simp)
      simpa only [List.append_nil] using hkeep

theorem Reports.same (h : Reports uses b) (ht : Tracked o uses b) (hx : .started i x ∈ b.log)
    (hy : .reported i y ∈ b.log) : y = x := by
  obtain ⟨hset, use, huse, hown, hinput⟩ := h.reported i y hy
  by_cases hp : (b.stages i).isPending = true
  · cases hst : b.stages i with
    | settled out =>
        cases out with
        | pending tool pending =>
            have hcarried : (b.stages i).input? = some pending.input := by rw [hst]; rfl
            rw [hinput _ hcarried]
            exact (ht.history.carried_one hcarried hx (Event.inputAt_started i x)).symm
        | result result => simp [hst, Stage.isPending] at hp
    | _ => simp [hst, Stage.isPending] at hp
  · rw [hown (by simpa using hp), h.own i x use hx huse (by simpa using hp)]

end WrongStack.Tools

/-!
# A batch ends

Each step brings a batch closer to its message, and until then a step is possible.
-/

namespace WrongStack.Tools

open Lib Permission Setup

variable {o : Setup} {uses : List ToolUse} {b b' : Batch} {op : Op} {i j : Nat} {use : ToolUse}
  {st st' : Stage} {events : List Event}

/-- The awaits before a call has settled, at most. -/
def Stage.left : Stage → Nat
  | waiting => 6
  | preToolUse _ => 5
  | evaluate .. => 4
  | confirmAwaiter .. => 3
  | execute .. => 2
  | postToolUse .. => 1
  | settled _ => 0

def Phase.left (outputs : Nat) : Phase → Nat
  | executing => 3 * outputs + 2
  | handling rest => 3 * rest.length + 1
  | confirming _ _ _ rest => 3 * rest.length + 3
  | rerunning _ _ _ rest => 3 * rest.length + 2
  | returned => 0

/-- The steps before the message is appended, at most. -/
def Batch.left (uses : List ToolUse) (b : Batch) : Nat :=
  Finset.sum (Finset.range uses.length) (fun i => (b.stages i).left) + b.phase.left uses.length

theorem Moves.left (hm : Moves o i use st st' events) : st'.left < st.left := by
  cases hm with
  | @settles st result hst hunsettled hid => cases st <;> simp_all [Stage.left, Stage.isSettled]
  | _ => simp [Stage.left]

theorem Steps.left (hs : Steps o uses b op b') : b'.left uses < b.left uses := by
  cases hs with
  | call hphase huse hbegin hr =>
      rename_i i use reply r
      have hm := (resume_moves hr).left
      refine Nat.add_lt_add_right (Finset.sum_lt_sum (fun j _ => ?_) ⟨i, ?_, ?_⟩) _
      · by_cases hj : j = i
        · subst hj
          simp only [Function.update_self]
          exact hm.le
        · simp only [Function.update_of_ne hj, le_refl]
      · exact Finset.mem_range.mpr (List.getElem?_eq_some_iff.mp huse).1
      · simp only [Function.update_self]
        exact hm
  | gather hphase hsettled =>
      refine Nat.add_lt_add_left ?_ _
      simp only [hphase, Phase.left, (order_perm o uses).length_eq, List.length_range]
      omega
  | handles hphase | asks hphase | declines hphase | aborts hphase | approves hphase | reruns hphase
  | appends hphase =>
      refine Nat.add_lt_add_left ?_ _
      simp only [Setup.push, hphase, Phase.left, List.length_cons, List.length_nil]
      omega

/-- Something is awaited by a call that has begun and not settled. -/
theorem exists_reply (o : Setup) (i : Nat) (use : ToolUse) (budget : Nat) (hst : st.isSettled = false) :
    ∃ reply r, o.resume i use budget st reply = some r := by
  cases st with
  | waiting => exact ⟨.begin, _, rfl⟩
  | preToolUse tool => exact ⟨.preToolUse (.ok {}), _, rfl⟩
  | evaluate tool input => exact ⟨.evaluate (.error (.bare [])) none, _, rfl⟩
  | confirmAwaiter tool input => exact ⟨.confirmAwaiter (.ok .no) none, _, rfl⟩
  | execute tool input hint => exact ⟨.execute (.execute (.ok [])) none none, _, rfl⟩
  | postToolUse tool result => exact ⟨.postToolUse (.ok none), _, rfl⟩
  | settled out => simp [Stage.isSettled] at hst

/-- Where a call stands in the order in which calls begin. -/
def Setup.rank (o : Setup) (uses : List ToolUse) (i : Nat) : Nat :=
  if o.strategy = .smart ∧ o.isMutating uses i = true then uses.length + i else i

theorem rank_lt (h : o.precedes uses j i = true) (hj : j < uses.length) : o.rank uses j < o.rank uses i := by
  unfold precedes at h
  unfold Setup.rank
  cases hs : o.strategy with
  | parallel => simp [hs] at h
  | sequential => simpa [hs] using h
  | smart =>
      simp only [hs, Bool.and_eq_true, Bool.or_eq_true, Bool.not_eq_true', decide_eq_true_eq] at h
      obtain ⟨hi, hj' | hlt⟩ := h
      · simp only [hi, hj', Bool.false_eq_true, and_false, if_false, true_and, if_true]
        omega
      · simp only [hi, true_and, if_true]
        split <;> omega

/-- The call that comes first among those that have not settled can go on. -/
theorem exists_call (hphase : b.phase = .executing) (hi : i < uses.length)
    (hunsettled : (b.stages i).isSettled = false) : ∃ op b', o.step? uses b op = some b' := by
  have hne : ((Finset.range uses.length).filter fun i => (b.stages i).isSettled = false).Nonempty :=
    ⟨i, Finset.mem_filter.mpr ⟨Finset.mem_range.mpr hi, hunsettled⟩⟩
  obtain ⟨k, hk, hmin⟩ := Finset.exists_min_image _ (o.rank uses) hne
  obtain ⟨hlt, hkun⟩ := Finset.mem_filter.mp hk
  have hlt := Finset.mem_range.mp hlt
  obtain ⟨use, huse⟩ := get_of_lt hlt
  obtain ⟨reply, r, hr⟩ := exists_reply o k use b.budget hkun
  have hcan : o.canBegin uses b k = true := by
    refine canBegin_iff.mpr fun j hj hprec => ?_
    by_contra hset
    have hle := hmin j (Finset.mem_filter.mpr ⟨Finset.mem_range.mpr hj, by simpa using hset⟩)
    exact absurd (rank_lt hprec hj) (by omega)
  have hcall : ∃ b', o.call b k use reply = some b' := by
    unfold Setup.call
    rw [hr]
    exact ⟨_, rfl⟩
  obtain ⟨b', hb'⟩ := hcall
  refine ⟨.call k reply, b', ?_⟩
  unfold step?
  simp only [hphase, huse, hcan, hb', if_true]
  split <;> rfl

theorem Tracked.goes_on_to (h : Tracked o uses b) (hphase : b.phase ≠ .returned) :
    ∃ op b', o.step? uses b op = some b' := by
  cases hp : b.phase with
  | executing =>
      by_cases hall : ∀ i < uses.length, (b.stages i).isSettled = true
      · refine ⟨.gather, { b with phase := .handling (o.order uses) }, ?_⟩
        unfold step?
        simp only [hp]
        rw [if_pos]
        exact List.all_eq_true.mpr fun i hi => hall i (List.mem_range.mp hi)
      · push Not at hall
        obtain ⟨i, hi, hunsettled⟩ := hall
        exact exists_call hp hi (by simpa using hunsettled)
  | handling rest =>
      cases rest with
      | nil => exact ⟨.append, _, by simp only [step?, hp]; rfl⟩
      | cons i rest =>
          have hremaining : b.remaining o uses = i :: rest := by rw [Batch.remaining, hp]
          have hset := h.settled (by simp [hp]) i (h.remaining_lt (hremaining ▸ List.mem_cons_self))
          cases hst : b.stages i with
          | settled out =>
              cases out with
              | result result => exact ⟨.handle, _, by simp only [step?, hp, Setup.handle, hst]; rfl⟩
              | pending tool pending => exact ⟨.handle, _, by simp only [step?, hp, Setup.handle, hst]; rfl⟩
          | _ => simp [hst, Stage.isSettled] at hset
  | confirming i tool pending rest =>
      refine ⟨.answer .deny none, Setup.answer uses b i tool pending rest .deny none, ?_⟩
      simp [step?, hp]
  | rerunning i tool pending rest =>
      exact ⟨.rerun (.execute (.ok [])) none none, _, by simp only [step?, hp]; rfl⟩
  | returned => exact absurd hp hphase

end WrongStack.Tools
