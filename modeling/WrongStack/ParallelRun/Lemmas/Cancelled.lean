import WrongStack.ParallelRun.Lemmas.Progress

/-!
# Cancelled tasks

A cancelled task is failed, its call is not past the worker, and a task in progress has a call that will
still write its status. `Quiet` says so, and lasts as long as the controls do not interfere with a call
that is past its worker.
-/

namespace WrongStack.ParallelRun

open Lib Sdd

namespace State

open Board

variable {s s' : State} {t x : TaskId} {a : Await} {op : Op} {e : Nat}

structure Quiet (s : State) : Prop where
  fresh : Fresh s.board
  failed : ∀ t ∈ s.board.cancelledTasks, s.board.statusOf t = some .failed
  calm : ∀ t ∈ s.board.cancelledTasks, ∀ a, s.running.get? t = some a → a.late = false
  inFlight : ∀ t, s.board.statusOf t = some .inProgress → ∃ a, s.running.get? t = some a ∧ a.owing = true

/-- No task is cancelled while its work is verified, merged or supervised; a cancelled task is neither
split, nor deleted while a call has its status to write, nor requeued by the deadlock recovery. What the
method refuses does no harm. -/
def CancelsCleanly (s : State) : Op → Prop
  | .cancelTask t => s.board.graph.nodes.has t = true →
      ∀ a, s.running.get? t = some a → a.late = false
  | .deleteTask t => t ∈ s.board.cancelledTasks → ∀ a, s.running.get? t = some a →
      a.owing = false ∨ s.board.isRunning s.taskSubagents t = true
  | .splitTask t _ subtasks => t ∈ s.board.cancelledTasks →
      s.board.isRunning s.taskSubagents t = true ∨ subtasks = []
  | .turn _ => s.running.size = 0 → s.ready = [] → s.board.isSettled = false →
      s.recoveryRounds < s.config.maxRecoveryRounds →
      ∀ t ∈ s.board.cancelledTasks, t ∉ s.board.recoveredTasks
  | _ => True

/-! ## The loop -/

/-- A change of statuses that lets the cancelled tasks be and starts none. -/
theorem Quiet.requeued {P : TaskId → Prop} (h : Quiet s) (hreq : Requeued P s.board s'.board)
    (hP : ∀ t ∈ s.board.cancelledTasks, ¬ P t) (hr : s'.running = s.running) : Quiet s' := by
  refine ⟨hreq.spares.fresh h.fresh, fun t ht => ?_, fun t ht => ?_, fun t ht => ?_⟩
  · rw [hreq.cancelledTasks] at ht
    rw [(hreq.status t).resolve_right fun hp => hP t ht hp.1]
    exact h.failed t ht
  · rw [hreq.cancelledTasks] at ht
    rw [hr]
    exact h.calm t ht
  · rw [hr]
    refine h.inFlight t ?_
    rcases hreq.status t with heq | ⟨-, hp⟩
    · rwa [← heq]
    · simp [hp] at ht

theorem Quiet.congr (h : Quiet s) (ht : s'.board.tracker = s.board.tracker)
    (hc : s'.board.cancelledTasks = s.board.cancelledTasks) (hr : s'.running = s.running) : Quiet s' :=
  h.requeued (P := fun _ => False) (.of_tracker ht hc) (fun _ _ => not_false) hr

theorem Quiet.head (h : Quiet s) (e : Nat) : Quiet (s.head e) := by
  obtain ⟨-, hb, hr, -⟩ := head_fields s e
  exact h.congr (by rw [hb]) (by rw [hb]) hr

theorem Quiet.dispatch (h : Quiet s) (hready : t ∈ s.ready) : Quiet (s.dispatch t) := by
  obtain ⟨hpend, -, -⟩ := mem_ready.mp hready
  have hw := wrote_dispatch hpend
  have hne : ∀ x ∈ s.board.cancelledTasks, x ≠ t := by
    rintro x hx rfl
    exact absurd ((h.failed x hx).symm.trans hpend) (by simp)
  have hget : ∀ x, (s.dispatch t).running.get? x =
      if t = x then some .allocateWorktrees else s.running.get? x := fun x => JsMap.get?_set ..
  refine ⟨hw.spares.fresh h.fresh, fun x hx => ?_, fun x hx a ha => ?_, fun x hx => ?_⟩
  · rw [hw.cancelledTasks] at hx
    exact (hw.others (by simp) x (hne x hx)).trans (h.failed x hx)
  · rw [hw.cancelledTasks] at hx
    rw [hget, if_neg (Ne.symm (hne x hx))] at ha
    exact h.calm x hx a ha
  · by_cases hxt : x = t
    · exact ⟨_, by rw [hget, if_pos hxt.symm], rfl⟩
    · rw [hget, if_neg (Ne.symm hxt)]
      exact h.inFlight x ((hw.others (by simp) x hxt).symm.trans hx)

theorem Quiet.fill (h : Quiet s) : Quiet s.fill :=
  fill_induction h (fun _ _ h hready _ => h.dispatch hready) fun _ h _ => h.congr rfl rfl rfl

/-- With nothing in flight after `fill`, there was nothing to dispatch. -/
theorem fill_idle (h : s.fill.running.size = 0) :
    s.fill = s ∧ s.running.size = 0 ∧ s.ready = [] := by
  have hf := filled_fill s
  have hsize := hf.size
  have heq : s.fill = s := hf.grows.resolve_right fun hg => by omega
  rw [heq] at h
  refine ⟨heq, h, ?_⟩
  by_contra hne
  have hmore : s.moreReadyNow = true := by
    simp only [moreReadyNow, h, s.config.slots_pos, decide_true, Bool.true_and, Bool.not_eq_eq_eq_not,
      Bool.not_true, List.isEmpty_eq_false_iff]
    exact hne
  have := fill_grows hmore
  rw [heq] at this
  omega

theorem Quiet.turn (h : Quiet s) (hc : CancelsCleanly s (.turn e)) : Quiet (s.turn e) := by
  have hf := h.fill
  rcases turn_cases s e with ⟨-, heq⟩ | ⟨-, ⟨hz, heq⟩ | ⟨-, ⟨-, heq⟩ | heq⟩⟩
  · rw [heq]
    exact h.congr rfl rfl rfl
  · obtain ⟨hsame, hz, hready⟩ := fill_idle hz
    rw [heq, hsame]
    rcases quiesce_cases s e with ⟨d, hq⟩ | ⟨s₁, hsw, hq⟩
    · rw [hq]
      exact h.congr rfl rfl rfl
    · rw [hq]
      refine Quiet.head ?_ e
      rcases hsw.requeued with ⟨-, -, -, hb⟩ | ⟨hlt, -, -, hset, hb⟩
      · have hreq := requeued_requeueFailedTasks (b := s.board) "retry failed sweep"
        rw [← hb] at hreq
        exact h.requeued hreq (fun t ht hnot => hnot ht) hsw.running
      · have hreq := requeued_recoverFailedBlockers (b := s.board)
        rw [← hb] at hreq
        exact h.requeued hreq (hc hz hready hset hlt) hsw.running
  · rw [heq]
    exact hf.head e
  · rw [heq]
    exact hf.congr rfl rfl rfl

/-! ## The calls -/

/-- The call of a cancelled task leaves it failed, commits nothing and does not get past its worker. -/
theorem Quiet.resumeOne_cancelled (h : Quiet s) (ht : t ∈ s.board.cancelledTasks)
    (hget : s.running.get? t = some a) (hone : s.resumeOne t a op = some s') :
    s'.board.statusOf t = some .failed ∧ ∀ a', s'.running.get? t = some a' → a'.late = false := by
  have hst := h.failed t ht
  have hlate := h.calm t ht a hget
  have hone' : ∀ (n : Next) (s₁ : State), s₁.board = s.board → s₁.running = s.running →
      (∀ a', n = .await a' → a'.late = false) →
      (s₁.goOn t n).board.statusOf t = some .failed ∧
        ∀ a', (s₁.goOn t n).running.get? t = some a' → a'.late = false := by
    intro n s₁ hb hr hn
    rcases goOn_cases s₁ t n with ⟨a', rfl, heq⟩ | ⟨rfl, heq⟩ | ⟨e, rfl, ⟨board, hw, heq⟩ | ⟨hnone, heq⟩⟩
    · rw [heq]
      refine ⟨hb ▸ hst, fun a'' ha => ?_⟩
      simp only [JsMap.get?_set_self, Option.some.injEq] at ha
      exact hn a'' (ha ▸ rfl)
    · rw [heq]
      exact ⟨hb ▸ hst, fun a'' ha => by simp [JsMap.get?_delete] at ha⟩
    · rw [heq]
      exact ⟨hw.own.resolve_right (by simp), fun a'' ha => by simp [JsMap.get?_delete] at ha⟩
    · rw [heq]
      exact ⟨hb ▸ hst, fun a'' ha => by simp [JsMap.get?_delete] at ha⟩
  have hworker : ∀ result, (s.afterWorker t result).board.statusOf t = some .failed ∧
      ∀ a', (s.afterWorker t result).running.get? t = some a' → a'.late = false := by
    intro result
    simp only [afterWorker, List.contains_iff_mem.mpr ht, if_true, resolveWorktrees]
    refine hone' _ _ rfl rfl fun a' ha' => ?_
    split at ha'
    · obtain rfl := Next.await.inj ha'
      have hst' : s.board.graph.statusOf t = some .failed := hst
      simp only [resolveStage, hst', Option.some.injEq, reduceCtorEq, if_false, ite_self]
      rfl
    · simp at ha'
  cases a with
  | allocateWorktrees =>
      cases op <;> simp only [resumeOne, reduceCtorEq] at hone
      simp only [Option.ite_none_left_eq_some] at hone
      obtain rfl := Option.some.inj hone.2
      simp only [allocated]
      split
      · exact hone' _ _ rfl rfl (by simp)
      · refine hone' _ _ rfl rfl fun a' ha' => ?_
        obtain rfl := Next.await.inj ha'
        rfl
  | awaitTasks id cached since =>
      cases op <;> simp only [resumeOne, reduceCtorEq] at hone
      · obtain ⟨result, -, rfl⟩ := Option.map_eq_some_iff.mp hone
        exact hworker result
      · simp only [Option.ite_none_left_eq_some] at hone
        obtain rfl := Option.some.inj hone.2
        exact hworker _
  | resolveWorktrees stage =>
      cases stage <;> simp only [Await.late, reduceCtorEq] at hlate
      cases op <;> simp only [resumeOne, reduceCtorEq] at hone
      obtain rfl := Option.some.inj hone
      exact hone' .done (s.forgetWorktree t) rfl rfl (by simp)
  | verifyTask => simp [Await.late] at hlate
  | integrateWorktree stage => simp [Await.late] at hlate
  | superviseFailure errMsg attempts resolve => simp [Await.late] at hlate

theorem Quiet.resumeOne (h : Quiet s) (hget : s.running.get? t = some a)
    (hone : s.resumeOne t a op = some s') (hr : Resumed t a s s')
    (hoff : ∀ x, x ≠ t → s'.running.get? x = s.running.get? x) : Quiet s' := by
  refine ⟨hr.spares.fresh h.fresh, fun x hx => ?_, fun x hx a' ha' => ?_, fun x hx => ?_⟩
  · rw [hr.cancelledTasks] at hx
    by_cases hxt : x = t
    · subst hxt
      exact (h.resumeOne_cancelled hx hget hone).1
    · exact hr.spares.keeps h.fresh hxt (h.failed x hx) (by simp)
  · rw [hr.cancelledTasks] at hx
    by_cases hxt : x = t
    · subst hxt
      exact (h.resumeOne_cancelled hx hget hone).2 a' ha'
    · exact h.calm x hx a' (hoff x hxt ▸ ha')
  · by_cases hxt : x = t
    · subst hxt
      -- a call that no longer owes a status has not left it in progress
      have hrest : ¬ Rests x a s s' := by
        rintro (hne | ⟨hsame, hc | howe⟩)
        · exact hne hx
        · exact absurd ((h.failed x hc).symm.trans (hsame.symm.trans hx)) (by simp)
        · obtain ⟨a', ha', howe'⟩ := h.inFlight x (hsame.symm.trans hx)
          obtain rfl := Option.some.inj (hget.symm.trans ha')
          simp [howe] at howe'
      rcases hr.ends with ⟨a', hrun, -, -, hst⟩ | ⟨ok, -, -, hdone, -⟩
      · refine ⟨a', by rw [hrun, JsMap.get?_set_self], ?_⟩
        by_contra howe
        rw [if_neg howe] at hst
        exact hrest hst
      · exact absurd hdone hrest
    · rw [hoff x hxt]
      exact h.inFlight x (hr.spares.came hxt hx (by simp))

/-! ## The controls -/

theorem Quiet.fewer (h : Quiet s) (ht : s'.board.tracker = s.board.tracker)
    (hc : s'.board.cancelledTasks ⊆ s.board.cancelledTasks) (hr : s'.running = s.running) : Quiet s' := by
  have hst : ∀ x, s'.board.statusOf x = s.board.statusOf x := fun x => by
    rw [statusOf, statusOf, graph, graph, ht]
  refine ⟨fun x hx => ?_, fun t htc => ?_, fun t htc a ha => ?_, fun t htp => ?_⟩
  · rw [graph, ht] at hx
    rw [ht]
    exact h.fresh x hx
  · rw [hst]
    exact h.failed t (hc htc)
  · exact h.calm t (hc htc) a (hr ▸ ha)
  · rw [hr]
    exact h.inFlight t ((hst t).symm.trans htp)

theorem Quiet.cancelTask (h : Quiet s) (hc : CancelsCleanly s (.cancelTask t)) :
    Quiet (s.cancelTask t) := by
  have hrun := (controlled_cancelTask s t).running
  have hboard := board_cancelTask s t
  rcases cancelTask_spec (b := s.board) (t := t) with ⟨-, heq⟩ | ⟨hhas, -, b₁, htr, hmem, hw⟩
  · exact h.congr (by rw [hboard, heq]) (by rw [hboard, heq]) hrun
  rw [← hboard] at hw
  have hst : ∀ x, b₁.statusOf x = s.board.statusOf x := fun x => by
    rw [statusOf, statusOf, graph, graph, htr]
  have hfresh : Fresh b₁ := fun x hx => by
    rw [graph, htr] at hx
    rw [htr]
    exact h.fresh x hx
  have hother : ∀ x, x ≠ t → (s.cancelTask t).board.statusOf x = s.board.statusOf x :=
    fun x hx => (hw.others (by simp) x hx).trans (hst x)
  have hown : (s.cancelTask t).board.statusOf t = some .failed := hw.own.resolve_right (by simp)
  refine ⟨hw.spares.fresh hfresh, fun x hx => ?_, fun x hx a ha => ?_, fun x hx => ?_⟩
  · rw [hw.cancelledTasks, hmem] at hx
    by_cases hxt : x = t
    · rw [hxt, hown]
    · rw [hother x hxt]
      exact h.failed x (hx.resolve_left hxt)
  · rw [hw.cancelledTasks, hmem] at hx
    rw [hrun] at ha
    rcases hx with rfl | hx
    · exact hc hhas a ha
    · exact h.calm x hx a ha
  · rw [hrun]
    by_cases hxt : x = t
    · subst hxt
      exact absurd (hown.symm.trans hx) (by simp)
    · exact h.inFlight x ((hother x hxt).symm.trans hx)

theorem Quiet.retryTask (h : Quiet s) (t : TaskId) :
    Quiet { s with board := (s.board.retryTask t).1 } := by
  obtain ⟨b₁, htr, hmem, hreq⟩ := retryTask_spec (b := s.board) (t := t)
  have h₁ : Quiet { s with board := b₁ } := h.fewer htr (fun x hx => ((hmem x).mp hx).1) rfl
  refine h₁.requeued hreq (fun x hx => ?_) rfl
  rintro rfl
  obtain ⟨hc, hne | hmissing⟩ := (hmem x).mp hx
  · exact hne rfl
  · exact absurd ((statusOf_eq_none.mpr hmissing).symm.trans (h.failed x hc)) (by simp)

theorem Quiet.retryAllFailed (h : Quiet s) : Quiet { s with board := s.board.retryAllFailed.1 } := by
  obtain ⟨b₁, htr, hsub, hreq⟩ := retryAllFailed_spec (b := s.board)
  have h₁ : Quiet { s with board := b₁ } := h.fewer htr hsub rfl
  exact h₁.requeued hreq (fun x hx hnot => hnot hx) rfl

/-- A board on which only the status of `t` is another, with `t` not marked as cancelled. -/
theorem Quiet.of_spares (h : Quiet s) {board : Board} (hsp : Spares (· = t) s.board board)
    (hmem : ∀ x ∈ board.cancelledTasks, x ∈ s.board.cancelledTasks ∧ x ≠ t)
    (hown : board.statusOf t ≠ some .inProgress) : Quiet { s with board } := by
  refine ⟨hsp.fresh h.fresh, fun x hx => ?_, fun x hx => h.calm x (hmem x hx).1, fun x hx => ?_⟩
  · obtain ⟨hc, hne⟩ := hmem x hx
    exact hsp.keeps h.fresh hne (h.failed x hc) (by simp)
  · have hxt : x ≠ t := by
      rintro rfl
      exact hown hx
    exact h.inFlight x (hsp.came hxt hx (by simp))

theorem Quiet.deleteTask (h : Quiet s) (t : TaskId) :
    Quiet { s with board := (s.board.deleteTask s.taskSubagents t).1 } := by
  rcases deleteTask_spec (b := s.board) (t := t) s.taskSubagents with heq | ⟨-, -, hsp, hnone, hmem⟩
  · rw [heq]
    exact h
  · exact h.of_spares hsp (fun x hx => (hmem x).mp hx) (by rw [hnone]; simp)

theorem Quiet.splitTask (h : Quiet s) {now : Nat} {subtasks : List SddSubtaskSpec}
    (hc : CancelsCleanly s (.splitTask t now subtasks)) :
    Quiet { s with board := (s.board.splitTask s.taskSubagents t now subtasks).1 } := by
  by_cases hmark : t ∈ s.board.cancelledTasks
  · -- the split of a cancelled task is refused
    have heq : s.board.splitTask s.taskSubagents t now subtasks = (s.board, []) := by
      unfold Board.splitTask
      rw [if_pos]
      rcases hc hmark with hrun | hempty
      · simp [hrun]
      · simp [hempty]
    rw [heq]
    exact h
  · rcases splitTask_spec (b := s.board) (t := t) s.taskSubagents now subtasks with heq | ⟨-, hsp, hst, hcc⟩
    · rw [heq]
      exact h
    · refine h.of_spares hsp (fun x hx => ?_) (by rw [hst]; simp)
      rw [hcc] at hx
      exact ⟨hx, fun heq => hmark (heq ▸ hx)⟩

/-! ## Steps -/

theorem Quiet.step? (h : Quiet s) (hc : CancelsCleanly s op) (hs : s.step? op = some s') : Quiet s' := by
  cases op with
  | start e =>
      simp only [State.step?, Option.ite_none_right_eq_some] at hs
      obtain rfl := Option.some.inj hs.2
      have h' : Quiet { s with board := s.board.restoreRetryMap, stopRequested := false } :=
        h.congr rfl rfl rfl
      exact h'.head e
  | turn e =>
      simp only [State.step?, Option.ite_none_right_eq_some] at hs
      obtain rfl := Option.some.inj hs.2
      exact h.turn hc
  | wake e =>
      simp only [State.step?] at hs
      split at hs
      · obtain rfl := Option.some.inj hs
        exact h.head e
      · simp only [Option.ite_none_right_eq_some] at hs
        obtain rfl := Option.some.inj hs.2
        exact h.congr rfl rfl rfl
  | drained =>
      simp only [State.step?] at hs
      split at hs
      · simp only [Option.ite_none_right_eq_some] at hs
        obtain rfl := Option.some.inj hs.2
        unfold finish
        split
        · refine h.requeued (requeued_resetInProgress (b := s.board) "run stopped") (fun t ht hp => ?_) rfl
          exact absurd ((h.failed t ht).symm.trans hp) (by simp)
        · exact h.congr rfl rfl rfl
      · simp at hs
  | settle _ _ | stop | pause | resume =>
      obtain rfl := Option.some.inj hs
      exact h.congr rfl rfl rfl
  | cancelTask t =>
      obtain rfl := Option.some.inj hs
      exact h.cancelTask hc
  | retryTask t =>
      obtain rfl := Option.some.inj hs
      exact h.retryTask t
  | retryAllFailed =>
      obtain rfl := Option.some.inj hs
      exact h.retryAllFailed
  | deleteTask t =>
      obtain rfl := Option.some.inj hs
      exact h.deleteTask t
  | splitTask t now subtasks =>
      obtain rfl := Option.some.inj hs
      exact h.splitTask hc
  | allocated t _ _ | awaitTasks t | awaitTimeout t | verified t _ | git t _ | supervised t _ _ =>
      obtain ⟨a, hget, hone⟩ := Option.bind_eq_some_iff.mp hs
      have hr := resumeOne_resumed hone
      exact h.resumeOne hget hone hr fun x hx => running_off hr hx

theorem Quiet.step (h : Quiet s) (hc : CancelsCleanly s op) : Quiet (step s op) := by
  rcases step_eq s op with heq | hs
  · rw [heq]
    exact h
  · exact h.step? hc hs

/-! ## After a cancellation -/

/-- `fill` and what follows it add and remove no node. -/
structure Shaped (s s' : State) : Prop where
  shape : SameShape s.board.graph s'.board.graph
  nextId : s'.board.tracker.nextId = s.board.tracker.nextId
  cancelledTasks : s'.board.cancelledTasks = s.board.cancelledTasks
  base : s'.base = s.base
  running : ∀ x, s.board.statusOf x = none → s'.running.get? x = s.running.get? x

theorem shaped_fill (s : State) : Shaped s s.fill := by
  refine fill_induction (I := Shaped s) ⟨.refl _, rfl, rfl, rfl, fun _ _ => rfl⟩ ?_
    fun _ h _ => ⟨h.shape, h.nextId, h.cancelledTasks, h.base, h.running⟩
  intro s' t h hready _
  have hpend := (mem_ready.mp hready).1
  have hw := wrote_dispatch hpend
  refine ⟨h.shape.trans hw.shape, hw.nextId.trans h.nextId, hw.cancelledTasks.trans h.cancelledTasks, h.base,
    fun x hx => ?_⟩
  have hne : t ≠ x := by
    rintro rfl
    rw [statusOf_eq_none, ← h.shape.has t, ← statusOf_eq_none] at hx
    exact absurd (hx.symm.trans hpend) (by simp)
  exact (JsMap.get?_set ..).trans ((if_neg hne).trans (h.running x hx))

theorem shaped_turn (s : State) (e : Nat) : Shaped s (s.turn e) := by
  have hfill := shaped_fill s
  have hhead : ∀ x : State, Shaped s x → Shaped s (x.head e) := fun x h => by
    rcases head_cases x e with heq | ⟨heq, -⟩ <;>
      · rw [heq]
        exact ⟨h.shape, h.nextId, h.cancelledTasks, h.base, h.running⟩
  have hreq : ∀ (x : State) (P : TaskId → Prop), Requeued P s.fill.board x.board → x.base = s.fill.base →
      x.running = s.fill.running → Shaped s x := fun x P h hb hr =>
    ⟨hfill.shape.trans h.shape, h.nextId.trans hfill.nextId, h.cancelledTasks.trans hfill.cancelledTasks,
      hb.trans hfill.base, fun y hy => by rw [hr, hfill.running y hy]⟩
  rcases turn_cases s e with ⟨-, heq⟩ | ⟨-, ⟨-, heq⟩ | ⟨-, ⟨-, heq⟩ | heq⟩⟩
  · rw [heq]
    exact ⟨.refl _, rfl, rfl, rfl, fun _ _ => rfl⟩
  · rw [heq]
    rcases quiesce_cases s.fill e with ⟨d, hq⟩ | ⟨s₁, hsw, hq⟩
    · rw [hq]
      exact ⟨hfill.shape, hfill.nextId, hfill.cancelledTasks, hfill.base, hfill.running⟩
    · rw [hq]
      refine hhead s₁ ?_
      rcases hsw.requeued with ⟨-, -, -, hb⟩ | ⟨-, -, -, -, hb⟩
      · have hsweep := requeued_requeueFailedTasks (b := s.fill.board) "retry failed sweep"
        exact hreq s₁ _ (hb ▸ hsweep) hsw.base hsw.running
      · have hrec := requeued_recoverFailedBlockers (b := s.fill.board)
        exact hreq s₁ _ (hb ▸ hrec) hsw.base hsw.running
  · rw [heq]
    exact hhead _ hfill
  · rw [heq]
    exact ⟨hfill.shape, hfill.nextId, hfill.cancelledTasks, hfill.base, hfill.running⟩

variable {deleted : Prop}

/-- The task is cancelled, or deleted since; then a call of it has only its worktree to release. -/
def Marked (t : TaskId) (deleted : Prop) (s : State) : Prop :=
  t ∈ s.board.cancelledTasks ∨ deleted ∧ s.board.statusOf t = none ∧ t < s.board.tracker.nextId ∧
    ∀ a, s.running.get? t = some a → a = .resolveWorktrees .release

theorem Marked.keep {P : TaskId → Prop} (h : Marked t deleted s)
    (hc : t ∈ s.board.cancelledTasks → t ∈ s'.board.cancelledTasks)
    (hsp : Spares P s.board s'.board) (hP : s.board.statusOf t = none → ¬ P t)
    (hrun : s.board.statusOf t = none → s'.running.get? t = s.running.get? t) : Marked t deleted s' := by
  rcases h with h | ⟨hdel, hnone, hlt, ha⟩
  · exact .inl (hc h)
  · refine .inr ⟨hdel, ?_, hlt.trans_le hsp.nextId, by rw [hrun hnone]; exact ha⟩
    rcases hsp.status t (hP hnone) with heq | ⟨-, hb | hle⟩
    · rw [heq, hnone]
    · simp [hnone] at hb
    · exact absurd hlt (Nat.not_lt.mpr hle)

theorem Marked.keep_shape (h : Marked t deleted s)
    (hc : t ∈ s.board.cancelledTasks → t ∈ s'.board.cancelledTasks)
    (hsh : SameShape s.board.graph s'.board.graph)
    (hn : s'.board.tracker.nextId = s.board.tracker.nextId)
    (hrun : s.board.statusOf t = none → s'.running.get? t = s.running.get? t) : Marked t deleted s' :=
  h.keep hc (.of_shape hsh hn) (fun h hne => hne h) hrun

/-- The marker of `t` is cleared. -/
def Revives (t : TaskId) : Op → Prop
  | .retryTask t' => t' = t
  | .retryAllFailed => True
  | _ => False

theorem late_or {a : Await} (hl : a.late = false) (ho : a.owing = false) :
    a = .resolveWorktrees .release := by
  cases a with
  | resolveWorktrees stage => cases stage <;> simp_all [Await.late]
  | _ => simp [Await.owing] at ho

theorem resumeOne_release (h : s.resumeOne t (.resolveWorktrees .release) op = some s') :
    s' = (s.forgetWorktree t).goOn t .done := by
  cases op <;> simp only [resumeOne, reduceCtorEq] at h
  exact (Option.some.inj h).symm

theorem Marked.step? (h : Marked t deleted s) (hq : Quiet s) (hc : CancelsCleanly s op)
    (hop : ¬ Revives t op) (hdel : op = .deleteTask t → deleted) (hs : s.step? op = some s') :
    Marked t deleted s' := by
  have hgraph : ∀ {b : Board}, b.tracker = s.board.tracker → b.graph = s.board.graph :=
    fun h => by rw [graph, h]
  cases op with
  | start e =>
      simp only [State.step?, Option.ite_none_right_eq_some] at hs
      obtain rfl := Option.some.inj hs.2
      obtain ⟨-, hb, hr, -⟩ := head_fields
        { s with board := s.board.restoreRetryMap, stopRequested := false } e
      have hb' : (s.start e).board = s.board.restoreRetryMap := hb
      have hr' : (s.start e).running = s.running := hr
      refine h.keep_shape (fun hm => ?_) ?_ ?_ fun _ => by rw [hr']
      · rw [hb']
        exact hm
      · rw [hb']
        exact .refl _
      · rw [hb']
        rfl
  | turn e =>
      simp only [State.step?, Option.ite_none_right_eq_some] at hs
      obtain rfl := Option.some.inj hs.2
      have ht := shaped_turn s e
      exact h.keep_shape (fun hm => ht.cancelledTasks ▸ hm) ht.shape ht.nextId (ht.running t)
  | wake e =>
      simp only [State.step?] at hs
      split at hs
      · obtain rfl := Option.some.inj hs
        obtain ⟨-, hb, hr, -⟩ := head_fields s e
        exact h.keep_shape (fun hm => hb ▸ hm) (hb ▸ .refl _) (by rw [hb]) fun _ => by rw [hr]
      · simp only [Option.ite_none_right_eq_some] at hs
        obtain rfl := Option.some.inj hs.2
        exact h
  | drained =>
      simp only [State.step?] at hs
      split at hs
      · simp only [Option.ite_none_right_eq_some] at hs
        obtain rfl := Option.some.inj hs.2
        unfold finish
        split
        · have hreq := requeued_resetInProgress (b := s.board) "run stopped"
          exact h.keep_shape (fun hm => hreq.cancelledTasks ▸ hm) hreq.shape hreq.nextId fun _ => rfl
        · exact h
      · simp at hs
  | settle _ _ | stop | pause | resume =>
      obtain rfl := Option.some.inj hs
      exact h
  | cancelTask x =>
      obtain rfl := Option.some.inj hs
      have hrun := (controlled_cancelTask s x).running
      have hboard := board_cancelTask s x
      rcases cancelTask_spec (b := s.board) (t := x) with ⟨-, heq⟩ | ⟨hhas, -, b₁, htr, hmem, hw⟩
      · rw [heq] at hboard
        exact h.keep_shape (fun hm => hboard ▸ hm) (by rw [hboard]; exact .refl _) (by rw [hboard])
          fun _ => by rw [hrun]
      · rw [← hboard] at hw
        refine h.keep_shape (fun hm => ?_) (hgraph htr ▸ hw.shape) (hw.nextId.trans (by rw [htr]))
          fun _ => by rw [hrun]
        rw [hw.cancelledTasks]
        exact (hmem t).mpr (.inr hm)
  | retryTask x =>
      obtain rfl := Option.some.inj hs
      obtain ⟨b₁, htr, hmem, hreq⟩ := retryTask_spec (b := s.board) (t := x)
      refine h.keep_shape (fun hm => ?_) (hgraph htr ▸ hreq.shape) (hreq.nextId.trans (by rw [htr]))
        fun _ => rfl
      change t ∈ (s.board.retryTask x).1.cancelledTasks
      rw [hreq.cancelledTasks]
      exact (hmem t).mpr ⟨hm, .inl fun heq => hop heq.symm⟩
  | retryAllFailed => exact absurd trivial hop
  | deleteTask x =>
      obtain rfl := Option.some.inj hs
      rcases deleteTask_spec (b := s.board) (t := x) s.taskSubagents with
        heq | ⟨hhas, hrun, hsp, hnone, hmem⟩
      · rw [heq]
        exact h
      · by_cases hxt : x = t
        · subst hxt
          rcases h with hm | ⟨-, hn, -, -⟩
          · -- the call has at most its worktree to release
            refine .inr ⟨hdel rfl, hnone, (hq.fresh x hhas).trans_le hsp.nextId, fun a ha => ?_⟩
            refine late_or (hq.calm x hm a ha) ((hc hm a ha).resolve_right ?_)
            simp [hrun]
          · exact absurd (hhas.symm.trans (statusOf_eq_none.mp hn)) (by simp)
        · refine h.keep (fun hm => (hmem t).mpr ⟨hm, Ne.symm hxt⟩) hsp (fun _ heq => hxt heq.symm) fun _ => rfl
  | splitTask x now subtasks =>
      obtain rfl := Option.some.inj hs
      rcases splitTask_spec (b := s.board) (t := x) s.taskSubagents now subtasks with
        heq | ⟨hhas, hsp, -, hcc⟩
      · rw [heq]
        exact h
      · refine h.keep (fun hm => hcc ▸ hm) hsp (fun hn heq => ?_) fun _ => rfl
        subst heq
        exact absurd (hhas.symm.trans (statusOf_eq_none.mp hn)) (by simp)
  | allocated x _ _ | awaitTasks x | awaitTimeout x | verified x _ | git x _ | supervised x _ _ =>
      obtain ⟨a, hget, hone⟩ := Option.bind_eq_some_iff.mp hs
      have hr := resumeOne_resumed hone
      by_cases hxt : t = x
      · subst hxt
        rcases h with hm | ⟨hd, hn, hlt, ha⟩
        · exact .inl (hr.cancelledTasks ▸ hm)
        · obtain rfl := ha a hget
          obtain rfl := resumeOne_release hone
          exact .inr ⟨hd, hn, hlt, fun a' ha' => by simp [goOn, JsMap.get?_delete] at ha'⟩
      · exact h.keep (fun hm => hr.cancelledTasks ▸ hm) hr.spares (fun _ heq => hxt heq)
          fun _ => running_off hr hxt

theorem base_step? (hs : s.step? op = some s') : s'.base = s.base ∨
    ∃ t a, s.running.get? t = some a ∧ Resumed t a s s' := by
  rcases step?_cases hs with ⟨-, t, a, -, hget, hone⟩ | ⟨e, -, -, rfl⟩ | ⟨e, -, -, rfl⟩ |
    ⟨e, -, ⟨-, rfl⟩ | ⟨-, rfl⟩⟩ | ⟨d, -, -, -, rfl⟩ | ⟨-, hc⟩
  · exact .inr ⟨t, a, hget, resumeOne_resumed hone⟩
  · exact .inl (head_base _ e)
  · exact .inl (shaped_turn s e).base
  · exact .inl (head_base s e)
  · exact .inl rfl
  · unfold finish
    split <;> exact .inl rfl
  · exact .inl hc.base

theorem counted_step (h : s.base.repo.Counted) (op : Op) : (step s op).base.repo.Counted := by
  rcases step_eq s op with heq | hs
  · rw [heq]
    exact h
  · rcases base_step? hs with heq | ⟨t, a, -, hr⟩
    · rw [heq]
      exact h
    · exact hr.adds.counted h

/-- A cancelled task is not dispatched again, and none of its commits is newer than `N`. -/
structure Held (t : TaskId) (deleted : Prop) (D N : Nat) (s : State) : Prop where
  quiet : Quiet s
  marked : Marked t deleted s
  dispatched : s.dispatched.count t = D
  commits : s.base.repo.NoneSince t N

theorem Held.step {D N : Nat} (h : Held t deleted D N s) (hc : CancelsCleanly s op)
    (hop : ¬ Revives t op) (hdel : op = .deleteTask t → deleted) : Held t deleted D N (step s op) := by
  have hready : t ∉ s.ready := by
    intro hm
    have hpend := (mem_ready.mp hm).1
    rcases h.marked with hm | ⟨-, hnone, -, -⟩
    · exact absurd ((h.quiet.failed t hm).symm.trans hpend) (by simp)
    · exact absurd (hnone.symm.trans hpend) (by simp)
  have hdisp : (ParallelRun.step s op).dispatched.count t = D := by
    obtain ⟨l, hl, hmem⟩ := dispatched_step s op
    rw [hl, List.count_append, h.dispatched, List.count_eq_zero.mpr fun hm => hready (hmem t hm),
      Nat.add_zero]
  rcases step_eq s op with heq | hs
  · rw [heq]
    exact h
  · refine ⟨h.quiet.step hc, h.marked.step? h.quiet hc hop hdel hs, hdisp, ?_⟩
    rcases base_step? hs with heq | ⟨x, a, hget, hr⟩
    · rw [heq]
      exact h.commits
    · by_cases hxt : x = t
      · -- the call of the task itself is not past its worker
        subst hxt
        have hlate : a.late = false := by
          rcases h.marked with hm | ⟨-, -, -, ha⟩
          · exact h.quiet.calm x hm a hget
          · rw [ha a hget]
            rfl
        rw [hr.base hlate]
        exact h.commits
      · exact hr.adds.noneSince hxt h.commits

/-- A graph whose orphans have been reset, before the first control. -/
theorem quiet_init (config : Config) {tracker : TaskTracker} (info : JsMap TaskId NodeInfo)
    (hfresh : ∀ x, tracker.graph.nodes.has x = true → x < tracker.nextId) :
    Quiet (init config ({ tracker, info } : Board).resetOrphans) := by
  have hreq := requeued_resetInProgress (b := { tracker, info }) "resume: orphaned in_progress"
  have hnone : ({ tracker, info } : Board).resetOrphans.cancelledTasks = [] := hreq.cancelledTasks
  refine ⟨hreq.spares.fresh hfresh, fun t ht => ?_, fun t ht => ?_, fun t ht => ?_⟩
  · simp [init, hnone] at ht
  · simp [init, hnone] at ht
  · exact absurd ht (resetInProgress_ne _)

theorem cancelTask_marks (ht : s.board.graph.nodes.has t = true) :
    t ∈ (s.cancelTask t).board.cancelledTasks := by
  rw [board_cancelTask]
  rcases cancelTask_spec (b := s.board) (t := t) with ⟨hno, -⟩ | ⟨-, -, b₁, -, hmem, hw⟩
  · exact absurd (ht.symm.trans hno) (by simp)
  · rw [hw.cancelledTasks]
    exact (hmem t).mpr (.inl rfl)

/-- When `run()` has returned, no call is left that a task in progress would need. -/
theorem Quiet.noneInProgress (h : Quiet s) (hz : s.running.size = 0) :
    s.board.statusOf t ≠ some .inProgress := by
  intro hst
  obtain ⟨a, hget, -⟩ := h.inFlight t hst
  exact running_ne_zero hget hz

end State

end WrongStack.ParallelRun
