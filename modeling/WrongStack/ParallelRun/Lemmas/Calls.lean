import WrongStack.ParallelRun.Lemmas.Board
import WrongStack.ParallelRun.Run
import WrongStack.Worktree.Theorems

/-!
# What a call of `executeOne` does between two awaits

Each method of the call ends in `goOn`. `Continues` says once what comes before it: the call writes
the status of its own task, finds the node missing, or waits for someone's verdict first. `weight`
bounds how often a call can still go on.
-/

namespace WrongStack

open Lib Sdd

/-! ## Weights -/

/-- How many commands `merge` has at most left, the one it is suspended at among them. -/
def Worktree.MergeStage.weight : Worktree.MergeStage → Nat
  | .checkout => 8
  | .squash => 7
  | .commit => 1
  | .unmergedFiles _ => 6
  | .resolve _ => 5
  | .addResolved _ => 4
  | .hasConflictMarkers _ => 3
  | .commitResolved _ => 2
  | .resetHead _ => 1

theorem Worktree.MergeStage.weight_advance {resolve : Bool} {t : TaskId} {r r' : Worktree.Repo}
    {a : Worktree.Answer} {m m' : Worktree.MergeStage} (h : m.advance resolve t r a = (r', .inl m')) :
    m'.weight < m.weight := by
  cases m <;> grind [advance, weight]

/-- The same for `integrateWorktree`. -/
def Worktree.Stage.weight : Worktree.Stage → Nat
  | .commitAll => 14
  | .baseShaBefore => 13
  | .merging _ m => 4 + m.weight
  | .reverify _ => 4
  | .revertCheckout _ _ => 3
  | .revertReset _ _ => 2
  | .baseShaAfter _ => 2
  | .release _ => 1

theorem Worktree.MergeStage.weight_pos (m : Worktree.MergeStage) : 0 < m.weight := by
  cases m <;> simp [weight]

theorem Worktree.Stage.weight_pos (st : Worktree.Stage) : 0 < st.weight := by
  cases st <;> simp [weight]

theorem Worktree.afterMerge_weight (o : Worktree.Options) (before : Option Worktree.Sha)
    (result : Worktree.MergeResult) : (Worktree.afterMerge o before result).weight ≤ 4 := by
  unfold afterMerge
  cases result <;> grind [Stage.weight]

theorem Worktree.Stage.weight_advance {o : Worktree.Options} {t : TaskId} {b b' : Worktree.Base}
    {a : Worktree.Answer} {st st' : Worktree.Stage} (h : st.advance o t b a = (b', .inl st')) :
    st'.weight < st.weight := by
  cases st with
  | merging before m =>
      simp only [advance] at h
      split at h
      · simp at h
      · split at h
        · rename_i hm
          obtain ⟨-, rfl⟩ : _ ∧ Stage.merging before _ = st' := by simpa using h
          have hlt := MergeStage.weight_advance hm
          simp only [weight]
          omega
        · rename_i result _
          obtain ⟨-, rfl⟩ : _ ∧ afterMerge o before result = st' := by simpa using h
          have hle := afterMerge_weight o before result
          have hpos := m.weight_pos
          change _ < 4 + m.weight
          omega
  | _ => grind [advance, weight, MergeStage.weight]

namespace ParallelRun

def ResolveStage.weight : ResolveStage → Nat
  | .commitAll => 12
  | .merging m => 3 + m.weight
  | .release => 3

def Await.weight : Await → Nat
  | .allocateWorktrees => 30
  | .awaitTasks _ _ _ => 29
  | .verifyTask => 28
  | .integrateWorktree stage => 13 + stage.weight
  | .superviseFailure _ _ _ => 13
  | .resolveWorktrees stage => stage.weight

theorem Await.three_le_weight (a : Await) : 3 ≤ a.weight := by
  cases a with
  | resolveWorktrees stage => cases stage <;> simp [weight, ResolveStage.weight]
  | _ =>
      simp only [weight]
      omega

/-- The call still has a status to write. -/
def Await.owing : Await → Bool
  | .resolveWorktrees _ => false
  | _ => true

/-- The call is past its worker, and may still merge or write another status than a cancellation. -/
def Await.late : Await → Bool
  | .allocateWorktrees | .awaitTasks _ _ _ | .resolveWorktrees .release => false
  | _ => true

namespace State

open Board

variable {s s₁ s₂ s' : State} {t : TaskId} {st : TaskStatus} {S : TaskStatus → Prop} {w : Nat} {n : Next}

/-! ## `goOn` -/

theorem goOn_cases (s : State) (t : TaskId) (n : Next) :
    (∃ a, n = .await a ∧ s.goOn t n = { s with running := s.running.set t a }) ∨
    (n = .done ∧ s.goOn t n = { s with running := s.running.delete t, loop := s.loop.settled true }) ∨
    ∃ e, n = .threw e ∧
      ((∃ board, Wrote t .failed s.board board ∧ s.goOn t n =
          { s with board, running := s.running.delete t, loop := s.loop.settled true }) ∨
        s.board.statusOf t = none ∧
          s.goOn t n = { s with running := s.running.delete t, loop := s.loop.settled false }) := by
  cases n with
  | await a => exact .inl ⟨a, rfl, rfl⟩
  | done => exact .inr (.inl ⟨rfl, rfl⟩)
  | threw e =>
      refine .inr (.inr ⟨e, rfl, ?_⟩)
      simp only [goOn]
      split
      · rename_i hok
        exact .inl ⟨_, updateNodeStatus_ok hok, rfl⟩
      · rename_i herr
        exact .inr ⟨updateNodeStatus_error herr, rfl⟩

/-! ## What comes before it -/

/-- What no call of `executeOne` touches. -/
def kept (s : State) : Config × List TaskId × Nat × Nat × Nat × Nat × Bool × Bool :=
  (s.config, s.dispatched, s.round, s.recoveryRounds, s.failedSweeps, s.lastSweepCompleted,
    s.stopRequested, s.paused)

/-- Only the call of `t` has run from `s` to `s₁`. -/
structure Own (t : TaskId) (s s₁ : State) : Prop where
  kept : s₁.kept = s.kept
  coordinator : s₁.coordinator = s.coordinator
  assigned : s₁.assigned = s.assigned
  base : s₁.base = s.base
  running : s₁.running = s.running
  loop : s₁.loop = s.loop
  spares : Spares (· = t) s.board s₁.board
  cancelledTasks : s₁.board.cancelledTasks = s.board.cancelledTasks

theorem Own.of_board {board : Board} (hs : Spares (· = t) s.board board)
    (hc : board.cancelledTasks = s.board.cancelledTasks) : Own t s { s with board } :=
  ⟨rfl, rfl, rfl, rfl, rfl, rfl, hs, hc⟩

theorem Own.refl (s : State) : Own t s s := .of_board (.refl _) rfl

theorem Own.trans (h : Own t s s₁) (h' : Own t s₁ s₂) : Own t s s₂ :=
  ⟨h'.kept.trans h.kept, h'.coordinator.trans h.coordinator, h'.assigned.trans h.assigned,
    h'.base.trans h.base, h'.running.trans h.running, h'.loop.trans h.loop, h.spares.trans h'.spares,
    h'.cancelledTasks.trans h.cancelledTasks⟩

/-- The end of a call whose status is written: at most the worktree is still to be resolved. -/
def Settles (w : Nat) (n : Next) : Prop :=
  n = .done ∨ ∃ stage : ResolveStage, n = .await (.resolveWorktrees stage) ∧ stage.weight < w

/-- How a call goes on from `s₁`: it has written a status of `S`, or the node is missing, or it waits
for what takes less than `w` steps and then still has a status to write. -/
def Goes (t : TaskId) (S : TaskStatus → Prop) (w : Nat) (s s₁ : State) (n : Next) : Prop :=
  (∃ st, S st ∧ s₁.board.statusOf t = some st ∧ Settles w n) ∨
  (s.board.statusOf t = none ∧ s₁.board.statusOf t = none ∧ ∃ e, n = .threw e) ∨
  s₁.board.statusOf t = s.board.statusOf t ∧ ∃ a, n = .await a ∧ a.owing = true ∧ a.weight < w

def Continues (t : TaskId) (S : TaskStatus → Prop) (w : Nat) (s s' : State) : Prop :=
  ∃ s₁ n, s' = s₁.goOn t n ∧ Own t s s₁ ∧ Goes t S w s s₁ n

theorem Continues.of_own (h : Own t s s₁) (hst : s₁.board.statusOf t = s.board.statusOf t)
    (h' : Continues t S w s₁ s') : Continues t S w s s' := by
  obtain ⟨s₂, n, heq, hown, hgo⟩ := h'
  exact ⟨s₂, n, heq, h.trans hown, hgo.imp_right (Or.imp (fun ⟨h2, h⟩ => ⟨hst ▸ h2, h⟩)
    fun ⟨h2, h⟩ => ⟨h2.trans hst, h⟩)⟩

theorem Continues.mono {S' : TaskStatus → Prop} (h : Continues t S w s s') (hS : ∀ st, S st → S' st) :
    Continues t S' w s s' := by
  obtain ⟨s₁, n, heq, hown, hgo⟩ := h
  exact ⟨s₁, n, heq, hown, hgo.imp_left fun ⟨st, hst, h⟩ => ⟨st, hS st hst, h⟩⟩

theorem Continues.completed (h : Continues t S w s s') (hst : s'.board.statusOf t = some .completed) :
    s.board.statusOf t = some .completed ∨ S .completed := by
  obtain ⟨s₁, n, rfl, hown, hgo⟩ := h
  have hkeep : s₁.board.statusOf t = some .completed := by
    rcases goOn_cases s₁ t n with ⟨a', -, heq⟩ | ⟨-, heq⟩ | ⟨e, -, ⟨board, hw, heq⟩ | ⟨-, heq⟩⟩
    · rwa [heq] at hst
    · rwa [heq] at hst
    · rw [heq] at hst
      have hfailed := hw.own.resolve_right (by simp)
      simp [hfailed] at hst
    · rwa [heq] at hst
  rcases hgo with ⟨st, hS, hnow, -⟩ | ⟨-, hnone, -⟩ | ⟨hsame, -⟩
  · exact .inr (Option.some.inj (hnow.symm.trans hkeep) ▸ hS)
  · simp [hnone] at hkeep
  · exact .inl (hsame.symm.trans hkeep)

theorem continues_await {a : Await} (ho : a.owing = true) (hw : a.weight < w) :
    Continues t S w s (s.goOn t (.await a)) :=
  ⟨s, _, rfl, .refl s, .inr (.inr ⟨rfl, a, rfl, ho, hw⟩)⟩

/-- What a call with its status written does next. -/
def Ends (t : TaskId) (w : Nat) (s s' : State) : Prop :=
  ∃ s₁ n, s' = s₁.goOn t n ∧ Own t s s₁ ∧ s₁.board.statusOf t = s.board.statusOf t ∧ Settles w n

theorem continues_write {reason : Option String} {next : State → State} (hS : S st)
    (hp : st ≠ .inProgress) (hnext : ∀ s₁ : State, Ends t w s₁ (next s₁)) :
    Continues t S w s (s.write t st reason next) := by
  unfold write
  split
  · rename_i board hok
    have hw := updateNodeStatus_ok hok
    obtain ⟨s₁, n, heq, hown, hsame, hset⟩ := hnext { s with board }
    refine ⟨s₁, n, heq, (Own.of_board hw.spares hw.cancelledTasks).trans hown, .inl ⟨st, hS, ?_, hset⟩⟩
    exact hsame.trans (hw.own.resolve_right fun h => hp h.1)
  · rename_i herr
    exact ⟨s, _, rfl, .refl s, .inr (.inl ⟨updateNodeStatus_error herr,
      updateNodeStatus_error herr, _, rfl⟩)⟩

/-! ## The methods of the call -/

theorem resolveStage_weight (s : State) (t : TaskId) : (s.resolveStage t).weight ≤ 12 := by
  unfold resolveStage
  split
  · simp [ResolveStage.weight]
  · split <;> simp [ResolveStage.weight]

theorem ends_done : Ends t w s (s.goOn t .done) := ⟨s, .done, rfl, .refl s, rfl, .inl rfl⟩

theorem ends_resolveWorktrees (hw : 12 < w) : Ends t w s (s.resolveWorktrees t) := by
  unfold resolveWorktrees
  split
  · exact ⟨s, _, rfl, .refl s, rfl, .inr ⟨_, rfl, (resolveStage_weight s t).trans_lt hw⟩⟩
  · exact ends_done

theorem ends_afterFailure (hw : 12 < w) (resolve : Bool) : Ends t w s (s.afterFailure t resolve) := by
  unfold afterFailure
  split
  · exact ends_resolveWorktrees hw
  · exact ends_done

def Failing (st : TaskStatus) : Prop := st = .pending ∨ st = .failed

theorem continues_terminalFail (hw : 12 < w) (errMsg : String) (resolve : Bool) :
    Continues t Failing w s (s.terminalFail t errMsg resolve) :=
  continues_write (.inr rfl) (by simp) fun _ => ends_afterFailure hw resolve

theorem continues_applyTaskFailure (hw : 13 < w) (errMsg : String) (resolve : Bool) :
    Continues t Failing w s (s.applyTaskFailure t errMsg resolve) := by
  unfold applyTaskFailure
  split
  · refine .of_own (.of_board (.of_tracker ?_) ?_) ?_ (continues_write (.inl rfl) (by simp) fun _ =>
      ends_afterFailure (by omega) resolve)
    · rw [persistRetries_tracker]
    · rw [persistRetries_cancelledTasks]
    · rw [statusOf, graph, persistRetries_tracker]
  · split
    · exact continues_await rfl hw
    · exact continues_terminalFail (by omega) errMsg resolve

theorem continues_rescue (hw : 12 < w) (reason : String) (resolve : Bool) :
    Continues t Failing w s (s.rescue t reason resolve) := by
  refine .of_own (.of_board (.of_tracker ?_) ?_) ?_ (continues_write (.inl rfl) (by simp) fun _ =>
    ends_afterFailure hw resolve)
  · rw [persistRetries_tracker]
  · rw [persistRetries_cancelledTasks]
  · rw [statusOf, graph, persistRetries_tracker]

theorem continues_delegate (hw : 12 < w) (errMsg : String) (resolve : Bool) (now : Nat)
    (subtasks : List SddSubtaskSpec) : Continues t (fun st => Failing st ∨ st = .completed) w s
      (s.delegate t errMsg resolve now subtasks) := by
  simp only [delegate]
  rcases splitTask_spec (b := s.board) (t := t) s.taskSubagents now subtasks with heq | ⟨-, hsp, hst, hc⟩
  · rw [heq]
    exact (continues_terminalFail hw errMsg resolve).mono fun _ h => .inl h
  · split
    · exact (continues_terminalFail hw errMsg resolve).mono fun _ h => .inl h
    · obtain ⟨s₁, n, heq, hown, hsame, hset⟩ := ends_afterFailure (s := { s with
        board := (s.board.splitTask s.taskSubagents t now subtasks).1 }) (t := t) hw resolve
      exact ⟨s₁, n, heq, (Own.of_board hsp hc).trans hown,
        .inl ⟨.completed, .inr rfl, hsame.trans hst, hset⟩⟩

/-- A supervisor's split is refused, or completes the task. -/
theorem continues_supervised (hw : 12 < w) (errMsg : String) (attempts : Nat) (resolve : Bool)
    (now : Nat) (verdict : Option SddSupervisorVerdict) :
    Continues t (fun st => Failing st ∨ st = .completed ∧ ∃ subtasks, verdict = some (.split subtasks))
      w s (s.supervised t errMsg attempts resolve now verdict) := by
  have hown : Own t s (s.escalated t attempts) := .of_board (.of_tracker rfl) rfl
  match verdict with
  | none | some .fail => exact (continues_terminalFail hw errMsg resolve).mono fun _ h => .inl h
  | some .retry =>
      refine .of_own hown rfl (.mono (S := Failing) ?_ fun _ h => .inl h)
      exact continues_rescue hw _ resolve
  | some (.reassign model) =>
      refine .of_own hown rfl (.mono (S := Failing) ?_ fun _ h => .inl h)
      exact continues_rescue hw _ resolve
  | some (.split subtasks) =>
      refine .of_own hown rfl (.mono (continues_delegate hw errMsg resolve now subtasks) fun _ h => ?_)
      exact h.imp_right fun h => ⟨h, subtasks, rfl⟩

theorem continues_integrated (hw : 13 < w) (outcome : Worktree.Outcome) :
    Continues t (fun st => Failing st ∨ st = .completed ∧ outcome = .ok) w s
      (s.integrated t outcome) := by
  cases outcome with
  | ok =>
      unfold integrated
      refine continues_write ?_ ?_ fun s₁ => ?_
      · exact .inr ⟨rfl, rfl⟩
      · simp
      · refine ⟨_, .done, rfl, .of_board (.of_tracker ?_) ?_, ?_, .inl rfl⟩
        · rw [persistRetries_tracker]
        · rw [persistRetries_cancelledTasks]
        · rw [statusOf, graph, persistRetries_tracker]
  | regressed reason => exact (continues_applyTaskFailure hw reason false).mono fun _ h => .inl h
  | conflict files => exact (continues_applyTaskFailure hw _ false).mono fun _ h => .inl h

theorem continues_integrateWorktree (hw : 27 < w) :
    Continues t (fun st => Failing st ∨ st = .completed ∧ t ∉ s.taskWorktrees) w s
      (s.integrateWorktree t) := by
  unfold integrateWorktree
  split
  · exact continues_await rfl hw
  · rename_i hno
    refine (continues_integrated (by omega) .ok).mono fun _ h => h.imp_right fun h => ⟨h.1, ?_⟩
    simpa [List.contains_iff_mem] using hno

theorem continues_verified (hw : 27 < w) (verdict : Worktree.Verdict) :
    Continues t (fun st => Failing st ∨ st = .completed ∧ verdict = .ok ∧ t ∉ s.taskWorktrees) w s
      (s.verified t verdict) := by
  unfold verified
  cases verdict with
  | ok =>
      exact (continues_integrateWorktree hw).mono fun _ h => h.imp_right fun ⟨h1, h2⟩ => ⟨h1, rfl, h2⟩
  | rejected reason =>
      exact (continues_applyTaskFailure (by omega) _ true).mono fun _ h => .inl h
  | threw err => exact (continues_applyTaskFailure (by omega) _ true).mono fun _ h => .inl h

/-- A cancelled task only has its worktree resolved. -/
theorem continues_afterWorker (hw : 28 < w) (result : Coordination.TaskResult) :
    (t ∈ s.board.cancelledTasks ∧ Ends t w s (s.afterWorker t result)) ∨
    Continues t (fun st => Failing st ∨
      st = .completed ∧ result.status = .success ∧ s.config.verifyTask = false ∧
        t ∉ s.taskWorktrees) w s (s.afterWorker t result) := by
  have hown : Own t s { s with taskSubagents := s.taskSubagents.delete t } :=
    ⟨rfl, rfl, rfl, rfl, rfl, rfl, .refl _, rfl⟩
  simp only [afterWorker]
  split
  · rename_i hc
    obtain ⟨s₁, n, heq, hown', hsame, hset⟩ := ends_resolveWorktrees
      (s := { s with taskSubagents := s.taskSubagents.delete t }) (t := t) (w := w) (by omega)
    exact .inl ⟨List.contains_iff_mem.mp hc, s₁, n, heq, hown.trans hown', hsame, hset⟩
  · refine .inr (.of_own hown rfl ?_)
    split
    · rename_i hok
      split
      · exact continues_await rfl hw
      · rename_i hv
        exact (continues_integrateWorktree (by omega)).mono fun _ h =>
          h.imp_right fun ⟨h1, h2⟩ => ⟨h1, hok, by simpa using hv, h2⟩
    · exact (continues_applyTaskFailure (by omega) _ true).mono fun _ h => .inl h

/-! ## One resumption -/

/-- When the call is done with the status of its task: it has been written, it was not the call's to
write, or the task is cancelled. -/
def Rests (t : TaskId) (a : Await) (s s' : State) : Prop :=
  s'.board.statusOf t ≠ some .inProgress ∨
    s'.board.statusOf t = s.board.statusOf t ∧ (t ∈ s.board.cancelledTasks ∨ a.owing = false)

/-- The call of `t`, suspended at `a` in `s`, goes on and `s'` is the state it leaves. -/
structure Resumed (t : TaskId) (a : Await) (s s' : State) : Prop where
  kept : s'.kept = s.kept
  spares : Spares (· = t) s.board s'.board
  cancelledTasks : s'.board.cancelledTasks = s.board.cancelledTasks
  workers : a ≠ .allocateWorktrees → s'.coordinator = s.coordinator ∧ s'.assigned = s.assigned
  adds : Worktree.Repo.Adds t s.base.repo s'.base.repo
  base : a.late = false → s'.base = s.base
  ends : (∃ a', s'.running = s.running.set t a' ∧ s'.loop = s.loop ∧ a'.weight < a.weight ∧
      (if a'.owing then a.owing = true ∧ s'.board.statusOf t = s.board.statusOf t
        else Rests t a s s')) ∨
    ∃ ok, s'.running = s.running.delete t ∧ s'.loop = s.loop.settled ok ∧ Rests t a s s' ∧
      (ok = false → s.board.statusOf t = none ∧ a.owing = true)

variable {a : Await} {s₀ : State}

theorem running_off {x : TaskId} (hr : Resumed t a s s') (hx : x ≠ t) :
    s'.running.get? x = s.running.get? x := by
  rcases hr.ends with ⟨a', hrun, -⟩ | ⟨ok, hrun, -⟩
  · rw [hrun, JsMap.get?_set, if_neg (Ne.symm hx)]
  · rw [hrun, JsMap.get?_delete, if_neg (Ne.symm hx)]

/-- What the call keeps for itself may change before the methods above run. -/
structure Prepared (t : TaskId) (a : Await) (s s₀ : State) : Prop where
  kept : s₀.kept = s.kept
  board : s₀.board = s.board
  coordinator : s₀.coordinator = s.coordinator
  assigned : s₀.assigned = s.assigned
  running : s₀.running = s.running
  loop : s₀.loop = s.loop
  adds : Worktree.Repo.Adds t s.base.repo s₀.base.repo
  base : a.late = false → s₀.base = s.base

theorem Prepared.of_base (hk : s₀.kept = s.kept) (hb : s₀.board = s.board)
    (hc : s₀.coordinator = s.coordinator) (ha : s₀.assigned = s.assigned) (hr : s₀.running = s.running)
    (hl : s₀.loop = s.loop) (hbase : s₀.base = s.base) : Prepared t a s s₀ :=
  ⟨hk, hb, hc, ha, hr, hl, hbase ▸ .refl _, fun _ => hbase⟩

theorem Prepared.refl (s : State) : Prepared t a s s := .of_base rfl rfl rfl rfl rfl rfl rfl

theorem Continues.resumed (hp : Prepared t a s s₀) (h : Continues t S a.weight s₀ s')
    (hS : ∀ st, S st → st ≠ .inProgress) (ho : a.owing = true) : Resumed t a s s' := by
  obtain ⟨s₁, n, rfl, hown, hgo⟩ := h
  have hkept := hown.kept.trans hp.kept
  have hsp : Spares (· = t) s.board s₁.board := hp.board ▸ hown.spares
  have hc : s₁.board.cancelledTasks = s.board.cancelledTasks := hp.board ▸ hown.cancelledTasks
  have hr : s₁.running = s.running := hown.running.trans hp.running
  have hl : s₁.loop = s.loop := hown.loop.trans hp.loop
  have hwork : s₁.coordinator = s.coordinator ∧ s₁.assigned = s.assigned :=
    ⟨hown.coordinator.trans hp.coordinator, hown.assigned.trans hp.assigned⟩
  have hadds : Worktree.Repo.Adds t s.base.repo s₁.base.repo := hown.base ▸ hp.adds
  have hbase : a.late = false → s₁.base = s.base := fun h => hown.base.trans (hp.base h)
  have hwrote : ∀ st, S st → s₁.board.statusOf t = some st → s₁.board.statusOf t ≠ some .inProgress :=
    fun st hst hnow h => hS st hst (Option.some.inj (hnow.symm.trans h))
  rcases goOn_cases s₁ t n with ⟨a', rfl, heq⟩ | ⟨rfl, heq⟩ | ⟨e, rfl, ⟨board, hw, heq⟩ | ⟨hnone, heq⟩⟩
  · rw [heq]
    refine ⟨hkept, hsp, hc, fun _ => hwork, hadds, hbase, .inl ⟨a', by rw [hr], hl, ?_⟩⟩
    rcases hgo with ⟨st, hst, hnow, hset⟩ | ⟨-, -, e, h⟩ | ⟨hsame, a'', h, howe, hw⟩
    · obtain ⟨stage, h, hlt⟩ := hset.resolve_left (by simp)
      obtain rfl := Next.await.inj h
      exact ⟨hlt, .inl (hwrote st hst hnow)⟩
    · simp at h
    · obtain rfl := Next.await.inj h
      rw [if_pos howe]
      exact ⟨hw, ho, hp.board ▸ hsame⟩
  · rw [heq]
    refine ⟨hkept, hsp, hc, fun _ => hwork, hadds, hbase, .inr ⟨true, by rw [hr], by rw [hl], .inl ?_, by simp⟩⟩
    rcases hgo with ⟨st, hst, hnow, -⟩ | ⟨-, -, e, h⟩ | ⟨-, a', h, -⟩
    · exact hwrote st hst hnow
    · simp at h
    · simp at h
  · rw [heq]
    refine ⟨hkept, hsp.trans hw.spares, hw.cancelledTasks.trans hc, fun _ => hwork, hadds, hbase,
      .inr ⟨true, by rw [hr], by rw [hl], .inl ?_, by simp⟩⟩
    have hst := hw.own.resolve_right (by simp)
    exact fun h => absurd (Option.some.inj (hst.symm.trans h)) (by simp)
  · rw [heq]
    refine ⟨hkept, hsp, hc, fun _ => hwork, hadds, hbase,
      .inr ⟨false, by rw [hr], by rw [hl], .inl ?_, fun _ => ⟨?_, ho⟩⟩⟩
    · exact fun h => absurd (hnone.symm.trans h) (by simp)
    · rcases hgo with ⟨-, -, -, h | ⟨_, h, -⟩⟩ | ⟨h, -⟩ | ⟨-, a', h, -⟩
      · simp at h
      · simp at h
      · exact hp.board ▸ h
      · simp at h

theorem Ends.resumed (hp : Prepared t a s s₀) (h : Ends t a.weight s₀ s')
    (hq : t ∈ s.board.cancelledTasks ∨ a.owing = false) : Resumed t a s s' := by
  obtain ⟨s₁, n, rfl, hown, hsame, hset⟩ := h
  have hkept := hown.kept.trans hp.kept
  have hsp : Spares (· = t) s.board s₁.board := hp.board ▸ hown.spares
  have hc : s₁.board.cancelledTasks = s.board.cancelledTasks := hp.board ▸ hown.cancelledTasks
  have hr : s₁.running = s.running := hown.running.trans hp.running
  have hl : s₁.loop = s.loop := hown.loop.trans hp.loop
  have hwork : s₁.coordinator = s.coordinator ∧ s₁.assigned = s.assigned :=
    ⟨hown.coordinator.trans hp.coordinator, hown.assigned.trans hp.assigned⟩
  have hadds : Worktree.Repo.Adds t s.base.repo s₁.base.repo := hown.base ▸ hp.adds
  have hbase : a.late = false → s₁.base = s.base := fun h => hown.base.trans (hp.base h)
  have hrest : Rests t a s s₁ := .inr ⟨hp.board ▸ hsame, hq⟩
  rcases hset with rfl | ⟨stage, rfl, hlt⟩
  · exact ⟨hkept, hsp, hc, fun _ => hwork, hadds, hbase,
      .inr ⟨true, congrArg (·.delete t) hr, congrArg (Loop.settled true) hl, hrest, by simp⟩⟩
  · exact ⟨hkept, hsp, hc, fun _ => hwork, hadds, hbase, .inl ⟨.resolveWorktrees stage,
      congrArg (·.set t (.resolveWorktrees stage)) hr, hl, hlt, hrest⟩⟩

theorem resumed_allocated (active : Bool) (randomUUID : Coordination.Uuid) :
    Resumed t .allocateWorktrees s (s.allocated t active randomUUID) := by
  simp only [allocated]
  split
  · -- the spawn throws, and the node is marked
    generalize hmsg : Next.threw _ = n
    rcases goOn_cases _ t n with ⟨a', rfl, heq⟩ | ⟨rfl, heq⟩ | ⟨e, rfl, ⟨board, hw, heq⟩ | ⟨hnone, heq⟩⟩
    · simp at hmsg
    · simp at hmsg
    · rw [heq]
      refine ⟨rfl, hw.spares, hw.cancelledTasks, by simp, .refl _, fun _ => rfl, .inr ⟨true, rfl, rfl, .inl ?_, by simp⟩⟩
      have hst := hw.own.resolve_right (by simp)
      exact fun h => absurd (Option.some.inj (hst.symm.trans h)) (by simp)
    · rw [heq]
      refine ⟨rfl, .refl _, rfl, by simp, .refl _, fun _ => rfl, .inr ⟨false, rfl, rfl, .inl ?_, fun _ => ⟨hnone, rfl⟩⟩⟩
      exact fun h => absurd (hnone.symm.trans h) (by simp)
  · exact ⟨rfl, .refl _, rfl, by simp, .refl _, fun _ => rfl, .inl ⟨_, rfl, rfl, Nat.lt_succ_self 29, rfl, rfl⟩⟩

theorem resumed_integrateAnswer (stage : Worktree.Stage) (answer : Worktree.Answer) :
    Resumed t (.integrateWorktree stage) s (s.integrateAnswer t stage answer) := by
  unfold integrateAnswer
  split
  · rename_i base stage' h
    have hlt := Worktree.Stage.weight_advance h
    have hadds := Worktree.adds_integrate (t := t) (a := answer) s.config.merge s.base stage
    rw [h] at hadds
    have hp : Prepared t (.integrateWorktree stage) s { s with base } :=
      ⟨rfl, rfl, rfl, rfl, rfl, rfl, hadds, by simp [Await.late]⟩
    refine Continues.resumed (S := Failing) hp (continues_await rfl ?_) ?_ rfl
    · simp only [Await.weight]
      omega
    · rintro st (rfl | rfl) <;> simp
  · rename_i base outcome h
    have hadds := Worktree.adds_integrate (t := t) (a := answer) s.config.merge s.base stage
    rw [h] at hadds
    have hp : Prepared t (.integrateWorktree stage) s ({ s with base }.forgetWorktree t) :=
      ⟨rfl, rfl, rfl, rfl, rfl, rfl, hadds, by simp [Await.late]⟩
    refine Continues.resumed hp (continues_integrated ?_ outcome) ?_ rfl
    · have := stage.weight_pos
      simp only [Await.weight]
      omega
    · rintro st ((rfl | rfl) | ⟨rfl, -⟩) <;> simp

theorem resumed_resolveAnswer (stage : ResolveStage) (answer : Worktree.Answer) :
    Resumed t (.resolveWorktrees stage) s (s.resolveAnswer t answer stage) := by
  have hdone : Resumed t (.resolveWorktrees stage) s ((s.forgetWorktree t).goOn t .done) := by
    have hp : Prepared t (.resolveWorktrees stage) s (s.forgetWorktree t) :=
      .of_base rfl rfl rfl rfl rfl rfl rfl
    exact Ends.resumed hp ends_done (.inr rfl)
  have hnext : ∀ (repo : Worktree.Repo) (stage' : ResolveStage), stage'.weight < stage.weight →
      Worktree.Repo.Adds t s.base.repo repo → stage ≠ .release →
      Resumed t (.resolveWorktrees stage) s
        ({ s with base := { s.base with repo } }.goOn t (.await (.resolveWorktrees stage'))) := by
    intro repo stage' hlt hadds hne
    have hp : Prepared t (.resolveWorktrees stage) s { s with base := { s.base with repo } } :=
      ⟨rfl, rfl, rfl, rfl, rfl, rfl, hadds, by cases stage <;> simp_all [Await.late]⟩
    exact Ends.resumed hp ⟨_, _, rfl, .refl _, rfl, .inr ⟨stage', rfl, hlt⟩⟩ (.inr rfl)
  cases stage with
  | commitAll =>
      simp only [resolveAnswer]
      split
      · exact hdone
      · exact hnext s.base.repo (.merging .checkout) (by decide) (.refl _) (by simp)
  | merging m =>
      simp only [resolveAnswer]
      split
      · exact hdone
      · have hadds := Worktree.adds_merge (r := s.base.repo) (t := t) (a := answer) false m
        split
        · rename_i h
          have hlt := Worktree.MergeStage.weight_advance h
          rw [h] at hadds
          exact hnext _ _ (by simp only [ResolveStage.weight]; omega) hadds (by simp)
        · rename_i h
          have := m.weight_pos
          rw [h] at hadds
          exact hnext _ _ (by simp only [ResolveStage.weight]; omega) hadds (by simp)
  | release => exact hdone

theorem resumeOne_resumed {op : Op} (h : s.resumeOne t a op = some s') : Resumed t a s s' := by
  have hfailing : ∀ st, Failing st → st ≠ .inProgress := by
    rintro st (rfl | rfl) <;> simp
  have hworker : ∀ (result : Coordination.TaskResult) id cached since,
      Resumed t (.awaitTasks id cached since) s (s.afterWorker t result) := by
    intro result id cached since
    rcases continues_afterWorker (s := s) (t := t)
      (w := (Await.awaitTasks id cached since).weight) (Nat.lt_succ_self 28) result with ⟨hc, hend⟩ | hcont
    · exact hend.resumed (.refl s) (.inl hc)
    · refine hcont.resumed (.refl s) ?_ rfl
      rintro st (hst | ⟨rfl, -⟩)
      · exact hfailing st hst
      · simp
  cases a with
  | allocateWorktrees =>
      cases op <;> simp only [resumeOne, reduceCtorEq] at h
      split at h
      · simp at h
      · obtain rfl := Option.some.inj h
        exact resumed_allocated _ _
  | awaitTasks id cached since =>
      cases op <;> simp only [resumeOne, reduceCtorEq] at h
      · obtain ⟨result, -, rfl⟩ := Option.map_eq_some_iff.mp h
        exact hworker result id cached since
      · split at h
        · simp at h
        · obtain rfl := Option.some.inj h
          exact hworker _ id cached since
  | verifyTask =>
      cases op <;> simp only [resumeOne, reduceCtorEq] at h
      obtain rfl := Option.some.inj h
      refine (continues_verified (by decide) _).resumed (.refl s) ?_ rfl
      rintro st (hst | ⟨rfl, -⟩)
      · exact hfailing st hst
      · simp
  | integrateWorktree stage =>
      cases op <;> simp only [resumeOne, reduceCtorEq] at h
      obtain rfl := Option.some.inj h
      exact resumed_integrateAnswer _ _
  | superviseFailure errMsg attempts resolve =>
      cases op <;> simp only [resumeOne, reduceCtorEq] at h
      obtain rfl := Option.some.inj h
      refine (continues_supervised (Nat.lt_succ_self 12) errMsg attempts resolve _ _).resumed (.refl s) ?_ rfl
      rintro st (hst | ⟨rfl, -⟩)
      · exact hfailing st hst
      · simp
  | resolveWorktrees stage =>
      cases op <;> simp only [resumeOne, reduceCtorEq] at h
      obtain rfl := Option.some.inj h
      exact resumed_resolveAnswer _ _

end State

end ParallelRun

end WrongStack
