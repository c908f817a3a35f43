import WrongStack.ParallelRun.Lemmas.Split
import WrongStack.ParallelRun.Lemmas.Workers

/-!
# What holds of every parallel run

A run is any list of steps: turns of the loop, answers that the calls of `executeOne` wait for, workers
that settle, and the controls of the user, in any order.
-/

namespace WrongStack.ParallelRun

open Lib Sdd State

/-! ## One worker for each task -/

/-- No worker of a task that the step dispatches is still at work. -/
def DispatchesFree (s : State) (op : Op) : Prop :=
  ∀ t ∈ (step s op).dispatched.drop s.dispatched.length, ∀ id, (t, id) ∈ s.assigned →
    id ∉ s.coordinator.executingIds ∧ id ∉ s.coordinator.pendingIds

/-- A worker that has not settled is awaited by the call of its task. -/
def AwaitsWorkers (s : State) : Prop :=
  ∀ p ∈ s.assigned, p.2 ∈ s.coordinator.executingIds ∨ p.2 ∈ s.coordinator.pendingIds →
    ∃ cached since, s.running.get? p.1 = some (.awaitTasks p.2 cached since)

/-- A task has at most one live worker, throughout the run. -/
structure OneWorker (config : Config) (board : Board) (os : List Op) : Prop where
  dispatches : ∀ pre op, pre ++ [op] <+: os → DispatchesFree (run step (init config board) pre) op
  awaits : ∀ pre, pre <+: os → AwaitsWorkers (run step (init config board) pre)

/-- As long as no timer of `awaitTasks` fires on a worker that has not settled. -/
theorem one_worker (config : Config) (board : Board) (os : List Op)
    (h : Under step NoTimeout (init config board) os) : OneWorker config board os := by
  have htracked : ∀ pre, pre <+: os → Tracked (run step (init config board) pre) := by
    rintro pre ⟨post, rfl⟩
    exact run_invariant_under (fun _ _ h hno => h.step hno) (tracked_init config board)
      ((under_append pre post).mp h).1
  have hawaits : ∀ pre, pre <+: os → AwaitsWorkers (run step (init config board) pre) := by
    intro pre hpre p hp hlive
    refine ((htracked pre hpre).settled p hp).resolve_left fun hdone => ?_
    obtain ⟨hexec, hpend⟩ := (htracked pre hpre).not_live hdone
    exact hlive.elim hexec hpend
  refine ⟨fun pre op hpre t ht id hid => ?_, hawaits⟩
  have hpre' : pre <+: os := (List.prefix_append pre [op]).trans hpre
  obtain ⟨l, hl, hready⟩ := dispatched_step (run step (init config board) pre) op
  rw [hl, List.drop_left] at ht
  obtain ⟨-, -, hnone⟩ := mem_ready.mp (hready t ht)
  refine (htracked pre hpre').not_live (((htracked pre hpre').settled (t, id) hid).resolve_right ?_)
  rintro ⟨cached, since, hget⟩
  exact absurd (hnone.symm.trans hget) (by simp)

/-- One task, one slot. -/
def oneTask : Board := { tracker := ({} : TaskTracker).addNode {} }

def oneSlot : Config := ({ parallelSlots := some 1 } : SddParallelRunOptions).config 1

/-- The task fails and is dispatched again. -/
theorem one_worker_retry :
    Under step NoTimeout (init oneSlot oneTask) [.start 0, .turn 0, .allocated 0 false ⟨"a", by decide⟩,
        .settle 0 (.reject (fun _ => ⟨.toolFailed, "no", false⟩) false false 1 1), .awaitTasks 0, .wake 0,
        .turn 0] ∧
      OneWorker oneSlot oneTask [.start 0, .turn 0, .allocated 0 false ⟨"a", by decide⟩,
        .settle 0 (.reject (fun _ => ⟨.toolFailed, "no", false⟩) false false 1 1), .awaitTasks 0, .wake 0,
        .turn 0] := by
  have h : Under step NoTimeout (init oneSlot oneTask) [.start 0, .turn 0,
      .allocated 0 false ⟨"a", by decide⟩,
      .settle 0 (.reject (fun _ => ⟨.toolFailed, "no", false⟩) false false 1 1), .awaitTasks 0, .wake 0,
      .turn 0] := ⟨trivial, trivial, trivial, trivial, trivial, trivial, trivial, trivial⟩
  exact ⟨h, one_worker _ _ _ h⟩

/-- The timer takes the running worker for failed, and the next turn dispatches the task again. -/
theorem two_workers : ¬ ∀ (config : Config) (board : Board) (os : List Op),
    OneWorker config board os := by
  intro h
  have hfree := (h oneSlot oneTask [.start 0, .turn 0, .allocated 0 false ⟨"a", by decide⟩,
    .awaitTimeout 0, .wake 0, .turn 0]).dispatches [.start 0, .turn 0,
      .allocated 0 false ⟨"a", by decide⟩, .awaitTimeout 0, .wake 0] (.turn 0) (List.prefix_refl _)
  have hexec := (hfree 0 (by decide +kernel) "a" (by decide +kernel)).1
  revert hexec
  decide +kernel

/-! ## Cancellation -/

/-- After `cancelTask` of a task that is pending or in progress, and until its marker is cleared, the
task stays failed, unless it is deleted, it is not dispatched again, and no commit of it gets to the base. -/
def StaysCancelled (s : State) (t : TaskId) (post : List Op) : Prop :=
  s.board.statusOf t = some .pending ∨ s.board.statusOf t = some .inProgress →
  (∀ op ∈ post, ¬ Revives t op) →
    ((run step s (.cancelTask t :: post)).board.statusOf t = some .failed ∨ .deleteTask t ∈ post) ∧
    (run step s (.cancelTask t :: post)).dispatched.count t = s.dispatched.count t ∧
    ∀ c ∈ (run step s (.cancelTask t :: post)).base.repo.log
        (run step s (.cancelTask t :: post)).base.repo.tip,
      c.taskId = t → c.sha < s.base.repo.nextSha

/-- Cancelled means cancelled, in every run from a graph whose orphans have been reset. -/
structure CancelsForGood (config : Config) (board : Board) (os : List Op) : Prop where
  stays : ∀ pre t post, os = pre ++ .cancelTask t :: post →
    StaysCancelled (run step (init config board) pre) t post
  noneInProgress : ∀ d, (run step (init config board) os).loop = .returned d →
    ∀ t, (run step (init config board) os).board.statusOf t ≠ some .inProgress

/-- As long as the controls meet `CancelsCleanly`. `randomUUID` returns no id of the graph. -/
theorem cancels_for_good (config : Config) (tracker : TaskTracker) (info : JsMap TaskId NodeInfo)
    (hfresh : ∀ x, tracker.graph.nodes.has x = true → x < tracker.nextId) (os : List Op)
    (h : Under step CancelsCleanly (init config ({ tracker, info } : Board).resetOrphans) os) :
    CancelsForGood config ({ tracker, info } : Board).resetOrphans os := by
  have hquiet : ∀ pre, Under step CancelsCleanly (init config ({ tracker, info } : Board).resetOrphans) pre →
      Quiet (run step (init config ({ tracker, info } : Board).resetOrphans) pre) := fun pre hpre =>
    run_invariant_under (fun _ _ h hc => h.step hc) (quiet_init config info hfresh) hpre
  refine ⟨?_, fun d hl t => ?_⟩
  · rintro pre t post rfl hlive hno
    obtain ⟨hpre, hcancel, hpost⟩ := (under_append pre _).mp h
    have hq := hquiet pre hpre
    have hcount : (run step (init config ({ tracker, info } : Board).resetOrphans) pre).base.repo.Counted :=
      run_invariant (I := fun s : State => s.base.repo.Counted) (fun _ op h => counted_step h op)
        (fun sha c hc => by simp [init, Worktree.Repo.log] at hc) pre
    generalize run step (init config ({ tracker, info } : Board).resetOrphans) pre = s at *
    have hhas : s.board.graph.nodes.has t = true :=
      has_iff_statusOf.mpr (hlive.elim (fun h => ⟨_, h⟩) fun h => ⟨_, h⟩)
    have hheld : Held t (.deleteTask t ∈ post) (s.dispatched.count t) s.base.repo.nextSha
        (step s (.cancelTask t)) := by
      refine ⟨hq.step hcancel, .inl (cancelTask_marks hhas), ?_, ?_⟩
      · exact congrArg (List.count t) (controlled_cancelTask s t).dispatched
      · have hbase : (step s (.cancelTask t)).base = s.base := (controlled_cancelTask s t).base
        rw [hbase]
        exact fun sha c hc _ => hcount sha c hc
    have hend : Held t (.deleteTask t ∈ post) (s.dispatched.count t) s.base.repo.nextSha
        (run step (step s (.cancelTask t)) post) := by
      refine run_invariant_under (C := fun s op => CancelsCleanly s op ∧ op ∈ post)
        (fun s op h hc => h.step hc.1 (hno op hc.2) fun heq => heq ▸ hc.2) hheld
        (under_iff_forall_concat.mpr fun pre' op hpre' => ?_)
      exact ⟨under_iff_forall_concat.mp hpost pre' op hpre', hpre'.subset (by simp)⟩
    refine ⟨?_, hend.dispatched, fun c hc ht => hend.commits _ c hc ht⟩
    exact hend.marked.imp (hend.quiet.failed t) And.left
  · have hb : Bounded (run step (init config ({ tracker, info } : Board).resetOrphans) os) :=
      run_invariant (fun _ op h => h.step op) (bounded_init _ _) os
    exact (hquiet os h).noneInProgress (hb.returned d hl)

def verifying : Config := ({ parallelSlots := some 1, verifyTask := true } : SddParallelRunOptions).config 1

/-- The task is cancelled while its worker runs, and the worker settles. -/
theorem cancels_for_good_running :
    (∀ x, (({} : TaskTracker).addNode {}).graph.nodes.has x = true →
        x < (({} : TaskTracker).addNode {}).nextId) ∧
      Under step CancelsCleanly (init verifying oneTask.resetOrphans) [.start 0, .turn 0,
        .allocated 0 false ⟨"a", by decide⟩, .cancelTask 0, .settle 0 (.resolve 1 1), .awaitTasks 0] ∧
      CancelsForGood verifying oneTask.resetOrphans [.start 0, .turn 0,
        .allocated 0 false ⟨"a", by decide⟩, .cancelTask 0, .settle 0 (.resolve 1 1), .awaitTasks 0] := by
  have hfresh : ∀ x, (({} : TaskTracker).addNode {}).graph.nodes.has x = true →
      x < (({} : TaskTracker).addNode {}).nextId := by
    intro x hx
    rw [has_addNode, Bool.or_eq_true, decide_eq_true_eq] at hx
    rcases hx with rfl | hx
    · exact Nat.lt_succ_self _
    · cases hx
  have h : Under step CancelsCleanly (init verifying oneTask.resetOrphans) [.start 0, .turn 0,
      .allocated 0 false ⟨"a", by decide⟩, .cancelTask 0, .settle 0 (.resolve 1 1), .awaitTasks 0] := by
    refine ⟨trivial, fun _ hready => ?_, trivial, fun _ a hget => ?_, trivial, trivial, trivial⟩
    · exact absurd hready (by decide +kernel)
    · have hlate : ((run step (init verifying oneTask.resetOrphans) [.start 0, .turn 0,
          .allocated 0 false ⟨"a", by decide⟩]).running.get? 0).all (fun a => !a.late) = true := by
        decide +kernel
      change (run step (init verifying oneTask.resetOrphans) [.start 0, .turn 0,
        .allocated 0 false ⟨"a", by decide⟩]).running.get? 0 = some a at hget
      rw [hget] at hlate
      simpa using hlate
  exact ⟨hfresh, h, cancels_for_good verifying _ .empty hfresh _ h⟩

/-- Cancelled while its work is verified, the task is completed when the verifier accepts it. -/
theorem cancelled_completes : ¬ ∀ (config : Config) (tracker : TaskTracker) (info : JsMap TaskId NodeInfo),
    (∀ x, tracker.graph.nodes.has x = true → x < tracker.nextId) → ∀ os : List Op,
      CancelsForGood config ({ tracker, info } : Board).resetOrphans os := by
  intro h
  have hstays := (h verifying (({} : TaskTracker).addNode {}) .empty (fun x hx => by
    rw [has_addNode, Bool.or_eq_true, decide_eq_true_eq] at hx
    rcases hx with rfl | hx
    · exact Nat.lt_succ_self _
    · cases hx) ([.start 0, .turn 0, .allocated 0 false ⟨"a", by decide⟩, .settle 0 (.resolve 1 1),
      .awaitTasks 0] ++ .cancelTask 0 :: [.verified 0 .ok])).stays _ 0 [.verified 0 .ok] rfl
  have hend := (hstays (.inr (by decide +kernel)) (by simp [Revives])).1
  simp only [List.mem_singleton, reduceCtorEq, or_false] at hend
  revert hend
  decide +kernel

/-! ## Termination -/

/-- What is promised of a run that has come as far as `os`: it dispatches a bounded number of tasks, it
takes a bounded number of steps, until `run()` has settled it can take one, each iteration uses something
up, and with `run()` no call is left. -/
structure Terminates (config : Config) (board : Board) (os : List Op) : Prop where
  dispatches : (run step (init config board) os).dispatched.length ≤
    config.maxTotalWaves + config.slots - 1
  steps : systemSteps (init config board) os ≤ 34 * (config.maxTotalWaves + config.slots - 1) +
    config.maxFailedSweeps + config.maxRecoveryRounds + 5
  goesOn : (run step (init config board) os).loop ≠ .idle → ¬ (run step (init config board) os).ended →
    ((run step (init config board) os).paused = true →
      (run step (init config board) os).stopRequested = true) →
    ∃ op : Op, op.system = true ∧ ((run step (init config board) os).step? op).isSome = true
  iterates : ∀ e s', (run step (init config board) os).step? (.turn e) = some s' →
    Iterates (run step (init config board) os) s'
  noneLeft : (run step (init config board) os).ended → (run step (init config board) os).running.size = 0

/-- As long as no deletion takes the node from under a call that still writes its status, the run
terminates within its bounds and leaves no call behind. -/
theorem run_terminates (config : Config) (board : Board) (os : List Op)
    (h : Under step KeepsNodes (init config board) os) : Terminates config board os := by
  have hb : Bounded (run step (init config board) os) :=
    run_invariant (fun _ op h => h.step op) (bounded_init config board) os
  have hr : Rooted (run step (init config board) os) :=
    run_invariant_under (fun _ _ h hkeep => h.step hkeep) (rooted_init config board) h
  have hconfig : (run step (init config board) os).config = config := config_run _ os
  refine ⟨?_, ?_, hb.goes_on, fun e s' hs => ?_, ?_⟩
  · have := hb.bound
    rwa [hconfig] at this
  · have := systemSteps_le (bounded_init config board) os
    have hinit : (init config board).remaining = 34 * (config.maxTotalWaves + config.slots - 1) +
      config.maxFailedSweeps + config.maxRecoveryRounds + 5 := by
      simp only [remaining, init, Loop.weight, List.length_nil, Nat.sub_zero, JsMap.weigh]
      change _ + 0 + 5 + _ + _ = _
      omega
    omega
  · simp only [step?, Option.ite_none_right_eq_some] at hs
    obtain rfl := Option.some.inj hs.2
    exact iterates_turn _ e
  · rintro (hl | ⟨d, hl⟩)
    · exact absurd hl hr.alive.2
    · exact hb.returned d hl

/-- Whatever is edited meanwhile, the dispatches and the steps are bounded, there is a next step unless the run is paused,
and it returns with no call running. -/
theorem run_bounded (config : Config) (board : Board) (os : List Op) :
    let s := run step (init config board) os
    s.dispatched.length ≤ config.maxTotalWaves + config.slots - 1 ∧
      systemSteps (init config board) os ≤ (init config board).remaining ∧
      (s.loop ≠ .idle → ¬ s.ended → (s.paused = true → s.stopRequested = true) →
        ∃ op : Op, op.system = true ∧ (s.step? op).isSome = true) ∧
      ∀ d, s.loop = .returned d → s.running.size = 0 := by
  have hb : Bounded (run step (init config board) os) :=
    run_invariant (fun _ op h => h.step op) (bounded_init config board) os
  have hsteps := systemSteps_le (bounded_init config board) os
  have hbound := hb.bound
  rw [config_run] at hbound
  exact ⟨hbound, by omega, hb.goes_on, hb.returned⟩

/-- Two tasks that do not wait for each other. -/
def twoTasks : Board := { tracker := (({} : TaskTracker).addNode {}).addNode {} }

def twoSlots : Config := ({ parallelSlots := some 2 } : SddParallelRunOptions).config 2

/-- One of the tasks is deleted when its call is over. -/
theorem run_terminates_two :
    Under step KeepsNodes (init twoSlots twoTasks)
        [.start 0, .turn 0, .allocated 0 false ⟨"a", by decide⟩, .settle 0 (.resolve 1 1), .awaitTasks 0,
          .deleteTask 0] ∧
      Terminates twoSlots twoTasks
        [.start 0, .turn 0, .allocated 0 false ⟨"a", by decide⟩, .settle 0 (.resolve 1 1), .awaitTasks 0,
          .deleteTask 0] := by
  have h : Under step KeepsNodes (init twoSlots twoTasks)
      [.start 0, .turn 0, .allocated 0 false ⟨"a", by decide⟩, .settle 0 (.resolve 1 1), .awaitTasks 0,
        .deleteTask 0] := by
    refine ⟨trivial, trivial, trivial, trivial, trivial, fun a hget => ?_, trivial⟩
    have hnone : (run step (init twoSlots twoTasks) [.start 0, .turn 0,
        .allocated 0 false ⟨"a", by decide⟩, .settle 0 (.resolve 1 1), .awaitTasks 0]).running.get? 0 =
        none := by decide +kernel
    exact absurd (hnone.symm.trans hget) (by simp)
  exact ⟨h, run_terminates _ _ _ h⟩

/-- A task that is cancelled while its worktree is allocated, and deleted, has its call rejected when the
worker is done, and `run()` with it. The other task is still in flight. -/
theorem run_rejects : ¬ ∀ (config : Config) (board : Board) (os : List Op),
    Terminates config board os := by
  intro h
  have hleft := (h twoSlots twoTasks [.start 0, .turn 0, .cancelTask 0, .deleteTask 0,
    .allocated 0 false ⟨"a", by decide⟩, .settle 0 (.resolve 1 1), .awaitTasks 0, .wake 0]).noneLeft
  have hended : (run step (init twoSlots twoTasks) [.start 0, .turn 0, .cancelTask 0, .deleteTask 0,
    .allocated 0 false ⟨"a", by decide⟩, .settle 0 (.resolve 1 1), .awaitTasks 0,
    .wake 0]).loop = .rejected := by decide +kernel
  have hsize := hleft (.inl hended)
  revert hsize
  decide +kernel

/-! ## Blockers -/

/-- A task is dispatched when each of its blockers is completed or has failed, and a task gets completed
by a split, or by its call with all gates behind it. -/
structure BuildsOnFinished (config : Config) (board : Board) (os : List Op) : Prop where
  blockers : ∀ pre op, pre ++ [op] <+: os → ∀ t ∈ newlyDispatched (run step (init config board) pre) op,
    ∀ b ∈ (run step (init config board) pre).board.graph.getBlockers t,
      (run step (init config board) pre).board.graph.finished b = true ∧
        (step (run step (init config board) pre) op).board.graph.finished b = true
  sameBlockers : ∀ pre op, pre ++ [op] <+: os →
    newlyDispatched (run step (init config board) pre) op ≠ [] →
      (step (run step (init config board) pre) op).board.graph.getBlockers =
        (run step (init config board) pre).board.graph.getBlockers
  completions : ∀ pre op, pre ++ [op] <+: os → ∀ t,
    (step (run step (init config board) pre) op).board.statusOf t = some .completed →
      (run step (init config board) pre).board.statusOf t = some .completed ∨ Splits t op ∨
        CompletedBy (run (withHistory step record) (init config board, []) pre).2
          (run step (init config board) pre) op t

def firstThenSecond : Board := twoTasks.addDependency 0 1

def noRetries : Config := ({ parallelSlots := some 1, maxRetries := some 0 } : SddParallelRunOptions).config 2

/-- On a well-formed graph, in every run, the verdicts take effect and a failed attempt lets its task fail
only when the retries and the supervisor are exhausted, exactly when each verdict to requeue or split
finds its task, and one to split finds it not running. -/
theorem rescues_iff (config : Config) (board : Board) (hwf : Wf board.tracker) (os : List Op) :
    (∀ pre op, pre ++ [op] <+: os → Rescues (run step (init config board) pre) op) ↔
      Under step VerdictEffective (init config board) os := by
  rw [under_iff_forall_concat]
  refine forall_congr' fun pre => forall_congr' fun op => forall_congr' fun _ => ?_
  exact rescues_iff_effective (run_invariant (I := fun s : State => Wf s.board.tracker)
    (fun s o h => wf_step h o) hwf pre) op

def supervising : Config :=
  ({ parallelSlots := some 1, maxRetries := some 0, superviseFailure := true } :
    SddParallelRunOptions).config 2

theorem wf_oneTask : Wf oneTask.tracker := wf_init.addNode {}

/-- The task fails and is retried. -/
theorem rescues_iff_retry :
    Wf oneTask.tracker ∧
      ((∀ pre op, pre ++ [op] <+: [.start 0, .turn 0, .allocated 0 false ⟨"a", by decide⟩,
          .settle 0 (.reject (fun _ => ⟨.toolFailed, "no", false⟩) false false 1 1), .awaitTasks 0,
          .supervised 0 (some .retry) 5] →
          Rescues (run step (init supervising oneTask) pre) op) ↔
        Under step VerdictEffective (init supervising oneTask)
          [.start 0, .turn 0, .allocated 0 false ⟨"a", by decide⟩,
            .settle 0 (.reject (fun _ => ⟨.toolFailed, "no", false⟩) false false 1 1), .awaitTasks 0,
            .supervised 0 (some .retry) 5]) :=
  ⟨wf_oneTask, rescues_iff supervising oneTask wf_oneTask _⟩

/-- The task is still in progress when it is to be split, so it fails. -/
theorem split_refused : ¬ ∀ (config : Config) (board : Board), Wf board.tracker → ∀ (os pre : List Op)
    (op : Op), pre ++ [op] <+: os → Rescues (run step (init config board) pre) op := by
  intro h
  have hr := h supervising oneTask wf_oneTask _ [.start 0, .turn 0, .allocated 0 false ⟨"a", by decide⟩,
    .settle 0 (.reject (fun _ => ⟨.toolFailed, "no", false⟩) false false 1 1), .awaitTasks 0]
    (.supervised 0 (some (.split [{}])) 5) (List.prefix_refl _)
  obtain ⟨leafIds, -, hsplit⟩ := hr.effect 0 (some (.split [{}])) 5 "tool_failed: no" 0 true rfl
    (by decide +kernel)
  have hcompleted := hsplit.completed
  revert hcompleted
  decide +kernel

end WrongStack.ParallelRun
