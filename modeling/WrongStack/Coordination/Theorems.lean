import WrongStack.Coordination.Lemmas.Queue

/-!
# The coordinator over whole runs

Runs are sequences of public calls and settlements in any order (`Op`), from a coordinator with a
runner. The only environment is the runner: it settles started executions whenever it likes.
-/

namespace WrongStack.Coordination

open Lib State

/-! ## Accounting -/

def CountsExecutions (s : State) : Prop := s.inFlight = s.runs.length

def OneTaskPerEntry (s : State) : Prop :=
  ∀ r ∈ s.runs, ∀ r' ∈ s.runs, r.entry = r'.entry → r = r'

instance (s : State) : Decidable (CountsExecutions s) :=
  inferInstanceAs (Decidable (s.inFlight = s.runs.length))

instance (s : State) : Decidable (OneTaskPerEntry s) :=
  inferInstanceAs (Decidable (∀ r ∈ s.runs, ∀ r' ∈ s.runs, r.entry = r'.entry → r = r'))

/-- The settlement is not that of a run whose entry was removed and whose id is now busy with
another task. -/
def NoStaleSettlement (s : State) : Op → Prop
  | .settle runId _ => ∀ r ∈ s.runs, r.runId = runId → ¬ StaleOn s r
  | _ => True

instance (s : State) (op : Op) : Decidable (NoStaleSettlement s op) := by
  cases op <;> unfold NoStaleSettlement <;> infer_instance

theorem Exclusive.step {s : State} (h : Exclusive s) (hc : Counted s) (op : Op)
    (hop : NoStaleSettlement s op) : Exclusive (step s op) := by
  cases op with
  | spawn requested randomUUID => exact h.spawn hc requested randomUUID
  | assign task =>
      have hc' : Counted { s with pendingTasks := s.pendingTasks ++ [task] } := hc.congr rfl
      exact Exclusive.tryDispatchNext (h.congr rfl) hc'
  | retargetPendingTask taskId subagentId =>
      change Exclusive (s.retargetPendingTask taskId subagentId).1
      rcases retargetPendingTask_cases s taskId subagentId with heq | ⟨-, heq⟩
      · rw [heq]
        exact h
      · rw [heq]
        exact Exclusive.tryDispatchNext (h.congr rfl) (hc.congr rfl)
  | stop id => exact h.stop id
  | stopAll =>
      exact stopAll_invariant (fun s m hs => hs.congr (drain_accounts m)) (fun _ id hs => hs.stop id) h
  | remove id => exact h.remove id
  | setMaxConcurrent n =>
      rcases setMaxConcurrent_cases s n with heq | ⟨m, heq⟩
      · rw [heq]
        exact h
      · rw [heq]
        exact Exclusive.tryDispatchNext (h.congr rfl) (hc.congr rfl)
  | settle runId how => exact h.settle hc runId how hop

theorem counted_run {config : Config} (hr : config.runner = true) (ops : List Op) :
    Counted (run step (init config) ops) :=
  run_invariant (fun _ op h => h.step op) (counted_init hr) ops

/-- In every reachable state the slots are the unsettled executions; and as long as no settlement
comes from a run whose entry was replaced by one that is busy, no entry executes two tasks. -/
theorem accounting (config : Config) (hr : config.runner = true) (ops : List Op) :
    CountsExecutions (run step (init config) ops) ∧
      (Under step NoStaleSettlement (init config) ops →
        OneTaskPerEntry (run step (init config) ops)) := by
  refine ⟨(counted_run hr ops).inFlight, fun hu => ?_⟩
  have h := run_invariant_under (I := fun s => Counted s ∧ Exclusive s)
    (fun s op hs hop => ⟨hs.1.step op, hs.2.step hs.1 op hop⟩)
    ⟨counted_init hr, exclusive_init config⟩ hu
  exact fun r hr r' hr' => List.inj_on_of_nodup_map h.2.distinct hr hr'

/-- An id freed by `remove` is spawned again, and the removed worker's run settles after it. -/
theorem accounting_respawn :
    CountsExecutions (run step (init {}) [.spawn (some "w") ⟨"u", by decide⟩, .assign { id := "t1" },
        .remove "w", .spawn (some "w") ⟨"u", by decide⟩, .settle 0 (.resolve 1 1),
        .assign { id := "t2" }]) ∧
      OneTaskPerEntry (run step (init {}) [.spawn (some "w") ⟨"u", by decide⟩,
        .assign { id := "t1" }, .remove "w", .spawn (some "w") ⟨"u", by decide⟩,
        .settle 0 (.resolve 1 1), .assign { id := "t2" }]) :=
  ⟨(accounting {} rfl _).1, (accounting {} rfl _).2 (by decide)⟩

/-- When it settles only after the new worker has started a task, that worker gets a second one. -/
theorem accounting_stale_settlement :
    ¬ ∀ ops : List Op, CountsExecutions (run step (init {}) ops) ∧
      OneTaskPerEntry (run step (init {}) ops) := by
  intro h
  have h2 := (h [.spawn (some "w") ⟨"u", by decide⟩, .assign { id := "t1" }, .remove "w",
    .spawn (some "w") ⟨"u", by decide⟩, .assign { id := "t2" }, .settle 0 (.resolve 1 1),
    .assign { id := "t3" }]).2
  revert h2
  decide

/-! ## The queue -/

/-- Each of the tasks `ids` has at most one `task.completed` event, and one without is executing or
pending. -/
def NoTaskLost (ids : List String) (s : State) : Prop :=
  ∀ id ∈ ids, s.completedIds.count id ≤ 1 ∧
    (id ∉ s.completedIds → id ∈ s.executingIds ∨ id ∈ s.pendingIds)

/-- The operation does not leave behind, with a slot free, a task that a spawned worker could start,
or one pinned to a stopped subagent while another subagent is live. -/
def LeavesNoneBehind (s : State) : Op → Prop
  | .spawn requested randomUUID =>
      s.hasSlot = true → s.subagents.has ((truthy requested).getD randomUUID) = false →
        ∀ t ∈ s.pendingTasks, truthy t.subagentId ≠ none ∧
          truthy t.subagentId ≠ some ((truthy requested).getD randomUUID)
  | .assign task => NoDeadPin { s with pendingTasks := s.pendingTasks ++ [task] }
  | .retargetPendingTask taskId subagentId =>
      NoDeadPin { s with pendingTasks := retargetIn taskId subagentId s.pendingTasks }
  | .stop id => s.hasSlot = true → s.subagents.has id = true →
      ∀ t ∈ s.pendingTasks, t.subagentId ≠ some id
  | .stopAll | .remove _ => True
  | .setMaxConcurrent n =>
      ∀ m ∈ n, 1 ≤ m → NoDeadPin { s with config := { s.config with maxConcurrent := some ⌊m⌋ } }
  | .settle runId _ =>
      ∀ r ∈ s.runs, r.runId = runId → NoDeadPin { s with inFlight := s.inFlight - 1 }

instance (s : State) (op : Op) : Decidable (LeavesNoneBehind s op) := by
  cases op <;> unfold LeavesNoneBehind <;> infer_instance

instance (ids : List String) (s : State) : Decidable (NoTaskLost ids s) := by
  unfold NoTaskLost
  infer_instance

theorem QueueMoves.step {s : State} (h : QueueMoves s) (hc : Counted s) (h0 : s.view "" = none)
    (op : Op) (hop : LeavesNoneBehind s op) : QueueMoves (step s op) := by
  cases op with
  | spawn requested randomUUID => exact h.spawn requested randomUUID hop
  | assign task => exact NoDeadPin.tryDispatchNext hop h0
  | retargetPendingTask taskId subagentId =>
      change QueueMoves (s.retargetPendingTask taskId subagentId).1
      rcases retargetPendingTask_cases s taskId subagentId with heq | ⟨-, heq⟩
      · rw [heq]
        exact h
      · rw [heq]
        exact NoDeadPin.tryDispatchNext hop h0
  | stop id => exact h.stop hop
  | stopAll =>
      have hempty : s.stopAll.pendingTasks = [] := by
        unfold stopAll
        refine List.foldlRecOn (motive := fun x : State => x.pendingTasks = []) _ _ ?_ ?_
        · rw [drainPendingAsAborted_eq]
        · exact fun x hx id _ => (stop_eq x id).2.2.2.2.2.trans hx
      intro _ _ t ht
      change t ∈ s.stopAll.pendingTasks at ht
      simp [hempty] at ht
  | remove id => exact h.remove id
  | setMaxConcurrent n =>
      cases n with
      | none => exact h
      | some n =>
          change QueueMoves ((s.setMaxConcurrent (some n)).toOption.getD s)
          by_cases hn : n < 1
          · simp only [setMaxConcurrent, hn, ↓reduceIte]
            exact h
          · simp only [setMaxConcurrent, hn, ↓reduceIte]
            exact NoDeadPin.tryDispatchNext (hop n rfl (not_lt.mp hn)) h0
  | settle runId how =>
      have hfreed : ∀ r ∈ s.runs, r.runId = runId → QueueMoves (s.freed r how).tryDispatchNext := by
        intro r hr hid
        refine (NoDeadPin.freed hc r how (hop r hr hid)).tryDispatchNext ?_
        rw [freed_view]
        split <;> simp [h0]
      change QueueMoves (s.settle runId how)
      rcases settle_cases hc runId how with heq | ⟨r, hr, hid, heq | ⟨e, -, heq⟩⟩
      · rw [heq]
        exact h
      · rw [heq]
        exact hfreed r hr hid
      · rw [heq]
        exact hfreed r hr hid

/-- Each assignment is queued, executing or reported as completed, exactly once. -/
theorem assignments_conserved (config : Config) (hr : config.runner = true) (ops : List Op) :
    (run step (init config) ops).taskIds.Perm (ops.flatMap Op.assignedIds) :=
  run_taskIds (counted_init hr) ops

theorem assignments_conserved_twice :
    (run step (init {}) [.assign { id := "t" }, .stopAll, .assign { id := "t" }]).taskIds.Perm ["t", "t"] :=
  assignments_conserved {} rfl _

theorem noTaskLost_run {config : Config} (hr : config.runner = true) {ops : List Op}
    (hfresh : (ops.flatMap Op.assignedIds).Nodup) :
    NoTaskLost (ops.flatMap Op.assignedIds) (run step (init config) ops) := by
  have hcount := (run_taskIds (counted_init hr) ops).count_eq
  have h0 : (init config).taskIds = [] := rfl
  intro id hid
  have hone := hcount id
  rw [h0, List.nil_append, List.count_eq_one_of_mem hfresh hid, count_taskIds] at hone
  refine ⟨by omega, fun hnot => ?_⟩
  rw [List.count_eq_zero_of_not_mem hnot] at hone
  rcases Nat.eq_zero_or_pos ((run step (init config) ops).executingIds.count id) with h | h
  · exact .inr (List.count_pos_iff.mp (by omega))
  · exact .inl (List.count_pos_iff.mp h)

/-- No assigned task is ever lost; and as long as no operation leaves one behind, nothing in the
queue is runnable or pinned to a stopped subagent while there is a free slot. -/
theorem no_task_stranded (config : Config) (hr : config.runner = true) (ops : List Op)
    (hfresh : (ops.flatMap Op.assignedIds).Nodup) :
    NoTaskLost (ops.flatMap Op.assignedIds) (run step (init config) ops) ∧
      (Under step LeavesNoneBehind (init config) ops → QueueMoves (run step (init config) ops)) := by
  refine ⟨noTaskLost_run hr hfresh, fun hu => ?_⟩
  have h := run_invariant_under
    (I := fun s => Counted s ∧ s.view "" = none ∧ QueueMoves s)
    (fun s op hs hop => ⟨hs.1.step op, step_view_empty hs.1 hs.2.1 op,
      hs.2.2.step hs.1 hs.2.1 op hop⟩)
    ⟨counted_init hr, rfl, fun hsize => absurd rfl hsize⟩ hu
  exact h.2.2

/-- Two tasks for one worker, which is stopped when the second has started. -/
theorem no_task_stranded_pinned :
    NoTaskLost ["t1", "t2"] (run step (init {}) [.spawn (some "w") ⟨"u", by decide⟩,
        .spawn none ⟨"v", by decide⟩, .assign { id := "t1", subagentId := some "w" },
        .assign { id := "t2", subagentId := some "w" }, .settle 0 (.resolve 1 1), .stop "w"]) ∧
      QueueMoves (run step (init {}) [.spawn (some "w") ⟨"u", by decide⟩,
        .spawn none ⟨"v", by decide⟩, .assign { id := "t1", subagentId := some "w" },
        .assign { id := "t2", subagentId := some "w" }, .settle 0 (.resolve 1 1), .stop "w"]) := by
  have h := no_task_stranded {} rfl [.spawn (some "w") ⟨"u", by decide⟩,
    .spawn none ⟨"v", by decide⟩, .assign { id := "t1", subagentId := some "w" },
    .assign { id := "t2", subagentId := some "w" }, .settle 0 (.resolve 1 1), .stop "w"] (by decide)
  exact ⟨h.1, h.2 (by decide)⟩

/-- When it is stopped before, the second task stays pinned to it for as long as the other worker
is live. -/
theorem no_task_stranded_stopped :
    ¬ ∀ ops : List Op, (ops.flatMap Op.assignedIds).Nodup →
      NoTaskLost (ops.flatMap Op.assignedIds) (run step (init {}) ops) ∧
        QueueMoves (run step (init {}) ops) := by
  intro h
  have h2 := (h [.spawn (some "w") ⟨"u", by decide⟩, .spawn none ⟨"v", by decide⟩,
    .assign { id := "t1", subagentId := some "w" }, .assign { id := "t2", subagentId := some "w" },
    .stop "w", .settle 0 (.resolve 1 1)] (by decide)).2
  revert h2
  decide

end WrongStack.Coordination
