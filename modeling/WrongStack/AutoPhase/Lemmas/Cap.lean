import Mathlib.Data.List.Dedup
import WrongStack.AutoPhase.Lemmas.Steps

/-!
# Which phases a step starts

A step either starts phases that have not been started, or settles: it starts none and puts none back. Only `start`
and the board put phases back.
-/

namespace WrongStack.AutoPhase

open Lib Sdd

variable {o : PhaseOrchestratorOptions} {w w' w'' : PhaseOrchestrator} {g : PhaseGraph} {id : PhaseId}
  {ids ids' : List PhaseId} {a : Answer} {i k : Nat}

namespace PhaseOrchestrator

/-- A phase that `startPhase` would start. -/
def unstarted (w : PhaseOrchestrator) (id : PhaseId) : Bool :=
  w.graph.statusOf id == some .pending || w.graph.statusOf id == some .ready

/-- The number of phases that are running. -/
def running (w : PhaseOrchestrator) : Nat := w.graph.getActivePhases.length

/-- The number of phases that a batch would start. -/
def toStart (w : PhaseOrchestrator) (batch : List PhaseId) : Nat := (batch.filter w.unstarted).dedup.length

/-- The phases that a step has started: the new calls that have not returned at once. -/
def startedBy (w w' : PhaseOrchestrator) : List PhaseId :=
  ((w'.phaseCalls.drop w.phaseCalls.length).filter fun c => c.stage != .returned).map PhaseCall.phaseId

end PhaseOrchestrator

theorem mem_getActivePhases : id ∈ g.getActivePhases ↔ g.statusOf id = some .running := by
  unfold PhaseGraph.getActivePhases PhaseGraph.statusOf
  rw [Option.map_eq_some_iff]
  simp only [List.mem_map, List.mem_filter, Prod.exists, exists_and_right, exists_eq_right, JsMap.mem_entries_iff,
    beq_iff_eq]

theorem nodup_getActivePhases (g : PhaseGraph) : g.getActivePhases.Nodup :=
  g.phases.nodup.sublist (List.filter_sublist.map Prod.fst)

/-! ## Steps that start nothing -/

/-- Nothing is started, put back or forgotten while it runs. -/
structure Settles (w w' : PhaseOrchestrator) : Prop where
  running : ∀ id, w'.graph.statusOf id = some .running → w.graph.statusOf id = some .running
  unstarted : ∀ id, w'.unstarted id = true → w.unstarted id = true
  inFlight : ∀ id ∈ w.runningPhases, w'.graph.statusOf id = some .running → id ∈ w'.runningPhases
  calls : w'.phaseCalls.length = w.phaseCalls.length

theorem Settles.trans (h : Settles w w') (h' : Settles w' w'') : Settles w w'' where
  running id hid := h.running id (h'.running id hid)
  unstarted id hid := h.unstarted id (h'.unstarted id hid)
  inFlight id hid hrun := h'.inFlight id (h.inFlight id hid (h'.running id hrun)) hrun
  calls := h'.calls.trans h.calls

theorem Settles.of_same (hstatus : w'.graph.statusOf = w.graph.statusOf) (hrunning : w'.runningPhases = w.runningPhases)
    (hcalls : w'.phaseCalls.length = w.phaseCalls.length) : Settles w w' where
  running id hid := by rwa [hstatus] at hid
  unstarted id hid := by
    unfold PhaseOrchestrator.unstarted at hid ⊢
    rwa [hstatus] at hid
  inFlight id hid _ := by rwa [hrunning]
  calls := hcalls

theorem Settles.refl (w : PhaseOrchestrator) : Settles w w := .of_same rfl rfl rfl

theorem Settles.of_setStatus {status : PhaseStatus} (hrun : status ≠ .running) (hpending : status ≠ .pending)
    (hready : status ≠ .ready) (hstatus : w'.graph.statusOf = setStatus w.graph.statusOf id status)
    (hrunning : ∀ id' ∈ w.runningPhases, id' ≠ id → id' ∈ w'.runningPhases)
    (hcalls : w'.phaseCalls.length = w.phaseCalls.length) : Settles w w' := by
  have hself : ∀ s, w'.graph.statusOf id = some s → s = status := by
    intro s hs
    rw [hstatus, setStatus, if_pos rfl, Option.map_eq_some_iff] at hs
    obtain ⟨-, -, rfl⟩ := hs
    rfl
  refine ⟨fun id' hid => ?_, fun id' hid => ?_, fun id' hid hrun' => ?_, hcalls⟩
  · by_cases heq : id = id'
    · subst heq
      exact absurd (hself _ hid).symm hrun
    · rwa [hstatus, setStatus_of_ne heq] at hid
  · unfold PhaseOrchestrator.unstarted at hid ⊢
    by_cases heq : id = id'
    · subst heq
      rw [Bool.or_eq_true, beq_iff_eq, beq_iff_eq] at hid
      rcases hid with hid | hid
      · exact absurd (hself _ hid).symm hpending
      · exact absurd (hself _ hid).symm hready
    · rwa [hstatus, setStatus_of_ne heq] at hid
  · refine hrunning id' hid fun heq => ?_
    subst heq
    exact absurd (hself _ hrun').symm hrun

theorem Settles.setCall (h : Settles w w') (i : Nat) (id : PhaseId) (stage : PhaseStage) :
    Settles w (w'.setCall i id stage) :=
  h.trans (.of_same rfl rfl (by simp [PhaseOrchestrator.setCall]))

theorem settles_modifyPhase {f : PhaseNode → PhaseNode} (hf : ∀ p, (f p).status = p.status) :
    Settles w (w.modifyPhase id f) :=
  .of_same (sameBook_modifyPhase hf).statusOf rfl rfl

theorem settles_nextBatch (w : PhaseOrchestrator) (i : Nat) (id : PhaseId) : Settles w (w.nextBatch o i id) := by
  unfold PhaseOrchestrator.nextBatch
  simp only
  split
  · exact (Settles.refl w).setCall i id _
  · exact (settles_modifyPhase fun p => startTasks_status p _).setCall i id _

theorem settles_markTask (w : PhaseOrchestrator) (id : PhaseId) (fulfilled : List TaskId) (t : TaskId) :
    Settles w (w.markTask o id fulfilled t) := by
  refine .of_same (sameBook_markTask w id fulfilled t).statusOf ?_ ?_
  · unfold PhaseOrchestrator.markTask PhaseOrchestrator.markTaskFailed
    simp only
    split
    · rfl
    · split <;> rfl
  · unfold PhaseOrchestrator.markTask PhaseOrchestrator.markTaskFailed
    simp only
    split
    · rfl
    · split <;> rfl

theorem settles_markTasks (batch : List TaskId) (w : PhaseOrchestrator) (id : PhaseId) (fulfilled : List TaskId) :
    Settles w (batch.foldl (fun w t => w.markTask o id fulfilled t) w) := by
  induction batch generalizing w with
  | nil => exact .refl w
  | cons t batch ih => exact (settles_markTask w id fulfilled t).trans (ih _)

theorem settles_endPhase (w : PhaseOrchestrator) (id : PhaseId) {status : PhaseStatus} (hrun : status ≠ .running)
    (hpending : status ≠ .pending) (hready : status ≠ .ready) : Settles w (w.endPhase id status) :=
  .of_setStatus hrun hpending hready statusOf_updatePhaseStatus
    (fun id' hid hne => List.mem_filter.mpr ⟨hid, by simpa using hne⟩) rfl

theorem settles_completePhase (w : PhaseOrchestrator) (id : PhaseId) : Settles w (w.completePhase id) := by
  have hended : Settles w (w.endPhase id .completed) := settles_endPhase w id (by decide) (by decide) (by decide)
  exact hended.trans (.of_same rfl rfl rfl)

theorem settles_failTasks (w : PhaseOrchestrator) (id : PhaseId) : Settles w (w.failTasks id) :=
  settles_endPhase w id (by decide) (by decide) (by decide)

theorem settles_failPhase (w : PhaseOrchestrator) (id : PhaseId) : Settles w (w.failPhase id) := by
  have hended : Settles w (w.endPhase id .failed) := settles_endPhase w id (by decide) (by decide) (by decide)
  exact hended.trans (.of_same rfl rfl rfl)

theorem settles_markPhaseMergeFailed (w : PhaseOrchestrator) (id : PhaseId) : Settles w (w.markPhaseMergeFailed id) :=
  .of_setStatus (by decide) (by decide) (by decide) (statusOf_markPhaseMergeFailed w id) (fun _ hid _ => hid) rfl

theorem settles_keepWorktreeForReview (h : Settles w w') (i : Nat) (id : PhaseId) :
    Settles w (w'.keepWorktreeForReview o i id) := h.setCall i id _

theorem settles_failPhaseAfterTasks (w : PhaseOrchestrator) (i : Nat) (id : PhaseId) (a : Answer) :
    Settles w (w.failPhaseAfterTasks o i id a) := by
  unfold PhaseOrchestrator.failPhaseAfterTasks
  simp only
  have hfailed := settles_failTasks w id
  split
  · have htwice := hfailed.trans (settles_failPhase _ id)
    split
    · exact htwice.setCall i id _
    · exact settles_keepWorktreeForReview htwice i id
  · exact settles_keepWorktreeForReview hfailed i id

theorem settles_resumeCall (w : PhaseOrchestrator) (i : Nat) (id : PhaseId) (a : Answer) (stage : PhaseStage) :
    Settles w (w.resumeCall o i id a stage) := by
  have hset (stage : PhaseStage) : Settles w (w.setCall i id stage) := (Settles.refl w).setCall i id stage
  cases stage with
  | allocate =>
      simp only [PhaseOrchestrator.resumeCall]
      split
      · have hworktree : Settles w { w with phaseWorktrees := id :: w.phaseWorktrees } := .of_same rfl rfl rfl
        exact hworktree.trans (settles_nextBatch _ i id)
      · exact settles_nextBatch w i id
  | executeTasks batch => exact (settles_markTasks batch w id a.fulfilled).trans (settles_nextBatch _ i id)
  | tasksDone =>
      simp only [PhaseOrchestrator.resumeCall]
      split
      · exact settles_failPhaseAfterTasks w i id a
      · split
        · exact hset _
        · exact hset _
  | verifyPhase attempt =>
      simp only [PhaseOrchestrator.resumeCall]
      split
      · exact hset _
      · split
        · exact hset _
        · exact hset _
  | repairPhase attempt => exact hset _
  | verified ok =>
      cases ok with
      | true =>
          simp only [PhaseOrchestrator.resumeCall]
          have hcompleted := settles_completePhase w id
          split
          · have hfailed := hcompleted.trans (settles_failPhase _ id)
            split
            · exact hfailed.setCall i id _
            · exact settles_keepWorktreeForReview hfailed i id
          · exact hcompleted.setCall i id _
      | false => exact settles_failPhaseAfterTasks w i id a
  | commitAll =>
      have hmerge : Settles w (w.commitAndEnqueueMerge id) := .of_same rfl rfl rfl
      exact hmerge.setCall i id _
  | keepCommit =>
      have hkept : Settles w (w.setIntegrationMetadata id .notMergedFailedPhase) := settles_modifyPhase fun _ => rfl
      exact hkept.setCall i id _
  | keepRelease => exact hset _
  | returned => exact .refl w
  | rejected => exact .refl w

theorem Settles.setMerge (h : Settles w w') (k : Nat) (id : PhaseId) (stage : MergeStage) :
    Settles w (w'.setMerge k id stage) := h.trans (.of_same rfl rfl rfl)

theorem settles_setIntegrationMetadata (w : PhaseOrchestrator) (id : PhaseId) (status : IntegrationStatus) :
    Settles w (w.setIntegrationMetadata id status) := settles_modifyPhase fun _ => rfl

theorem settles_failMerge (w : PhaseOrchestrator) (k : Nat) (id : PhaseId) (a : Answer) :
    Settles w (w.failMerge k id a) := by
  unfold PhaseOrchestrator.failMerge
  simp only
  have hfailed := (settles_setIntegrationMetadata w id .mergeFailed).trans (settles_markPhaseMergeFailed _ id)
  split
  · exact (hfailed.trans (settles_markPhaseMergeFailed _ id)).setMerge k id _
  · exact hfailed.setMerge k id _

theorem settles_resumeMerge (w : PhaseOrchestrator) (k : Nat) (id : PhaseId) (a : Answer) (stage : MergeStage) :
    Settles w (w.resumeMerge o k id a stage) := by
  cases stage with
  | deps awaited =>
      simp only [PhaseOrchestrator.resumeMerge]
      split
      · have hqueue : Settles w { w with mergeQueue := w.mergeQueue ++ [k] } := .of_same rfl rfl rfl
        exact hqueue.setMerge k id _
      · exact .refl w
  | queued behind =>
      simp only [PhaseOrchestrator.resumeMerge]
      split
      · exact .refl w
      · split
        · exact (settles_markPhaseMergeFailed w id).setMerge k id _
        · exact (Settles.refl w).setMerge k id _
  | merge stage =>
      simp only [PhaseOrchestrator.resumeMerge]
      split
      · exact settles_failMerge w k id a
      · have hrepo (repo : Worktree.Repo) : Settles w { w with repo } := .of_same rfl rfl rfl
        split
        · exact (hrepo _).setMerge k id _
        · exact ((hrepo _).trans (settles_setIntegrationMetadata _ id .merged)).setMerge k id _
        · exact ((hrepo _).trans (settles_setIntegrationMetadata _ id .needsReview)).setMerge k id _
  | release =>
      simp only [PhaseOrchestrator.resumeMerge]
      split
      · exact settles_failMerge w k id a
      · exact (Settles.refl w).setMerge k id _
  | settled rejected => exact .refl w

theorem settles_stop (w : PhaseOrchestrator) : Settles w w.stop := by
  have hstatus := (foldl_pause w.runningPhases w.graph).1
  have hof (id : PhaseId) : w.stop.graph.statusOf id =
      if id ∈ w.runningPhases then (w.graph.statusOf id).map fun _ => .paused else w.graph.statusOf id :=
    congrFun hstatus id
  have hkept {id : PhaseId} {s : PhaseStatus} (hs : w.stop.graph.statusOf id = some s) (hne : s ≠ .paused) :
      w.graph.statusOf id = some s := by
    rw [hof] at hs
    split at hs
    · obtain ⟨-, -, rfl⟩ := Option.map_eq_some_iff.mp hs
      exact absurd rfl hne
    · exact hs
  refine ⟨fun id hid => hkept hid (by decide), fun id hid => ?_, fun id hid _ => hid, rfl⟩
  unfold PhaseOrchestrator.unstarted at hid ⊢
  rw [Bool.or_eq_true, beq_iff_eq, beq_iff_eq] at hid ⊢
  exact hid.imp (hkept · (by decide)) (hkept · (by decide))

theorem Settles.setDriver (h : Settles w w') (k : Nat) (driver : Driver) : Settles w (w'.setDriver k driver) :=
  h.trans (.of_same rfl rfl rfl)

theorem settles_endTick (w : PhaseOrchestrator) : Settles w (w.endTick o) := by
  unfold PhaseOrchestrator.endTick
  split
  · exact settles_stop w
  · exact .refl w

theorem settles_startLoop (w : PhaseOrchestrator) (k : Nat) (readyPhases : List PhaseId) :
    Settles w (w.startLoop k readyPhases) := by
  unfold PhaseOrchestrator.startLoop
  split
  · exact (Settles.refl w).setDriver k _
  · exact (Settles.refl w).setDriver k _

theorem Settles.startedBy (h : Settles w w') : w.startedBy w' = [] := by
  unfold PhaseOrchestrator.startedBy
  rw [List.drop_of_length_le (by rw [h.calls])]
  rfl

theorem Settles.running_le (h : Settles w w') : w'.running ≤ w.running :=
  (List.subperm_of_subset (nodup_getActivePhases _) fun id hid =>
    mem_getActivePhases.mpr (h.running id (mem_getActivePhases.mp hid))).length_le

/-! ## Steps that start phases -/

/-- The phases `ids` are started, and nothing else happens to a status. -/
structure Starts (w w' : PhaseOrchestrator) (ids : List PhaseId) : Prop where
  status : ∀ id, w'.graph.statusOf id = if id ∈ ids then some .running else w.graph.statusOf id
  unstarted : ∀ id ∈ ids, w.unstarted id = true
  nodup : ids.Nodup
  inFlight : ∀ id, id ∈ ids ∨ id ∈ w.runningPhases → id ∈ w'.runningPhases
  calls : ∃ calls, w'.phaseCalls = w.phaseCalls ++ calls ∧
    (calls.filter fun c => c.stage != .returned).map PhaseCall.phaseId = ids

theorem Starts.refl (w : PhaseOrchestrator) : Starts w w [] :=
  ⟨fun _ => rfl, fun _ h => absurd h List.not_mem_nil, List.nodup_nil, fun _ h => h.resolve_left List.not_mem_nil,
    [], (List.append_nil _).symm, rfl⟩

theorem not_unstarted_of_running (h : w.graph.statusOf id = some .running) : w.unstarted id = false := by
  unfold PhaseOrchestrator.unstarted
  rw [h]
  rfl

/-- What is left to start after some phases have been started. -/
theorem Starts.unstarted_iff (h : Starts w w' ids) : w'.unstarted id = true ↔ id ∉ ids ∧ w.unstarted id = true := by
  by_cases hid : id ∈ ids
  · have hrun : w'.graph.statusOf id = some .running := by rw [h.status, if_pos hid]
    simp [not_unstarted_of_running hrun, hid]
  · unfold PhaseOrchestrator.unstarted
    rw [h.status, if_neg hid]
    simp [hid]

theorem Starts.trans (h : Starts w w' ids) (h' : Starts w' w'' ids') : Starts w w'' (ids ++ ids') where
  status id := by
    rw [h'.status, h.status]
    by_cases hid' : id ∈ ids' <;> by_cases hid : id ∈ ids <;> simp [hid, hid']
  unstarted id hid := by
    rcases List.mem_append.mp hid with hid | hid
    · exact h.unstarted id hid
    · exact (h.unstarted_iff.mp (h'.unstarted id hid)).2
  nodup := List.nodup_append.mpr ⟨h.nodup, h'.nodup, fun id hid id' hid' heq => by
    subst heq
    exact (h.unstarted_iff.mp (h'.unstarted id hid')).1 hid⟩
  inFlight id hid := by
    rw [List.mem_append, or_assoc, or_left_comm] at hid
    exact h'.inFlight id (hid.imp_right (h.inFlight id))
  calls := by
    obtain ⟨calls, hcalls, hids⟩ := h.calls
    obtain ⟨calls', hcalls', hids'⟩ := h'.calls
    refine ⟨calls ++ calls', by rw [hcalls', hcalls, List.append_assoc], ?_⟩
    rw [List.filter_append, List.map_append, hids, hids']

theorem Starts.setDriver (h : Starts w w' ids) (k : Nat) (driver : Driver) : Starts w (w'.setDriver k driver) ids :=
  ⟨h.status, h.unstarted, h.nodup, h.inFlight, h.calls⟩

theorem Starts.startedBy (h : Starts w w' ids) : w.startedBy w' = ids := by
  obtain ⟨calls, hcalls, hids⟩ := h.calls
  rw [PhaseOrchestrator.startedBy, hcalls, List.drop_left, hids]

theorem Starts.running_eq (h : Starts w w' ids) : w'.running = w.running + ids.length := by
  have hperm : List.Perm w'.graph.getActivePhases (w.graph.getActivePhases ++ ids) := by
    have hdisjoint : ∀ id ∈ w.graph.getActivePhases, ∀ id' ∈ ids, id ≠ id' := by
      rintro id hid id' hid' rfl
      have hnot := not_unstarted_of_running (mem_getActivePhases.mp hid)
      rw [h.unstarted id hid'] at hnot
      cases hnot
    refine (List.perm_ext_iff_of_nodup (nodup_getActivePhases _)
      (List.nodup_append.mpr ⟨nodup_getActivePhases _, h.nodup, hdisjoint⟩)).mpr fun id => ?_
    rw [List.mem_append, mem_getActivePhases, mem_getActivePhases, h.status]
    by_cases hid : id ∈ ids <;> simp [hid]
  unfold PhaseOrchestrator.running
  rw [hperm.length_eq, List.length_append]

/-- What the first batch of a phase changes is not its status. -/
theorem nextBatch_calls (w : PhaseOrchestrator) (i : Nat) (id : PhaseId) :
    ∃ stage, stage ≠ .returned ∧ (w.nextBatch o i id).phaseCalls = w.phaseCalls.set i { phaseId := id, stage } ∧
      (w.nextBatch o i id).runningPhases = w.runningPhases := by
  unfold PhaseOrchestrator.nextBatch
  simp only
  split
  · exact ⟨.tasksDone, by decide, rfl, rfl⟩
  · exact ⟨.executeTasks _, by simp, rfl, rfl⟩

theorem mem_runningPhases_beginPhase (w : PhaseOrchestrator) {id' : PhaseId} (h : id' = id ∨ id' ∈ w.runningPhases) :
    id' ∈ (w.beginPhase id).runningPhases := by
  simp only [PhaseOrchestrator.beginPhase]
  by_cases hmem : id ∈ w.runningPhases
  · rw [if_pos hmem]
    exact h.elim (fun heq => heq ▸ hmem) (fun hid' => hid')
  · rw [if_neg hmem, List.mem_append, List.mem_singleton]
    exact h.symm

theorem starts_startPhase (w : PhaseOrchestrator) (id : PhaseId) :
    Starts w (w.startPhase o id) (if w.unstarted id then [id] else []) := by
  unfold PhaseOrchestrator.startPhase PhaseOrchestrator.unstarted
  by_cases hs : w.graph.statusOf id = some .pending ∨ w.graph.statusOf id = some .ready
  · have hunstarted : w.unstarted id = true := by
      unfold PhaseOrchestrator.unstarted
      rwa [Bool.or_eq_true, beq_iff_eq, beq_iff_eq]
    have hbegun : ∀ id', ((w.pushCall id .allocate).beginPhase id).graph.statusOf id' =
        if id' ∈ [id] then some .running else w.graph.statusOf id' := by
      intro id'
      refine (congrFun (statusOf_updatePhaseStatus (g := w.graph)) id').trans ?_
      unfold setStatus
      by_cases heq : id = id'
      · subst heq
        rcases hs with hs | hs <;> simp [hs]
      · simp [heq, Ne.symm heq]
    have hflight : ∀ id', id' ∈ [id] ∨ id' ∈ w.runningPhases →
        id' ∈ ((w.pushCall id .allocate).beginPhase id).runningPhases := by
      intro id' hid'
      exact mem_runningPhases_beginPhase (w.pushCall id .allocate) (hid'.imp_left List.mem_singleton.mp)
    have hif : (if (w.graph.statusOf id == some .pending || w.graph.statusOf id == some .ready) = true then [id]
        else []) = [id] := if_pos hunstarted
    rw [hif, if_pos hs]
    simp only
    split
    · exact ⟨hbegun, by simpa using hunstarted, List.nodup_singleton id, hflight,
        [{ phaseId := id, stage := .allocate }], rfl, rfl⟩
    · obtain ⟨stage, hstage, hcalls, hrunning⟩ :=
        nextBatch_calls (o := o) ((w.pushCall id .allocate).beginPhase id) w.phaseCalls.length id
      refine ⟨fun id' => ?_, by simpa using hunstarted, List.nodup_singleton id, fun id' hid' => ?_,
        [{ phaseId := id, stage }], ?_, ?_⟩
      · rw [(sameBook_nextBatch _ _ id).statusOf]
        exact hbegun id'
      · rw [hrunning]
        exact hflight id' hid'
      · rw [hcalls]
        simp [PhaseOrchestrator.beginPhase, PhaseOrchestrator.pushCall]
      · simp [hstage]
  · have hif : (if (w.graph.statusOf id == some .pending || w.graph.statusOf id == some .ready) = true then [id]
        else []) = [] := if_neg (by rwa [Bool.or_eq_true, beq_iff_eq, beq_iff_eq])
    rw [hif, if_neg hs]
    exact ⟨fun _ => rfl, by simp, List.nodup_nil, by simp [PhaseOrchestrator.pushCall],
      [{ phaseId := id, stage := .returned }], rfl, rfl⟩

/-- A batch starts its phases that have not been started. -/
theorem starts_startPhases (batch : List PhaseId) (w : PhaseOrchestrator) :
    ∃ ids, Starts w (w.startPhases o batch) ids ∧ ∀ id, id ∈ ids ↔ id ∈ batch ∧ w.unstarted id = true := by
  induction batch generalizing w with
  | nil => exact ⟨[], .refl w, by simp⟩
  | cons id batch ih =>
      have hfirst := starts_startPhase (o := o) w id
      obtain ⟨ids, hids, hmem⟩ := ih (w.startPhase o id)
      refine ⟨_, hfirst.trans hids, fun id' => ?_⟩
      rw [List.mem_append, hmem, hfirst.unstarted_iff, List.mem_cons]
      by_cases hid : w.unstarted id = true
      · rw [if_pos hid, List.mem_singleton]
        by_cases heq : id' = id
        · simp [heq, hid]
        · simp [heq]
      · rw [if_neg hid]
        by_cases heq : id' = id
        · simp [heq, hid]
        · simp [heq]

/-- `tickLoop` starts the first phase of its list that is still pending. -/
theorem tickLoop_cases (w : PhaseOrchestrator) (k : Nat) (rest : List PhaseId) :
    (∃ id ∈ rest, w.graph.statusOf id = some .pending ∧ Starts w (w.tickLoop o k rest) [id]) ∨
      (∀ id ∈ rest, w.graph.statusOf id ≠ some .pending) ∧ Settles w (w.tickLoop o k rest) := by
  induction rest with
  | nil => exact .inr ⟨fun _ h => absurd h List.not_mem_nil, (settles_endTick w).setDriver k _⟩
  | cons id rest ih =>
      unfold PhaseOrchestrator.tickLoop
      split
      · rename_i hs
        have hstart := starts_startPhase (o := o) w id
        rw [if_pos (by simp [PhaseOrchestrator.unstarted, hs])] at hstart
        exact .inl ⟨id, List.mem_cons_self, hs, hstart.setDriver k _⟩
      · rename_i hs
        rcases ih with ⟨id', hid', hpending, hstart⟩ | ⟨hnone, hsettles⟩
        · exact .inl ⟨id', List.mem_cons_of_mem id hid', hpending, hstart⟩
        · exact .inr ⟨List.forall_mem_cons.mpr ⟨hs, hnone⟩, hsettles⟩

end WrongStack.AutoPhase
