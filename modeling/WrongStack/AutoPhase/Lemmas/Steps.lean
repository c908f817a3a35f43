import WrongStack.AutoPhase.Lemmas.Bookkeeping

/-!
# What a step does to the lists

Working on tasks leaves statuses and lists alone; so the steps that matter are those that begin, end, pause or
requeue a phase.
-/

namespace WrongStack.AutoPhase

open Lib Sdd

variable {o : PhaseOrchestratorOptions} {w : PhaseOrchestrator} {g : PhaseGraph} {id : PhaseId} {a : Answer} {i k : Nat}

theorem updateNodeStatus_status (p : PhaseNode) (t : TaskId) (status : TaskStatus) :
    (p.updateNodeStatus t status).status = p.status := by
  unfold PhaseNode.updateNodeStatus
  split <;> rfl

theorem startTasks_status (p : PhaseNode) (batch : List TaskId) :
    (PhaseOrchestrator.startTasks p batch).status = p.status := by
  unfold PhaseOrchestrator.startTasks
  induction batch generalizing p with
  | nil => rfl
  | cons t batch ih =>
      rw [List.foldl_cons, ih]
      exact updateNodeStatus_status p t _

theorem sameBook_updateNodeStatus (t : TaskId) (status : TaskStatus) :
    SameBook g (g.modifyPhase id fun p => p.updateNodeStatus t status) :=
  sameBook_modifyPhase fun p => updateNodeStatus_status p t status

theorem sameBook_setIntegrationMetadata (status : IntegrationStatus) :
    SameBook w.graph (w.setIntegrationMetadata id status).graph :=
  sameBook_modifyPhase fun _ => rfl

theorem sameBook_nextBatch (w : PhaseOrchestrator) (i : Nat) (id : PhaseId) :
    SameBook w.graph (w.nextBatch o i id).graph := by
  unfold PhaseOrchestrator.nextBatch
  simp only
  split
  · exact .refl _
  · exact sameBook_modifyPhase fun p => startTasks_status p _

theorem sameBook_markTask (w : PhaseOrchestrator) (id : PhaseId) (fulfilled : List TaskId) (t : TaskId) :
    SameBook w.graph (w.markTask o id fulfilled t).graph := by
  unfold PhaseOrchestrator.markTask PhaseOrchestrator.markTaskFailed
  simp only
  split
  · exact sameBook_updateNodeStatus t _
  · split
    · exact sameBook_updateNodeStatus t _
    · exact sameBook_updateNodeStatus t _

theorem sameBook_markTasks (batch : List TaskId) (w : PhaseOrchestrator) (id : PhaseId) (fulfilled : List TaskId) :
    SameBook w.graph (batch.foldl (fun w t => w.markTask o id fulfilled t) w).graph := by
  induction batch generalizing w with
  | nil => exact .refl _
  | cons t batch ih => exact (sameBook_markTask w id fulfilled t).trans (ih _)

theorem Consistent.startPhase (h : Consistent w.graph) (id : PhaseId) : Consistent (w.startPhase o id).graph := by
  unfold PhaseOrchestrator.startPhase
  simp only
  split
  · rename_i hs
    split
    · exact h.begin hs
    · exact (sameBook_nextBatch _ _ id).consistent_iff.mpr (Consistent.begin h hs)
  · exact h

theorem Consistent.startPhases (h : Consistent w.graph) (batch : List PhaseId) :
    Consistent (w.startPhases o batch).graph := by
  unfold PhaseOrchestrator.startPhases
  induction batch generalizing w with
  | nil => exact h
  | cons id batch ih => exact ih (h.startPhase id)

theorem startLoop_graph (readyPhases : List PhaseId) : (w.startLoop k readyPhases).graph = w.graph := by
  unfold PhaseOrchestrator.startLoop
  split <;> rfl

theorem Consistent.requeueTask (h : Consistent w.graph) (t : TaskId) : Consistent (w.requeueTask t).graph := by
  unfold PhaseOrchestrator.requeueTask
  split
  · exact h
  · rename_i id _
    have hsame : Consistent (w.graph.modifyPhase id fun p => p.updateNodeStatus t .pending) :=
      (sameBook_updateNodeStatus t .pending).consistent_iff.mpr h
    simp only
    split
    · have hstatus := @statusOf_updatePhaseStatus
        (w.graph.modifyPhase id fun p => p.updateNodeStatus t .pending) id .pending
      refine ⟨?_, ?_, ?_⟩
      · exact hstatus.symm ▸ hsame.active.filter (by decide)
      · exact hstatus.symm ▸ hsame.completed.filter (by decide)
      · exact hstatus.symm ▸ hsame.failed.filter (by decide)
    · exact hsame

/-! ## Exactly when a step keeps the lists -/

/-- What the end of `failPhaseAfterTasks` needs: its callback throws, so that the handler does the bookkeeping of
a phase that has not ended, or the phase has failed already. -/
def FailKeeps (w : PhaseOrchestrator) (id : PhaseId) (a : Answer) : Prop :=
  if a.onPhaseFailThrows = true then Unended w.graph id else ∀ s, w.graph.statusOf id = some s → s = .failed

/-- A failed merge finds its phase, and not running. -/
def MergeFailKeeps (w : PhaseOrchestrator) (id : PhaseId) : Prop := ∃ s, w.graph.statusOf id = some s ∧ s ≠ .running

/-- A tick that has no more phase to start. -/
def EndKeeps (o : PhaseOrchestratorOptions) (w : PhaseOrchestrator) : Prop :=
  (w.graph.isComplete || (o.stopOnFailure && w.failedPhase)) = true → StopKeeps w

def LoopKeeps (o : PhaseOrchestratorOptions) (w : PhaseOrchestrator) (rest : List PhaseId) : Prop :=
  (∀ id ∈ rest, w.graph.statusOf id ≠ some .pending) → EndKeeps o w

def TickKeeps (o : PhaseOrchestratorOptions) (w : PhaseOrchestrator) (onTickThrows : Bool) : Prop :=
  (w.stopped || w.paused || onTickThrows) = false →
    LoopKeeps o w (w.graph.getReadyPhases.take (o.maxConcurrentPhases - w.graph.getActivePhases.length))

def CallKeeps (o : PhaseOrchestratorOptions) (w : PhaseOrchestrator) (id : PhaseId) (a : Answer) : PhaseStage → Prop
  | .tasksDone => (o.stopOnFailure && 0 < (w.phase id).getFailedTaskCount) = true → FailKeeps w id a
  | .verified true => Unended w.graph id ∧ a.onPhaseCompleteThrows = false
  | .verified false => FailKeeps w id a
  | _ => True

def MergeKeeps (w : PhaseOrchestrator) (id : PhaseId) (a : Answer) : MergeStage → Prop
  | .queued behind => behind.all w.settled = true → behind.any w.mergeRejected = true → MergeFailKeeps w id
  | .merge stage => (a.git.throws && !stage.catches) = true → MergeFailKeeps w id
  | .release => a.throws = true → MergeFailKeeps w id
  | _ => True

def Keeps (o : PhaseOrchestratorOptions) (w : PhaseOrchestrator) : Op → Prop
  | .stop => StopKeeps w
  | .tick onTickThrows => TickKeeps o w onTickThrows
  | .resume onTickThrows => TickKeeps o { w with paused := false } onTickThrows
  | .phaseCall i a => ∀ c, w.phaseCalls[i]? = some c → CallKeeps o w c.phaseId a c.stage
  | .merge k a => ∀ m, w.merges[k]? = some m → MergeKeeps w m.phaseId a m.stage
  | .driver k => ∀ call rest, w.drivers[k]? = some (.tick call rest) → w.callRejected call = false →
      w.callReturned call = true → LoopKeeps o w rest
  | .start | .pause | .requeueTask _ => True

theorem consistent_failPhaseAfterTasks (h : Consistent w.graph) :
    Consistent (w.failPhaseAfterTasks o i id a).graph ↔ FailKeeps w id a := by
  unfold PhaseOrchestrator.failPhaseAfterTasks FailKeeps
  simp only
  split
  · have hhandler : Consistent ((w.failTasks id).failPhase id).graph ↔ Unended w.graph id :=
      (sameBook_failPhase_failTasks w id).consistent_iff.trans (consistent_failPhase h)
    split
    · exact hhandler
    · exact hhandler
  · exact consistent_failTasks h

theorem consistent_resumeCall (h : Consistent w.graph) (stage : PhaseStage) :
    Consistent (w.resumeCall o i id a stage).graph ↔ CallKeeps o w id a stage := by
  cases stage with
  | allocate =>
      refine iff_of_true ?_ trivial
      simp only [PhaseOrchestrator.resumeCall]
      refine (sameBook_nextBatch _ i id).consistent_iff.mpr ?_
      split
      · exact h
      · exact h
  | executeTasks batch =>
      refine iff_of_true ?_ trivial
      exact ((sameBook_markTasks batch w id a.fulfilled).trans (sameBook_nextBatch _ i id)).consistent_iff.mpr h
  | tasksDone =>
      simp only [PhaseOrchestrator.resumeCall, CallKeeps]
      split
      · rename_i hfails
        exact (consistent_failPhaseAfterTasks h).trans ⟨fun hk _ => hk, fun hk => hk hfails⟩
      · rename_i hfails
        refine iff_of_true ?_ fun hf => absurd hf hfails
        split
        · exact h
        · exact h
  | verifyPhase attempt =>
      refine iff_of_true ?_ trivial
      simp only [PhaseOrchestrator.resumeCall]
      split
      · exact h
      · split
        · exact h
        · exact h
  | verified ok =>
      cases ok with
      | false => exact consistent_failPhaseAfterTasks h
      | true =>
          simp only [PhaseOrchestrator.resumeCall, CallKeeps]
          split
          · rename_i hthrows
            refine iff_of_false ?_ fun hk => by simp [hthrows] at hk
            split
            · exact not_consistent_of_completed
            · exact not_consistent_of_completed
          · rename_i hthrows
            exact (consistent_completePhase h).trans ⟨fun hu => ⟨hu, by simpa using hthrows⟩, And.left⟩
  | keepCommit => exact iff_of_true ((sameBook_setIntegrationMetadata _).consistent_iff.mpr h) trivial
  | repairPhase _ | commitAll | keepRelease | returned | rejected => exact iff_of_true h trivial

theorem consistent_failMerge (h : Consistent w.graph) :
    Consistent (w.failMerge k id a).graph ↔ MergeFailKeeps w id := by
  have hsame : SameBook w.graph (w.setIntegrationMetadata id .mergeFailed).graph :=
    sameBook_setIntegrationMetadata _
  have h' := hsame.consistent_iff.mpr h
  unfold PhaseOrchestrator.failMerge MergeFailKeeps
  rw [← hsame.statusOf]
  simp only
  split
  · exact consistent_markPhaseMergeFailed_twice h'
  · exact consistent_markPhaseMergeFailed h'

theorem consistent_resumeMerge (h : Consistent w.graph) (stage : MergeStage) :
    Consistent (w.resumeMerge o k id a stage).graph ↔ MergeKeeps w id a stage := by
  cases stage with
  | deps awaited =>
      refine iff_of_true ?_ trivial
      simp only [PhaseOrchestrator.resumeMerge]
      split
      · exact h
      · exact h
  | queued behind =>
      simp only [PhaseOrchestrator.resumeMerge, MergeKeeps]
      split
      · rename_i hwaits
        exact iff_of_true h fun hs => by simp [hs] at hwaits
      · rename_i hwaits
        have hsettled : behind.all w.settled = true := by simpa using hwaits
        split
        · rename_i hrejected
          exact (consistent_markPhaseMergeFailed h).trans ⟨fun hk _ _ => hk, fun hk => hk hsettled hrejected⟩
        · rename_i hrejected
          exact iff_of_true h fun _ hr => absurd hr hrejected
  | merge stage =>
      simp only [PhaseOrchestrator.resumeMerge, MergeKeeps]
      split
      · rename_i hthrows
        exact (consistent_failMerge h).trans ⟨fun hk _ => hk, fun hk => hk hthrows⟩
      · rename_i hthrows
        refine iff_of_true ?_ fun ht => absurd ht hthrows
        split
        · exact h
        · exact (sameBook_setIntegrationMetadata _).consistent_iff.mpr h
        · exact (sameBook_setIntegrationMetadata _).consistent_iff.mpr h
  | release =>
      simp only [PhaseOrchestrator.resumeMerge, MergeKeeps]
      split
      · rename_i hthrows
        exact (consistent_failMerge h).trans ⟨fun hk _ => hk, fun hk => hk hthrows⟩
      · rename_i hthrows
        exact iff_of_true h fun ht => absurd ht hthrows
  | settled rejected => exact iff_of_true h trivial

theorem consistent_endTick (h : Consistent w.graph) : Consistent (w.endTick o).graph ↔ EndKeeps o w := by
  unfold PhaseOrchestrator.endTick EndKeeps
  split
  · rename_i hends
    exact (consistent_stop h).trans ⟨fun hk _ => hk, fun hk => hk hends⟩
  · rename_i hends
    exact iff_of_true h fun he => absurd he hends

theorem consistent_tickLoop (h : Consistent w.graph) (rest : List PhaseId) :
    Consistent (w.tickLoop o k rest).graph ↔ LoopKeeps o w rest := by
  induction rest with
  | nil => exact (consistent_endTick h).trans ⟨fun hk _ => hk, fun hk => hk (by simp)⟩
  | cons id rest ih =>
      unfold PhaseOrchestrator.tickLoop
      split
      · rename_i hpending
        exact iff_of_true (h.startPhase id) fun hnone => absurd hpending (hnone id List.mem_cons_self)
      · rename_i hpending
        refine ih.trans ?_
        unfold LoopKeeps
        simp [hpending]

theorem consistent_tick (h : Consistent w.graph) (onTickThrows : Bool) :
    Consistent (w.tick o onTickThrows).graph ↔ TickKeeps o w onTickThrows := by
  unfold PhaseOrchestrator.tick TickKeeps
  split
  · rename_i hoff
    exact iff_of_true h fun hon => by simp [hon] at hoff
  · rename_i hoff
    have hon : (w.stopped || w.paused || onTickThrows) = false := by simpa using hoff
    exact (consistent_tickLoop (w := { w with drivers := w.drivers ++ [.returned] }) h _).trans
      ⟨fun hk _ => hk, fun hk => hk hon⟩

theorem consistent_resumeDriver (h : Consistent w.graph) (driver : Driver) :
    Consistent (w.resumeDriver o k driver).graph ↔ ∀ call rest, driver = .tick call rest →
      w.callRejected call = false → w.callReturned call = true → LoopKeeps o w rest := by
  unfold PhaseOrchestrator.resumeDriver
  cases driver with
  | waitBefore readyPhases =>
      refine iff_of_true ?_ (by simp)
      simp only
      split
      · rwa [startLoop_graph]
      · split
        · exact h
        · exact h.startPhases _
  | phases calls =>
      refine iff_of_true ?_ (by simp)
      simp only
      split
      · exact h
      · split
        · exact h
        · exact h
  | waitAfter =>
      refine iff_of_true ?_ (by simp)
      simp only
      split
      · exact h
      · rwa [startLoop_graph]
  | drainMerges awaited =>
      refine iff_of_true ?_ (by simp)
      simp only
      split
      · exact h
      · exact h
  | drainQueue tail =>
      refine iff_of_true ?_ (by simp)
      simp only
      split
      · exact h
      · exact h
  | tick call rest =>
      simp only [Driver.tick.injEq, and_imp]
      split
      · rename_i hrejected
        refine iff_of_true h ?_
        rintro _ _ rfl rfl hno
        rw [hrejected] at hno
        cases hno
      · rename_i hrejected
        have hno : w.callRejected call = false := by simpa using hrejected
        split
        · rename_i hreturned
          refine (consistent_tickLoop h rest).trans ⟨?_, fun hk => hk call rest rfl rfl hno hreturned⟩
          rintro hk _ _ rfl rfl _ _
          exact hk
        · rename_i hreturned
          refine iff_of_true h ?_
          rintro _ _ rfl rfl _ hyes
          exact absurd hyes hreturned
  | delay | returned | rejected => exact iff_of_true h (by simp)

theorem consistent_step (h : Consistent w.graph) (op : Op) : Consistent (w.step o op).graph ↔ Keeps o w op := by
  unfold PhaseOrchestrator.step Keeps
  cases op with
  | start =>
      refine iff_of_true ?_ trivial
      unfold PhaseOrchestrator.start
      simp only [startLoop_graph]
      exact h.normalizeForResume
  | tick onTickThrows => exact consistent_tick h onTickThrows
  | pause => exact iff_of_true h trivial
  | resume onTickThrows => exact consistent_tick (w := { w with paused := false }) h onTickThrows
  | stop => exact consistent_stop h
  | requeueTask t => exact iff_of_true (h.requeueTask t) trivial
  | phaseCall i a =>
      simp only
      split
      · rename_i hnone
        exact iff_of_true h (by simp [hnone])
      · rename_i c hc
        rw [hc]
        simp [consistent_resumeCall h]
  | merge k a =>
      simp only
      split
      · rename_i hnone
        exact iff_of_true h (by simp [hnone])
      · rename_i m hm
        rw [hm]
        simp [consistent_resumeMerge h]
  | driver k =>
      simp only
      split
      · rename_i hnone
        exact iff_of_true h (by simp [hnone])
      · rename_i driver hdriver
        rw [hdriver]
        simp only [Option.some.injEq]
        exact consistent_resumeDriver h driver

end WrongStack.AutoPhase
