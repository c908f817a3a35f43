import WrongStack.AutoPhase.Lemmas.Tasks

/-!
# The calls of one run

What holds between the steps of a run in which nobody starts the orchestrator a second time or requeues a task:
a phase has one call at most, and the call's stage says how far the phase is.
-/

namespace WrongStack.AutoPhase

open Lib Sdd

variable {o : PhaseOrchestratorOptions} {g : PhaseGraph} {w w' : PhaseOrchestrator} {p p' : PhaseNode}
  {id : PhaseId} {i k : Nat} {stage stage' : PhaseStage} {changed : List PhaseId}

/-! ## The invariant -/

/-- The phase has not ended. -/
def PhaseStage.working : PhaseStage → Bool
  | .commitAll | .keepCommit | .keepRelease | .returned | .rejected => false
  | _ => true

def PhaseStage.live : PhaseStage → Bool
  | .returned | .rejected => false
  | _ => true

def PhaseStatus.busy (status : PhaseStatus) : Prop := status = .running ∨ status = .paused

/-- The tasks have been worked off, or the orchestrator has been stopped. -/
structure WorkedOff (stopped : Bool) (g : TaskGraph) : Prop where
  idle : Idle g
  spent : stopped = true ∨ Spent g

/-- What the stage of its call says of a phase. -/
def PhaseStage.Fits (stopped : Bool) (p : PhaseNode) : PhaseStage → Prop
  | .allocate => p.status.busy ∧ Idle p.taskGraph
  | .executeTasks batch => p.status.busy ∧ ∀ t, p.taskGraph.statusOf t = some .inProgress → t ∈ batch
  | .tasksDone | .verifyPhase _ | .repairPhase _ | .verified _ => p.status.busy ∧ WorkedOff stopped p.taskGraph
  | .commitAll => p.status = .completed
  | .keepCommit | .keepRelease => p.status = .failed
  | .returned | .rejected => True

/-- What the stage of its merge says of a phase. -/
def MergeStage.Fits (p : PhaseNode) : MergeStage → Prop
  | .deps _ | .queued _ | .merge _ => p.status = .completed
  | .release => p.status = .completed ∧
      (p.integrationStatus = some .merged ∨ p.integrationStatus = some .needsReview)
  | .settled _ => p.status = .failed ∨ p.status = .completed ∧
      (p.integrationStatus = some .merged ∨ p.integrationStatus = some .needsReview)

/-- The merge has been chained onto the queue. -/
def MergeStage.chained : MergeStage → Bool
  | .deps _ => false
  | _ => true

/-- Its turn has come. -/
def MergeStage.begun : MergeStage → Bool
  | .deps _ | .queued _ => false
  | _ => true

def MergeStage.isSettled : MergeStage → Bool
  | .settled _ => true
  | _ => false

/-- The squash is in the index, if it has changes. -/
def MergeStage.staging : MergeStage → Bool
  | .merge .commit | .merge (.hasConflictMarkers _) | .merge (.commitResolved _) => true
  | _ => false

/-- Nothing has been staged. -/
def MergeStage.unstaged : MergeStage → Bool
  | .deps _ | .queued _ | .merge .checkout | .merge .squash | .merge (.unmergedFiles _) | .merge (.resolve _)
  | .merge (.addResolved _) => true
  | _ => false

/-- The manager has returned. -/
def MergeStage.over : MergeStage → Bool
  | .release | .settled _ => true
  | _ => false

/-- The base branch has a commit of the phase. -/
def InBase (repo : Worktree.Repo) (id : PhaseId) : Prop := ∃ c ∈ repo.log repo.tip, c.taskId = id

/-- What holds of a merge and its phase. `changed` are the phases whose squash has had changes. -/
structure Integrates (merges : List Merge) (repo : Worktree.Repo) (changed : List PhaseId) (k : Nat) (m : Merge)
    (p : PhaseNode) : Prop where
  fits : m.stage.Fits p
  awaits : ∀ awaited, m.stage = .deps awaited → ∀ k' m', k' < k → merges[k']? = some m' →
    m'.phaseId ∈ p.dependsOn → k' ∈ awaited
  ordered : m.stage.chained = true → ∀ k' m', k' < k → merges[k']? = some m' → m'.phaseId ∈ p.dependsOn →
    m'.stage.isSettled = true
  unstaged : m.stage.unstaged = true → m.phaseId ∉ changed
  staged : m.stage.staging = true → m.phaseId ∈ changed → m.phaseId ∈ repo.staged
  landed : m.stage.over = true → p.integrationStatus = some .merged → m.phaseId ∈ changed → InBase repo m.phaseId

/-- The queue: a merge waits for the one before it. -/
structure Queue (merges : List Merge) (queue : List Nat) : Prop where
  nodup : queue.Nodup
  chained : ∀ k, k ∈ queue ↔ ∃ m, merges[k]? = some m ∧ m.stage.chained = true
  turns : queue.Pairwise fun k k' => ∀ m m', merges[k]? = some m → merges[k']? = some m' →
    m'.stage.begun = true → m.stage.isSettled = true
  behind : ∀ k id behind, merges[k]? = some { phaseId := id, stage := .queued behind } →
    ∃ front back, queue = front ++ k :: back ∧ behind = front.getLast?

/-- The phases that a call of `start` or `tick` is about to start. -/
def Driver.ready : Driver → List PhaseId
  | .waitBefore readyPhases => readyPhases
  | .tick _ rest => rest
  | _ => []

def DepsDone (w : PhaseOrchestrator) (p : PhaseNode) : Prop := ∀ d ∈ p.dependsOn, w.graph.depDone d = true

/-- The call `i` is one on the phase, and has not returned. -/
def At (w : PhaseOrchestrator) (i : Nat) (id : PhaseId) (stage : PhaseStage) : Prop :=
  w.phaseCalls[i]? = some { phaseId := id, stage } ∧ stage.live = true

/-- `g` is the graph that the orchestrator was given. -/
structure Tidy (g : PhaseGraph) (changed : List PhaseId) (w : PhaseOrchestrator) : Prop where
  calls : ∀ i id stage, At w i id stage → ∃ p, w.graph.phases.get? id = some p ∧ stage.Fits w.stopped p
  alone : ∀ i j id stage stage', At w i id stage → At w j id stage' → i = j
  unmerged : ∀ i id stage, At w i id stage → ∀ m ∈ w.merges, m.phaseId ≠ id
  fresh : ∀ id p, w.graph.phases.get? id = some p → p.status = .pending ∨ p.status = .ready →
    (∀ i stage, ¬ At w i id stage) ∧ (∀ m ∈ w.merges, m.phaseId ≠ id) ∧ (p.status = .pending → Idle p.taskGraph)
  running : ∀ id ∈ w.runningPhases, ∃ i stage, At w i id stage ∧ stage.working = true
  deps : ∀ id p, w.graph.phases.get? id = some p → p.status = .running → DepsDone w p
  completed : ∀ id p, w.graph.phases.get? id = some p → p.status = .completed →
    g.statusOf id ≠ some .completed → WorkedOff w.stopped p.taskGraph
  workable : ∀ id p₀ p, g.phases.get? id = some p₀ → w.graph.phases.get? id = some p →
    Workable p₀.taskGraph → Workable p.taskGraph
  ready : ∀ driver ∈ w.drivers, ∀ id ∈ driver.ready, ∀ p, w.graph.phases.get? id = some p →
    p.status ≠ .ready ∧ DepsDone w p
  merges : ∀ k m, w.merges[k]? = some m → ∃ p, w.graph.phases.get? m.phaseId = some p ∧
    Integrates w.merges w.repo changed k m p
  promise : ∀ k m, w.merges[k]? = some m → w.phaseMergePromise.get? m.phaseId = some k
  queue : Queue w.merges w.mergeQueue
  known : ∀ id ∈ changed, ∃ m ∈ w.merges, m.phaseId = id

/-- What the merges are about. -/
def PhaseOrchestrator.mergeState (w : PhaseOrchestrator) :
    List Merge × List Nat × Worktree.Repo × JsMap PhaseId Nat :=
  (w.merges, w.mergeQueue, w.repo, w.phaseMergePromise)

theorem PhaseStage.live_of_working (h : stage.working = true) : stage.live = true := by
  cases stage <;> first | rfl | cases h

theorem PhaseStage.Fits.not_new {stopped : Bool} (h : stage.Fits stopped p) (hlive : stage.live = true) :
    p.status ≠ .pending ∧ p.status ≠ .ready := by
  cases stage <;> simp_all [PhaseStage.Fits, PhaseStage.live, PhaseStatus.busy] <;> grind

/-! ## A call goes on -/

/-- The only phase that changes is `id`, and what it depends on stays as it is. -/
structure OnlyPhase (id : PhaseId) (p p' : PhaseNode) (w w' : PhaseOrchestrator) : Prop where
  old : w.graph.phases.get? id = some p
  new : w'.graph.phases.get? id = some p'
  others : ∀ id', id' ≠ id → w'.graph.phases.get? id' = w.graph.phases.get? id'
  dependsOn : p'.dependsOn = p.dependsOn
  terminal : p.terminal = true → p'.terminal = true
  workable : Workable p.taskGraph → Workable p'.taskGraph

theorem OnlyPhase.refl (h : w.graph.phases.get? id = some p) (hg : w'.graph = w.graph) : OnlyPhase id p p w w' :=
  ⟨h, hg ▸ h, fun _ _ => by rw [hg], rfl, fun ht => ht, fun hw => hw⟩

theorem OnlyPhase.depDone (h : OnlyPhase id p p' w w') (d : PhaseId) (hd : w.graph.depDone d = true) :
    w'.graph.depDone d = true := by
  unfold PhaseGraph.depDone at hd ⊢
  by_cases heq : d = id
  · subst heq
    rw [h.old] at hd
    rw [h.new]
    exact h.terminal hd
  · rwa [h.others d heq]

theorem OnlyPhase.depsDone (h : OnlyPhase id p p' w w') {q q' : PhaseNode} (hq : q'.dependsOn = q.dependsOn)
    (hdone : DepsDone w q) : DepsDone w' q' := by
  intro d hd
  rw [hq] at hd
  exact h.depDone d (hdone d hd)

theorem OnlyPhase.cases (h : OnlyPhase id p p' w w') {id' : PhaseId} {q' : PhaseNode}
    (hq : w'.graph.phases.get? id' = some q') :
    (id' = id ∧ q' = p') ∨ (id' ≠ id ∧ w.graph.phases.get? id' = some q') := by
  by_cases heq : id' = id
  · subst heq
    rw [h.new] at hq
    exact .inl ⟨rfl, (Option.some.inj hq).symm⟩
  · rw [h.others id' heq] at hq
    exact .inr ⟨heq, hq⟩

theorem at_set_iff {id' : PhaseId} {s : PhaseStage} {j : Nat} (hi : w.phaseCalls[i]?.isSome = true)
    (hcalls : w'.phaseCalls = w.phaseCalls.set i { phaseId := id, stage := stage' }) :
    At w' j id' s ↔ (j = i ∧ id' = id ∧ s = stage' ∧ stage'.live = true) ∨ (j ≠ i ∧ At w j id' s) := by
  have hlt : i < w.phaseCalls.length := by
    by_contra hle
    rw [List.getElem?_eq_none (Nat.not_lt.mp hle)] at hi
    cases hi
  unfold At
  rw [hcalls]
  by_cases heq : j = i
  · subst heq
    rw [List.getElem?_set_self hlt]
    constructor
    · rintro ⟨hc, hlive⟩
      obtain ⟨rfl, rfl⟩ := PhaseCall.mk.inj (Option.some.inj hc)
      exact .inl ⟨rfl, rfl, rfl, hlive⟩
    · rintro (⟨-, rfl, rfl, hlive⟩ | ⟨hne, -⟩)
      · exact ⟨rfl, hlive⟩
      · exact absurd rfl hne
  · rw [List.getElem?_set_ne (Ne.symm heq)]
    simp [heq]

/-- One call goes on, and changes nothing but its own phase. -/
theorem Tidy.goes (h : Tidy g changed w) (hat : At w i id stage) (hp : OnlyPhase id p p' w w')
    (hcalls : w'.phaseCalls = w.phaseCalls.set i { phaseId := id, stage := stage' }) (hmerges : w'.mergeState = w.mergeState)
    (hdrivers : w'.drivers = w.drivers) (hstopped : w'.stopped = w.stopped)
    (hrunning : ∀ id' ∈ w'.runningPhases, id' ∈ w.runningPhases ∧ (id' = id → stage'.working = true))
    (hfits : stage'.Fits w.stopped p') (hnew : p'.status ≠ .pending ∧ p'.status ≠ .ready)
    (hrun : p'.status = .running → p.status = .running)
    (hcompleted : p'.status = .completed → WorkedOff w.stopped p'.taskGraph ∨
      p.status = .completed ∧ p'.taskGraph = p.taskGraph) : Tidy g changed w' := by
  have hiff : ∀ {j id' s}, At w' j id' s ↔ (j = i ∧ id' = id ∧ s = stage' ∧ stage'.live = true) ∨
      (j ≠ i ∧ At w j id' s) := at_set_iff (by rw [hat.1]; rfl) hcalls
  -- another call is on another phase
  have hother : ∀ {j id' s}, j ≠ i → At w j id' s → id' ≠ id := by
    rintro j id' s hne hj rfl
    exact hne (h.alone j i _ _ _ hj hat)
  simp only [PhaseOrchestrator.mergeState, Prod.mk.injEq] at hmerges
  obtain ⟨hmerges, hqueue, hrepo, hpromise⟩ := hmerges
  refine ⟨?_, ?_, ?_, ?_, ?_, ?_, ?_, ?_, ?_, ?_, ?_, ?_, ?_⟩
  · intro j id' s hj
    rcases hiff.mp hj with ⟨-, rfl, rfl, -⟩ | ⟨hne, hj⟩
    · exact ⟨p', hp.new, hstopped ▸ hfits⟩
    · rw [hp.others id' (hother hne hj), hstopped]
      exact h.calls j id' s hj
  · intro j j' id' s s' hj hj'
    rcases hiff.mp hj with ⟨rfl, rfl, -, -⟩ | ⟨hne, hj⟩ <;> rcases hiff.mp hj' with ⟨rfl, hid, -, -⟩ | ⟨hne', hj'⟩
    · rfl
    · exact absurd rfl (hother hne' hj')
    · exact absurd hid (hother hne hj)
    · exact h.alone j j' id' s s' hj hj'
  · intro j id' s hj
    rw [hmerges]
    rcases hiff.mp hj with ⟨-, rfl, -, -⟩ | ⟨-, hj⟩
    · exact h.unmerged i _ stage hat
    · exact h.unmerged j id' s hj
  · intro id' q hq hstatus
    rcases hp.cases hq with ⟨rfl, rfl⟩ | ⟨hne, hq⟩
    · exact absurd hstatus (not_or.mpr hnew)
    · obtain ⟨hnone, hmerge, hidle⟩ := h.fresh id' q hq hstatus
      refine ⟨fun j s hj => ?_, hmerges ▸ hmerge, hidle⟩
      rcases hiff.mp hj with ⟨-, rfl, -, -⟩ | ⟨-, hj⟩
      · exact hne rfl
      · exact hnone j s hj
  · intro id' hid'
    obtain ⟨hmem, hworks⟩ := hrunning id' hid'
    obtain ⟨j, s, hj, hs⟩ := h.running id' hmem
    by_cases heq : id' = id
    · subst heq
      have hworking := hworks rfl
      exact ⟨i, stage', hiff.mpr (.inl ⟨rfl, rfl, rfl, PhaseStage.live_of_working hworking⟩), hworking⟩
    · refine ⟨j, s, hiff.mpr (.inr ⟨?_, hj⟩), hs⟩
      rintro rfl
      exact heq (PhaseCall.mk.inj (Option.some.inj (hj.1.symm.trans hat.1))).1
  · intro id' q hq hstatus
    rcases hp.cases hq with ⟨rfl, rfl⟩ | ⟨-, hq⟩
    · exact hp.depsDone hp.dependsOn (h.deps _ p hp.old (hrun hstatus))
    · exact hp.depsDone rfl (h.deps id' q hq hstatus)
  · intro id' q hq hstatus hinit
    rw [hstopped]
    rcases hp.cases hq with ⟨rfl, rfl⟩ | ⟨-, hq⟩
    · rcases hcompleted hstatus with hoff | ⟨hold, hsame⟩
      · exact hoff
      · rw [hsame]
        exact h.completed _ p hp.old hold hinit
    · exact h.completed id' q hq hstatus hinit
  · intro id' p₀ q h₀ hq hw
    rcases hp.cases hq with ⟨rfl, rfl⟩ | ⟨-, hq⟩
    · exact hp.workable (h.workable _ p₀ p h₀ hp.old hw)
    · exact h.workable id' p₀ q h₀ hq hw
  · intro driver hdriver id' hid' q hq
    rw [hdrivers] at hdriver
    rcases hp.cases hq with ⟨rfl, rfl⟩ | ⟨-, hq⟩
    · exact ⟨hnew.2, hp.depsDone hp.dependsOn (h.ready driver hdriver _ hid' p hp.old).2⟩
    · obtain ⟨hne, hdone⟩ := h.ready driver hdriver id' hid' q hq
      exact ⟨hne, hp.depsDone rfl hdone⟩
  · intro k m hm
    rw [hmerges] at hm ⊢
    rw [hrepo, hp.others m.phaseId (h.unmerged i id stage hat m (List.mem_of_getElem? hm))]
    exact h.merges k m hm
  · rw [hmerges, hpromise]
    exact h.promise
  · rw [hmerges, hqueue]
    exact h.queue
  · rw [hmerges]
    exact h.known

theorem Tidy.turns (h : Tidy g changed w) (hat : At w i id stage) (hg : w'.graph = w.graph)
    (hcalls : w'.phaseCalls = w.phaseCalls.set i { phaseId := id, stage := stage' }) (hmerges : w'.mergeState = w.mergeState)
    (hdrivers : w'.drivers = w.drivers) (hstopped : w'.stopped = w.stopped)
    (hrunning : w'.runningPhases = w.runningPhases)
    (hfits : ∀ p, w.graph.phases.get? id = some p → stage.Fits w.stopped p → stage'.Fits w.stopped p)
    (hworking : stage.working = true → stage'.working = true) : Tidy g changed w' := by
  obtain ⟨p, hp, hold⟩ := h.calls i id stage hat
  refine h.goes hat (.refl hp hg) hcalls hmerges hdrivers hstopped ?_ (hfits p hp hold) (hold.not_new hat.2)
    (fun hs => hs) fun hs => .inr ⟨hs, rfl⟩
  intro id' hid'
  rw [hrunning] at hid'
  refine ⟨hid', ?_⟩
  rintro rfl
  obtain ⟨j, s, hj, hs⟩ := h.running _ hid'
  obtain rfl := h.alone j i _ s stage hj hat
  exact hworking ((PhaseCall.mk.inj (Option.some.inj (hj.1.symm.trans hat.1))).2 ▸ hs)

/-! ## Tasks -/

/-- The phase `id` of `w'` is `f` of that of `w`. -/
def Maps (id : PhaseId) (f : PhaseNode → PhaseNode) (w w' : PhaseOrchestrator) : Prop :=
  ∀ id', w'.graph.phases.get? id' = if id = id' then (w.graph.phases.get? id').map f else w.graph.phases.get? id'

theorem maps_modify {f : PhaseNode → PhaseNode} (hg : w'.graph.phases = w.graph.phases.modify id f) :
    Maps id f w w' := by
  intro id'
  rw [hg]
  exact JsMap.get?_modify ..

theorem Maps.trans {f f' : PhaseNode → PhaseNode} {w'' : PhaseOrchestrator} (h : Maps id f w w')
    (h' : Maps id f' w' w'') : Maps id (fun p => f' (f p)) w w'' := by
  intro id'
  rw [h' id', h id']
  split
  · rw [Option.map_map]
    rfl
  · rfl

theorem Maps.onlyPhase {f : PhaseNode → PhaseNode} (h : Maps id f w w') (hp : w.graph.phases.get? id = some p)
    (hdeps : (f p).dependsOn = p.dependsOn) (hterm : p.terminal = true → (f p).terminal = true)
    (hwork : Workable p.taskGraph → Workable (f p).taskGraph) : OnlyPhase id p (f p) w w' := by
  refine ⟨hp, ?_, fun id' hne => ?_, hdeps, hterm, hwork⟩
  · rw [h, if_pos rfl, hp]
    rfl
  · rw [h, if_neg (Ne.symm hne)]

theorem phase_eq (hp : w.graph.phases.get? id = some p) : w.phase id = p := by
  unfold PhaseOrchestrator.phase
  rw [hp]
  rfl

/-- What a change of the tasks leaves alone. -/
structure SamePhase (p p' : PhaseNode) : Prop where
  status : p'.status = p.status
  dependsOn : p'.dependsOn = p.dependsOn

theorem SamePhase.trans {p'' : PhaseNode} (h : SamePhase p p') (h' : SamePhase p' p'') : SamePhase p p'' :=
  ⟨h'.status.trans h.status, h'.dependsOn.trans h.dependsOn⟩

theorem SamePhase.terminal (h : SamePhase p p') : p'.terminal = p.terminal := by
  unfold PhaseNode.terminal
  rw [h.status]

theorem samePhase_updateNodeStatus (p : PhaseNode) (t : TaskId) (status : TaskStatus) :
    SamePhase p (p.updateNodeStatus t status) := by
  unfold PhaseNode.updateNodeStatus
  split <;> exact ⟨rfl, rfl⟩

theorem samePhase_startTasks (batch : List TaskId) (p : PhaseNode) :
    SamePhase p (PhaseOrchestrator.startTasks p batch) := by
  unfold PhaseOrchestrator.startTasks
  induction batch generalizing p with
  | nil => exact ⟨rfl, rfl⟩
  | cons t batch ih => exact (samePhase_updateNodeStatus p t .inProgress).trans (ih _)

theorem Tidy.not_running (h : Tidy g changed w) (hat : At w i id stage) (hworking : stage.working = false) :
    id ∉ w.runningPhases := by
  intro hmem
  obtain ⟨j, s, hj, hs⟩ := h.running id hmem
  obtain rfl := h.alone j i id s stage hj hat
  obtain ⟨-, rfl⟩ := PhaseCall.mk.inj (Option.some.inj (hj.1.symm.trans hat.1))
  rw [hs] at hworking
  cases hworking

theorem Tidy.nextBatch (h : Tidy g changed w) (hat : At w i id stage) (hp : w.graph.phases.get? id = some p)
    (hbusy : p.status.busy) (hidle : Idle p.taskGraph) : Tidy g changed (w.nextBatch o i id) := by
  unfold PhaseOrchestrator.nextBatch
  simp only [phase_eq hp]
  split
  · rename_i hends
    refine h.turns hat rfl rfl rfl rfl rfl rfl ?_ fun _ => rfl
    intro q hq _
    obtain rfl := Option.some.inj (hp.symm.trans hq)
    refine ⟨hbusy, hidle, ?_⟩
    rcases Bool.or_eq_true_iff.mp hends with hempty | hstopped
    · exact .inr (spent_of_isEmpty hempty)
    · exact .inl hstopped
  · have hsame := samePhase_startTasks (p.getExecutableTasks.take o.maxConcurrentTasks) p
    refine h.goes hat ((maps_modify rfl).onlyPhase hp hsame.dependsOn (fun ht => hsame.terminal ▸ ht) ?_) rfl rfl rfl rfl
      (fun id' hid' => ⟨hid', fun _ => rfl⟩) ⟨?_, ?_⟩ ?_ ?_ ?_
    · intro hwork
      refine hwork.startTasks fun t ht => ?_
      obtain ⟨hpending, hcan⟩ := mem_getExecutableTasks.mp (List.mem_of_mem_take ht)
      exact ⟨finished_of_pending hpending, hcan⟩
    · exact hsame.status.symm ▸ hbusy
    · intro t ht
      exact (inProgress_startTasks _ p ht).resolve_right (hidle t)
    · rw [hsame.status]
      rcases hbusy with hs | hs <;> simp [hs]
    · intro hs
      rwa [hsame.status] at hs
    · intro hs
      rw [hsame.status] at hs
      rcases hbusy with hb | hb <;> simp [hb] at hs

theorem markTask_cases (w : PhaseOrchestrator) (id : PhaseId) (fulfilled : List TaskId) (t : TaskId) :
    ∃ status counts, (status = .completed ∨ status = .failed ∨ status = .pending) ∧
      w.markTask o id fulfilled t = { w with taskRetryCounts := counts }.modifyPhase id
        fun p => p.updateNodeStatus t status := by
  unfold PhaseOrchestrator.markTask PhaseOrchestrator.markTaskFailed
  simp only
  split
  · exact ⟨.completed, w.taskRetryCounts, .inl rfl, rfl⟩
  · split
    · exact ⟨.pending, _, .inr (.inr rfl), rfl⟩
    · exact ⟨.failed, w.taskRetryCounts, .inr (.inl rfl), rfl⟩

/-- A batch is marked task by task: what was in progress outside of it is what is left in progress. -/
theorem Tidy.markTasks {all : List TaskId} (batch fulfilled : List TaskId) (h : Tidy g changed w)
    (hat : At w i id (.executeTasks all)) (hp : w.graph.phases.get? id = some p) : ∃ p',
    Tidy g changed (batch.foldl (fun w t => w.markTask o id fulfilled t) w) ∧
      At (batch.foldl (fun w t => w.markTask o id fulfilled t) w) i id (.executeTasks all) ∧
      (batch.foldl (fun w t => w.markTask o id fulfilled t) w).graph.phases.get? id = some p' ∧
      p'.status = p.status ∧ ∀ t, p'.taskGraph.statusOf t = some .inProgress →
        t ∉ batch ∧ p.taskGraph.statusOf t = some .inProgress := by
  induction batch generalizing w p with
  | nil => exact ⟨p, h, hat, hp, rfl, fun t ht => ⟨List.not_mem_nil, ht⟩⟩
  | cons t batch ih =>
      obtain ⟨status, counts, hstatus, heq⟩ := markTask_cases (o := o) w id fulfilled t
      have hsame := samePhase_updateNodeStatus p t status
      obtain ⟨q, hq, hfits⟩ := h.calls i id _ hat
      obtain rfl := Option.some.inj (hp.symm.trans hq)
      have hprogress : ∀ x, (p.updateNodeStatus t status).taskGraph.statusOf x = some .inProgress →
          x ≠ t ∧ p.taskGraph.statusOf x = some .inProgress := by
        intro x hx
        refine (inProgress_updateNodeStatus hx).resolve_left ?_
        rintro ⟨-, rfl⟩
        simp at hstatus
      have hnot : p.status ≠ .completed := by
        rcases hfits.1 with hb | hb <;> simp [hb]
      have hset : (w.markTask o id fulfilled t).phaseCalls =
          w.phaseCalls.set i { phaseId := id, stage := .executeTasks all } := by
        obtain ⟨hlt, hi⟩ := List.getElem?_eq_some_iff.mp hat.1
        rw [heq, ← hi]
        exact (List.set_getElem_self hlt).symm
      have hmaps : Maps id (fun p => p.updateNodeStatus t status) w (w.markTask o id fulfilled t) :=
        maps_modify (by rw [heq]; rfl)
      have honly := hmaps.onlyPhase hp hsame.dependsOn (fun ht => hsame.terminal ▸ ht) fun hw => hw.mark hstatus
      have hnext : Tidy g changed (w.markTask o id fulfilled t) := by
        refine h.goes hat honly hset (by rw [heq]; rfl) (by rw [heq]; rfl) (by rw [heq]; rfl) ?_ ⟨?_, ?_⟩ ?_ ?_ ?_
        · intro id' hid'
          rw [heq] at hid'
          exact ⟨hid', fun _ => rfl⟩
        · exact hsame.status.symm ▸ hfits.1
        · exact fun x hx => hfits.2 x (hprogress x hx).2
        · rw [hsame.status]
          exact hfits.not_new rfl
        · exact fun hs => hsame.status ▸ hs
        · exact fun hs => absurd (hsame.status ▸ hs) hnot
      have hat' : At (w.markTask o id fulfilled t) i id (.executeTasks all) := by
        rw [heq]
        exact hat
      obtain ⟨p', htidy, hat'', hp', hs, hleft⟩ := ih hnext hat' honly.new
      refine ⟨p', htidy, hat'', hp', hs.trans hsame.status, fun x hx => ?_⟩
      obtain ⟨hbatch, hx⟩ := hleft x hx
      obtain ⟨hne, hx⟩ := hprogress x hx
      exact ⟨by simp [hne, hbatch], hx⟩

/-! ## Steps of a call -/

theorem Tidy.same (h : Tidy g changed w) (hg : w'.graph = w.graph) (hstopped : w'.stopped = w.stopped)
    (hrunning : w'.runningPhases = w.runningPhases) (hcalls : w'.phaseCalls = w.phaseCalls)
    (hmerges : w'.mergeState = w.mergeState) (hdrivers : w'.drivers = w.drivers) : Tidy g changed w' := by
  cases w
  cases w'
  simp only [PhaseOrchestrator.mergeState, Prod.mk.injEq] at hmerges
  obtain ⟨hmerges, hqueue, hrepo, hpromise⟩ := hmerges
  subst hg hstopped hrunning hcalls hmerges hqueue hrepo hpromise hdrivers
  exact ⟨h.calls, h.alone, h.unmerged, h.fresh, h.running, h.deps, h.completed, h.workable, h.ready, h.merges,
    h.promise, h.queue, h.known⟩

theorem Tidy.executes {all fulfilled : List TaskId} (h : Tidy g changed w) (hat : At w i id (.executeTasks all)) :
    Tidy g changed ((all.foldl (fun w t => w.markTask o id fulfilled t) w).nextBatch o i id) := by
  obtain ⟨p, hp, hbusy, hwithin⟩ := h.calls i id _ hat
  obtain ⟨p', htidy, hat', hp', hstatus, hleft⟩ := h.markTasks all fulfilled hat hp
  refine htidy.nextBatch hat' hp' (hstatus.symm ▸ hbusy) fun t ht => ?_
  obtain ⟨hnot, ht⟩ := hleft t ht
  exact hnot (hwithin t ht)

theorem Tidy.ends {status : PhaseStatus} (h : Tidy g changed w) (hat : At w i id stage) (hp : w.graph.phases.get? id = some p)
    (hphases : Maps id (fun p => { p with status }) w w')
    (hcalls : w'.phaseCalls = w.phaseCalls.set i { phaseId := id, stage := stage' }) (hmerges : w'.mergeState = w.mergeState)
    (hdrivers : w'.drivers = w.drivers) (hstopped : w'.stopped = w.stopped)
    (hrunning : w'.runningPhases = w.runningPhases.filter fun id' => id' != id)
    (hend : status = .failed ∨ status = .completed ∧ WorkedOff w.stopped p.taskGraph)
    (hfits : stage'.Fits w.stopped { p with status }) : Tidy g changed w' := by
  have hterm : p.terminal = true → ({ p with status } : PhaseNode).terminal = true := by
    rintro -
    rcases hend with rfl | ⟨rfl, -⟩ <;> rfl
  refine h.goes hat (hphases.onlyPhase hp rfl hterm fun hw => hw) hcalls hmerges hdrivers hstopped ?_ hfits ?_ ?_ ?_
  · intro id' hid'
    rw [hrunning] at hid'
    obtain ⟨hmem, hne⟩ := List.mem_filter.mp hid'
    refine ⟨hmem, fun heq => ?_⟩
    rw [heq] at hne
    simp at hne
  · rcases hend with rfl | ⟨rfl, -⟩ <;> simp
  · rcases hend with rfl | ⟨rfl, -⟩ <;> simp
  · rcases hend with rfl | ⟨rfl, hoff⟩
    · simp
    · exact fun _ => .inl hoff

theorem filter_twice (ids : List PhaseId) (id : PhaseId) :
    (ids.filter fun id' => id' != id).filter (fun id' => id' != id) = ids.filter fun id' => id' != id := by
  simp

theorem Tidy.fails {a : Answer} (h : Tidy g changed w) (hat : At w i id stage) (hp : w.graph.phases.get? id = some p) :
    Tidy g changed (w.failPhaseAfterTasks o i id a) := by
  have hfail : ∀ w : PhaseOrchestrator, Maps id (fun p => { p with status := .failed }) w (w.failPhase id) :=
    fun _ => maps_modify rfl
  have htasks : Maps id (fun p => { p with status := .failed }) w (w.failTasks id) := maps_modify rfl
  have hkeep : ∀ {w : PhaseOrchestrator} {p : PhaseNode},
      PhaseStage.Fits w.stopped { p with status := .failed } (if o.worktrees && w.phaseWorktrees.contains id
        then .keepCommit else .returned) := by
    intro w p
    split <;> trivial
  unfold PhaseOrchestrator.failPhaseAfterTasks
  simp only
  split
  · split
    · exact h.ends hat hp (htasks.trans (hfail _)) rfl rfl rfl rfl (filter_twice ..) (.inl rfl) trivial
    · exact h.ends hat hp (htasks.trans (hfail _)) rfl rfl rfl rfl (filter_twice ..) (.inl rfl) hkeep
  · exact h.ends hat hp htasks rfl rfl rfl rfl rfl (.inl rfl) hkeep

theorem Tidy.completes {a : Answer} (h : Tidy g changed w) (hat : At w i id (.verified true)) :
    Tidy g changed (w.resumeCall o i id a (.verified true)) := by
  obtain ⟨p, hp, -, hoff⟩ := h.calls i id _ hat
  have hcomplete : Maps id (fun p => { p with status := .completed }) w (w.completePhase id) := maps_modify rfl
  have hfail : Maps id (fun p => { p with status := .failed }) (w.completePhase id)
      ((w.completePhase id).failPhase id) := maps_modify rfl
  simp only [PhaseOrchestrator.resumeCall]
  split
  · split
    · exact h.ends hat hp (hcomplete.trans hfail) rfl rfl rfl rfl (filter_twice ..) (.inl rfl) trivial
    · refine h.ends hat hp (hcomplete.trans hfail) rfl rfl rfl rfl (filter_twice ..) (.inl rfl) ?_
      split <;> trivial
  · refine h.ends hat hp hcomplete rfl rfl rfl rfl rfl (.inr ⟨rfl, hoff⟩) ?_
    split <;> trivial

theorem getElem?_concat_cases {α : Type} {l : List α} {x y : α} (h : (l ++ [x])[k]? = some y) :
    l[k]? = some y ∨ (k = l.length ∧ y = x) := by
  rcases Nat.lt_trichotomy k l.length with hlt | heq | hgt
  · rw [List.getElem?_append_left hlt] at h
    exact .inl h
  · subst heq
    rw [List.getElem?_concat_length] at h
    exact .inr ⟨rfl, (Option.some.inj h).symm⟩
  · rw [List.getElem?_eq_none (by simp; omega)] at h
    cases h

theorem getElem?_concat_of {α : Type} {l : List α} {x y : α} (h : l[k]? = some y) : (l ++ [x])[k]? = some y := by
  obtain ⟨hlt, -⟩ := List.getElem?_eq_some_iff.mp h
  rw [List.getElem?_append_left hlt, h]

theorem Integrates.concat {merges : List Merge} {repo : Worktree.Repo} {m m' : Merge}
    (h : Integrates merges repo changed k m p) (hk : merges[k]? = some m) :
    Integrates (merges ++ [m']) repo changed k m p := by
  obtain ⟨hlt, -⟩ := List.getElem?_eq_some_iff.mp hk
  have hearlier : ∀ {k' m''}, k' < k → (merges ++ [m'])[k']? = some m'' → merges[k']? = some m'' := by
    intro k' m'' hlt' hm
    rcases getElem?_concat_cases hm with hm | ⟨heq, -⟩
    · exact hm
    · omega
  exact ⟨h.fits, fun awaited ha k' m'' hlt' hm => h.awaits awaited ha k' m'' hlt' (hearlier hlt' hm),
    fun hc k' m'' hlt' hm => h.ordered hc k' m'' hlt' (hearlier hlt' hm), h.unstaged, h.staged, h.landed⟩

theorem Queue.concat {merges : List Merge} {queue : List Nat} {awaited : List Nat} (h : Queue merges queue) :
    Queue (merges ++ [{ phaseId := id, stage := .deps awaited }]) queue := by
  have hold : ∀ {k}, k ∈ queue → ∀ {m}, (merges ++ [{ phaseId := id, stage := .deps awaited }])[k]? = some m →
      merges[k]? = some m := by
    intro k hk m hm
    obtain ⟨m', hm', -⟩ := (h.chained k).mp hk
    rcases getElem?_concat_cases hm with hm | ⟨rfl, -⟩
    · exact hm
    · rw [List.getElem?_eq_none (le_refl _)] at hm'
      cases hm'
  refine ⟨h.nodup, fun k => ?_, ?_, ?_⟩
  · constructor
    · intro hk
      obtain ⟨m, hm, hc⟩ := (h.chained k).mp hk
      exact ⟨m, getElem?_concat_of hm, hc⟩
    · rintro ⟨m, hm, hc⟩
      rcases getElem?_concat_cases hm with hm | ⟨-, rfl⟩
      · exact (h.chained k).mpr ⟨m, hm, hc⟩
      · cases hc
  · exact h.turns.imp_of_mem fun hk hk' hturn m m' hm hm' => hturn m m' (hold hk hm) (hold hk' hm')
  · intro k id' behind hm
    rcases getElem?_concat_cases hm with hm | ⟨-, heq⟩
    · exact h.behind k id' behind hm
    · cases heq

/-- A phase that has been committed gets its merge. -/
theorem Tidy.pushes (h : Tidy g changed w) (hp : w.graph.phases.get? id = some p) (hs : p.status = .completed)
    (hnone : ∀ i stage, ¬ At w i id stage) (hunmerged : ∀ m ∈ w.merges, m.phaseId ≠ id) :
    Tidy g changed (w.commitAndEnqueueMerge id) := by
  have hlast : ∀ {P : Merge → Prop}, (∀ m ∈ w.merges, P m) →
      P { phaseId := id, stage := .deps (p.dependsOn.filterMap w.phaseMergePromise.get?) } →
      ∀ m ∈ (w.commitAndEnqueueMerge id).merges, P m := by
    intro P hold hnew m hm
    unfold PhaseOrchestrator.commitAndEnqueueMerge at hm
    simp only [phase_eq hp] at hm
    rcases List.mem_append.mp hm with hm | hm
    · exact hold m hm
    · obtain rfl := List.mem_singleton.mp hm
      exact hnew
  have hmerges : (w.commitAndEnqueueMerge id).merges = w.merges ++
      [{ phaseId := id, stage := .deps (p.dependsOn.filterMap w.phaseMergePromise.get?) }] := by
    unfold PhaseOrchestrator.commitAndEnqueueMerge
    simp only [phase_eq hp]
  refine ⟨h.calls, h.alone, ?_, ?_, h.running, h.deps, h.completed, h.workable, h.ready, ?_, ?_, ?_, ?_⟩
  · intro j id' s hj
    refine hlast (h.unmerged j id' s hj) ?_
    rintro rfl
    exact hnone j s hj
  · intro id' q hq hstatus
    obtain ⟨hcalls, hfresh, hidle⟩ := h.fresh id' q hq hstatus
    refine ⟨hcalls, hlast hfresh ?_, hidle⟩
    rintro rfl
    obtain rfl := Option.some.inj (hp.symm.trans hq)
    simp [hs] at hstatus
  · rw [hmerges]
    intro k m hm
    rcases getElem?_concat_cases hm with hm | ⟨rfl, rfl⟩
    · obtain ⟨q, hq, hok⟩ := h.merges k m hm
      exact ⟨q, hq, hok.concat hm⟩
    · refine ⟨p, hp, hs, ?_, by simp [MergeStage.chained], fun _ hmem => ?_, by simp [MergeStage.staging],
        by simp [MergeStage.over]⟩
      · rintro awaited heq k' m' hlt hm' hdep
        obtain rfl := MergeStage.deps.inj heq
        rw [List.getElem?_append_left hlt] at hm'
        exact List.mem_filterMap.mpr ⟨_, hdep, h.promise k' m' hm'⟩
      · obtain ⟨m, hmem, heq⟩ := h.known id hmem
        exact hunmerged m hmem heq
  · rw [hmerges]
    intro k m hm
    have hpromise : (w.commitAndEnqueueMerge id).phaseMergePromise = w.phaseMergePromise.set id w.merges.length := rfl
    rw [hpromise, JsMap.get?_set]
    rcases getElem?_concat_cases hm with hm | ⟨rfl, rfl⟩
    · rw [if_neg (Ne.symm (hunmerged m (List.mem_of_getElem? hm)))]
      exact h.promise k m hm
    · exact if_pos rfl
  · rw [hmerges]
    exact h.queue.concat
  · intro id' hid'
    obtain ⟨m, hm, heq⟩ := h.known id' hid'
    rw [hmerges]
    exact ⟨m, List.mem_append_left _ hm, heq⟩

theorem Tidy.enqueues {a : Answer} (h : Tidy g changed w) (hat : At w i id .commitAll) :
    Tidy g changed (w.resumeCall o i id a .commitAll) := by
  obtain ⟨p, hp, hs⟩ := h.calls i id _ hat
  have hreturned : Tidy g changed (w.setCall i id .returned) :=
    h.turns hat rfl rfl rfl rfl rfl rfl (fun _ _ _ => trivial) (by simp [PhaseStage.working])
  refine hreturned.pushes hp hs (fun j s hj => ?_) (h.unmerged i id _ hat)
  rcases (at_set_iff (by rw [hat.1]; rfl) rfl).mp hj with ⟨-, -, -, hlive⟩ | ⟨hne, hj⟩
  · cases hlive
  · exact hne (h.alone j i id s _ hj hat)

theorem Tidy.resumeCall {a : Answer} (h : Tidy g changed w) (hi : w.phaseCalls[i]? = some { phaseId := id, stage }) :
    Tidy g changed (w.resumeCall o i id a stage) := by
  have hat : stage.live = true → At w i id stage := fun hlive => ⟨hi, hlive⟩
  cases stage with
  | allocate =>
      obtain ⟨p, hp, hbusy, hidle⟩ := h.calls i id _ (hat rfl)
      simp only [PhaseOrchestrator.resumeCall]
      split
      · have hsame : Tidy g changed { w with phaseWorktrees := id :: w.phaseWorktrees } := h.same rfl rfl rfl rfl rfl rfl
        exact hsame.nextBatch (hat rfl) hp hbusy hidle
      · exact h.nextBatch (hat rfl) hp hbusy hidle
  | executeTasks batch => exact h.executes (hat rfl)
  | tasksDone =>
      obtain ⟨p, hp, hbusy, hoff⟩ := h.calls i id _ (hat rfl)
      have hturns : ∀ stage', stage'.working = true → (∀ q, PhaseStage.tasksDone.Fits w.stopped q →
          stage'.Fits w.stopped q) → Tidy g changed (w.setCall i id stage') := fun stage' hworking hfits =>
        h.turns (hat rfl) rfl rfl rfl rfl rfl rfl (fun q _ => hfits q) fun _ => hworking
      simp only [PhaseOrchestrator.resumeCall]
      split
      · exact h.fails (hat rfl) hp
      · split
        · exact hturns _ rfl fun _ hq => hq
        · split
          · exact hturns _ rfl fun _ hq => hq
          · exact hturns _ rfl fun _ hq => hq
  | verifyPhase attempt =>
      have hturns : ∀ stage', stage'.working = true → (∀ q, (PhaseStage.verifyPhase attempt).Fits w.stopped q →
          stage'.Fits w.stopped q) → Tidy g changed (w.setCall i id stage') := fun stage' hworking hfits =>
        h.turns (hat rfl) rfl rfl rfl rfl rfl rfl (fun q _ => hfits q) fun _ => hworking
      simp only [PhaseOrchestrator.resumeCall]
      split
      · exact hturns _ rfl fun _ hq => hq
      · split
        · exact hturns _ rfl fun _ hq => hq
        · exact hturns _ rfl fun _ hq => hq
  | repairPhase attempt =>
      have hturns : ∀ stage', stage'.working = true → (∀ q, (PhaseStage.repairPhase attempt).Fits w.stopped q →
          stage'.Fits w.stopped q) → Tidy g changed (w.setCall i id stage') := fun stage' hworking hfits =>
        h.turns (hat rfl) rfl rfl rfl rfl rfl rfl (fun q _ => hfits q) fun _ => hworking
      simp only [PhaseOrchestrator.resumeCall]
      split
      · exact hturns _ rfl fun _ hq => hq
      · exact hturns _ rfl fun _ hq => hq
  | verified ok =>
      cases ok with
      | true => exact h.completes (hat rfl)
      | false =>
          obtain ⟨p, hp, -⟩ := h.calls i id _ (hat rfl)
          exact h.fails (hat rfl) hp
  | commitAll => exact h.enqueues (hat rfl)
  | keepCommit =>
      obtain ⟨p, hp, hs⟩ := h.calls i id _ (hat rfl)
      have hnot := h.not_running (hat rfl) rfl
      have hmaps : Maps id (fun p => { p with integrationStatus := some .notMergedFailedPhase }) w
          (w.resumeCall o i id a .keepCommit) := maps_modify rfl
      have hnext : PhaseStage.keepRelease.Fits w.stopped { p with integrationStatus := some .notMergedFailedPhase } := hs
      refine h.goes (hat rfl) (hmaps.onlyPhase hp rfl (fun ht => ht) fun hw => hw) rfl rfl rfl rfl ?_ hnext
        (hnext.not_new rfl) (fun hr => hr) fun hc => .inr ⟨hc, rfl⟩
      intro id' hid'
      exact ⟨hid', fun heq => absurd (heq ▸ hid') hnot⟩
  | keepRelease => exact h.turns (hat rfl) rfl rfl rfl rfl rfl rfl (fun _ _ _ => trivial) (by simp [PhaseStage.working])
  | returned | rejected => exact h

end WrongStack.AutoPhase
