import Mathlib.Data.List.Sort
import WrongStack.Worktree.Manager

/-!
# Phase graphs

`core/src/autophase/types.ts`: phases with a task graph each, and the graph's three lists of phase ids. Of a
phase, what the orchestrator reads; its id is its key. The task tracker of a phase works on the task graph of
the phase itself.
-/

namespace WrongStack.AutoPhase

open Lib Sdd

abbrev PhaseId := Nat

inductive PhaseStatus
  | pending | ready | running | paused | completed | failed | skipped
  deriving DecidableEq

inductive Priority
  | critical | high | medium | low
  deriving DecidableEq

/-- `prioOrder` -/
def Priority.order : Priority → Nat
  | critical => 0
  | high => 1
  | medium => 2
  | low => 3

/-- The `integrationStatus` of a phase's metadata. -/
inductive IntegrationStatus
  | merged | needsReview | mergeFailed | notMergedFailedPhase
  deriving DecidableEq

structure PhaseNode where
  status : PhaseStatus := .pending
  taskGraph : TaskGraph := {}
  /-- The priorities of the tasks, which the tracker does not read. -/
  taskPriority : TaskId → Priority := fun _ => .medium
  dependsOn : List PhaseId := []
  priority : Priority := .medium
  integrationStatus : Option IntegrationStatus := none

structure PhaseGraph where
  phases : JsMap PhaseId PhaseNode := .empty
  activePhaseIds : List PhaseId := []
  completedPhaseIds : List PhaseId := []
  failedPhaseIds : List PhaseId := []

namespace PhaseNode

variable (p : PhaseNode)

/-- The tasks that are pending and can start, the most urgent first. -/
def getExecutableTasks : List TaskId :=
  (p.taskGraph.nodes.keys.filter fun t =>
    p.taskGraph.statusOf t == some .pending && p.taskGraph.canStart t).insertionSort
      fun t t' => (p.taskPriority t).order ≤ (p.taskPriority t').order

def getFailedTaskCount : Nat :=
  (p.taskGraph.nodes.keys.filter fun t => p.taskGraph.statusOf t == some .failed).length

/-- No task is ever removed, so the id that the tracker is given is there. -/
def updateNodeStatus (t : TaskId) (status : TaskStatus) : PhaseNode :=
  match TaskTracker.updateNodeStatus { graph := p.taskGraph } t status none with
  | .ok tracker => { p with taskGraph := tracker.graph }
  | .error _ => p

/-- A task that a dead process has left in progress. -/
def resetTasks : PhaseNode :=
  { p with taskGraph := p.taskGraph.nodes.keys.foldl (fun g t =>
      if g.statusOf t = some .inProgress then g.setStatus t .pending else g) p.taskGraph }

def terminal : Bool :=
  p.status == .completed || p.status == .skipped || p.status == .failed

end PhaseNode

namespace PhaseGraph

variable (g : PhaseGraph)

def statusOf (id : PhaseId) : Option PhaseStatus := (g.phases.get? id).map PhaseNode.status

def modifyPhase (id : PhaseId) (f : PhaseNode → PhaseNode) : PhaseGraph :=
  { g with phases := g.phases.modify id f }

def updatePhaseStatus (id : PhaseId) (status : PhaseStatus) : PhaseGraph :=
  g.modifyPhase id fun p => { p with status }

/-- A dependency that is not in the graph is never done. -/
def depDone (id : PhaseId) : Bool := (g.phases.get? id).any PhaseNode.terminal

def getReadyPhases : List PhaseId :=
  ((g.phases.entries.filter fun e => e.2.status == .pending && e.2.dependsOn.all g.depDone).insertionSort
    fun e e' => e.2.priority.order ≤ e'.2.priority.order).map Prod.fst

def getActivePhases : List PhaseId :=
  (g.phases.entries.filter fun e => e.2.status == .running).map Prod.fst

def isComplete : Bool := g.phases.entries.all fun e => e.2.terminal

def findPhaseOfTask (t : TaskId) : Option PhaseId :=
  (g.phases.entries.find? fun e => e.2.taskGraph.nodes.has t).map Prod.fst

def normalizePhase (p : PhaseNode) : PhaseNode :=
  let p := if p.status = .running then { p with status := .pending } else p
  if p.status = .pending then p.resetTasks else p

def normalizeForResume : PhaseGraph :=
  { g with
    activePhaseIds := []
    phases := g.phases.keys.foldl (fun m id => m.modify id normalizePhase) g.phases }

end PhaseGraph

end WrongStack.AutoPhase

/-!
# The phase orchestrator

`PhaseOrchestrator` (`core/src/autophase/phase-orchestrator.ts`) with every call in flight at the `await` where
it stands; an operation takes one of them to its next `await`, given what came of the call that it awaits.
Events, times, logs, the board's other actions and the metadata that is only displayed are left out. Ticks
come at any time. A worktree is known by the phase that owns it, as in the commits on the base.
-/

namespace WrongStack.AutoPhase

open Lib Sdd

structure PhaseOrchestratorOptions where
  maxConcurrentPhases : Nat := 1
  maxConcurrentTasks : Nat := 2
  maxRetries : Nat := 2
  maxVerifyAttempts : Nat := 2
  phaseDelayMs : Nat := 0
  stopOnFailure : Bool := false
  /-- A worktree manager is wired; and so for the three optional callbacks. -/
  worktrees : Bool := false
  verifyPhase : Bool := false
  repairPhase : Bool := false
  resolveConflict : Bool := false

/-- Where a call of `startPhase` stands. -/
inductive PhaseStage
  | allocate
  | executeTasks (batch : List TaskId)
  | tasksDone
  | verifyPhase (attempt : Nat)
  | repairPhase (attempt : Nat)
  | verified (ok : Bool)
  | commitAll
  | keepCommit
  | keepRelease
  | returned
  | rejected
  deriving DecidableEq

structure PhaseCall where
  phaseId : PhaseId
  stage : PhaseStage
  deriving DecidableEq

/-- Where the merge of a phase stands. -/
inductive MergeStage
  /-- It awaits the merges of the dependencies. -/
  | deps (awaited : List Nat)
  /-- It is chained onto the queue, behind another merge or none. -/
  | queued (behind : Option Nat)
  | merge (stage : Worktree.MergeStage)
  | release
  | settled (rejected : Bool)
  deriving DecidableEq

structure Merge where
  phaseId : PhaseId
  stage : MergeStage
  deriving DecidableEq

/-- Where a call of `start` or `tick` stands. -/
inductive Driver
  | waitBefore (readyPhases : List PhaseId)
  | phases (calls : List Nat)
  | delay
  | waitAfter
  | drainMerges (awaited : List Nat)
  | drainQueue (tail : Option Nat)
  | tick (call : Nat) (rest : List PhaseId)
  | returned
  | rejected
  deriving DecidableEq

/-- What comes of an awaited call, and of the callbacks until the next one. -/
structure Answer where
  throws : Bool := false
  /-- The worktree is active. -/
  active : Bool := true
  /-- The tasks of the batch that were executed without an error. -/
  fulfilled : List TaskId := []
  /-- The verdict. -/
  ok : Bool := true
  onPhaseCompleteThrows : Bool := false
  onPhaseFailThrows : Bool := false
  /-- `onPhaseFail` is called a second time, for the error of the first, and throws. -/
  onPhaseFailThrowsAgain : Bool := false
  git : Worktree.Answer := {}

structure PhaseOrchestrator where
  graph : PhaseGraph
  stopped : Bool := false
  paused : Bool := false
  runningPhases : List PhaseId := []
  taskRetryCounts : JsMap (PhaseId × TaskId) Nat := .empty
  phaseWorktrees : List PhaseId := []
  /-- The merges that have been chained, the last one at the end. -/
  mergeQueue : List Nat := []
  phaseMergePromise : JsMap PhaseId Nat := .empty
  repo : Worktree.Repo := {}
  phaseCalls : List PhaseCall := []
  merges : List Merge := []
  drivers : List Driver := []

inductive Op
  | start
  | tick (onTickThrows : Bool)
  | pause
  | resume (onTickThrows : Bool)
  | stop
  | requeueTask (taskId : TaskId)
  | phaseCall (i : Nat) (a : Answer)
  | merge (k : Nat) (a : Answer)
  | driver (k : Nat)

namespace PhaseOrchestrator

variable (o : PhaseOrchestratorOptions) (w : PhaseOrchestrator)

def phase (id : PhaseId) : PhaseNode := (w.graph.phases.get? id).getD {}

def modifyPhase (id : PhaseId) (f : PhaseNode → PhaseNode) : PhaseOrchestrator :=
  { w with graph := w.graph.modifyPhase id f }

def setIntegrationMetadata (id : PhaseId) (status : IntegrationStatus) : PhaseOrchestrator :=
  w.modifyPhase id fun p => { p with integrationStatus := some status }

def setCall (i : Nat) (phaseId : PhaseId) (stage : PhaseStage) : PhaseOrchestrator :=
  { w with phaseCalls := w.phaseCalls.set i { phaseId, stage } }

def setMerge (k : Nat) (phaseId : PhaseId) (stage : MergeStage) : PhaseOrchestrator :=
  { w with merges := w.merges.set k { phaseId, stage } }

def setDriver (k : Nat) (driver : Driver) : PhaseOrchestrator := { w with drivers := w.drivers.set k driver }

/-! ## Tasks -/

def markTaskFailed (id : PhaseId) (t : TaskId) : PhaseOrchestrator :=
  let currentRetries := (w.taskRetryCounts.get? (id, t)).getD 0
  if currentRetries < o.maxRetries then
    { w with taskRetryCounts := w.taskRetryCounts.set (id, t) (currentRetries + 1) }.modifyPhase id
      fun p => p.updateNodeStatus t .pending
  else w.modifyPhase id fun p => p.updateNodeStatus t .failed

def markTask (id : PhaseId) (fulfilled : List TaskId) (t : TaskId) : PhaseOrchestrator :=
  if t ∈ fulfilled then w.modifyPhase id fun p => p.updateNodeStatus t .completed
  else w.markTaskFailed o id t

def startTasks (p : PhaseNode) (batch : List TaskId) : PhaseNode :=
  batch.foldl (fun p t => p.updateNodeStatus t .inProgress) p

/-- The head of the loop of `executePhaseTasks`. -/
def nextBatch (i : Nat) (id : PhaseId) : PhaseOrchestrator :=
  let tasks := (w.phase id).getExecutableTasks
  if tasks.isEmpty || w.stopped then w.setCall i id .tasksDone
  else
    let batch := tasks.take o.maxConcurrentTasks
    (w.modifyPhase id fun p => startTasks p batch).setCall i id (.executeTasks batch)

/-! ## Phases -/

def beginPhase (id : PhaseId) : PhaseOrchestrator :=
  let graph := w.graph.updatePhaseStatus id .running
  { w with
    graph := { graph with activePhaseIds := graph.activePhaseIds ++ [id] }
    runningPhases := if id ∈ w.runningPhases then w.runningPhases else w.runningPhases ++ [id] }

/-- The status of a phase that ends, and what all ends share of the bookkeeping. -/
def endPhase (id : PhaseId) (status : PhaseStatus) : PhaseOrchestrator :=
  let graph := w.graph.updatePhaseStatus id status
  { w with
    graph := { graph with activePhaseIds := graph.activePhaseIds.filter fun id' => id' != id }
    runningPhases := w.runningPhases.filter fun id' => id' != id }

def completePhase (id : PhaseId) : PhaseOrchestrator :=
  let w := w.endPhase id .completed
  { w with graph := { w.graph with completedPhaseIds := w.graph.completedPhaseIds ++ [id] } }

/-- The first lines of `failPhaseAfterTasks`. -/
def failTasks (id : PhaseId) : PhaseOrchestrator := w.endPhase id .failed

/-- The first lines of the handler of `startPhase`. -/
def failPhase (id : PhaseId) : PhaseOrchestrator :=
  let w := w.endPhase id .failed
  { w with graph := { w.graph with failedPhaseIds := w.graph.failedPhaseIds ++ [id] } }

def markPhaseMergeFailed (id : PhaseId) : PhaseOrchestrator :=
  let g := if w.graph.statusOf id = some .failed then w.graph
    else { w.graph with completedPhaseIds := w.graph.completedPhaseIds.filter fun id' => id' != id }.updatePhaseStatus
      id .failed
  { w with graph := if id ∈ g.failedPhaseIds then g else { g with failedPhaseIds := g.failedPhaseIds ++ [id] } }

/-- A new call, whose index is the number of the earlier ones. -/
def pushCall (phaseId : PhaseId) (stage : PhaseStage) : PhaseOrchestrator :=
  { w with phaseCalls := w.phaseCalls ++ [{ phaseId, stage }] }

def startPhase (id : PhaseId) : PhaseOrchestrator :=
  if w.graph.statusOf id = some .pending ∨ w.graph.statusOf id = some .ready then
    let begun := (w.pushCall id .allocate).beginPhase id
    if o.worktrees && !w.phaseWorktrees.contains id then begun else begun.nextBatch o w.phaseCalls.length id
  else w.pushCall id .returned

def keepWorktreeForReview (i : Nat) (id : PhaseId) : PhaseOrchestrator :=
  w.setCall i id (if o.worktrees && w.phaseWorktrees.contains id then .keepCommit else .returned)

def failPhaseAfterTasks (i : Nat) (id : PhaseId) (a : Answer) : PhaseOrchestrator :=
  let w := w.failTasks id
  if a.onPhaseFailThrows then
    let w := w.failPhase id
    if a.onPhaseFailThrowsAgain then w.setCall i id .rejected else w.keepWorktreeForReview o i id
  else w.keepWorktreeForReview o i id

def commitAndEnqueueMerge (id : PhaseId) : PhaseOrchestrator :=
  let depPromises := (w.phase id).dependsOn.filterMap w.phaseMergePromise.get?
  { w with
    merges := w.merges ++ [{ phaseId := id, stage := .deps depPromises }]
    phaseMergePromise := w.phaseMergePromise.set id w.merges.length }

def resumeCall (i : Nat) (id : PhaseId) (a : Answer) : PhaseStage → PhaseOrchestrator
  | .allocate =>
      let w := if !a.throws && a.active then { w with phaseWorktrees := id :: w.phaseWorktrees } else w
      w.nextBatch o i id
  | .executeTasks batch => (batch.foldl (fun w t => w.markTask o id a.fulfilled t) w).nextBatch o i id
  | .tasksDone =>
      if o.stopOnFailure && 0 < (w.phase id).getFailedTaskCount then w.failPhaseAfterTasks o i id a
      else if !o.verifyPhase then w.setCall i id (.verified true)
      else w.setCall i id (if w.stopped then .verified false else .verifyPhase 0)
  | .verifyPhase attempt =>
      if a.ok && !a.throws then w.setCall i id (.verified true)
      else if o.maxVerifyAttempts ≤ attempt || !o.repairPhase || w.stopped then w.setCall i id (.verified false)
      else w.setCall i id (.repairPhase attempt)
  | .repairPhase attempt =>
      w.setCall i id (if o.maxVerifyAttempts < attempt + 1 || w.stopped then .verified false
        else .verifyPhase (attempt + 1))
  | .verified true =>
      let w := w.completePhase id
      if a.onPhaseCompleteThrows then
        let w := w.failPhase id
        if a.onPhaseFailThrows then w.setCall i id .rejected else w.keepWorktreeForReview o i id
      else w.setCall i id (if o.worktrees && w.phaseWorktrees.contains id then .commitAll else .returned)
  | .verified false => w.failPhaseAfterTasks o i id a
  | .commitAll => (w.commitAndEnqueueMerge id).setCall i id .returned
  | .keepCommit => (w.setIntegrationMetadata id .notMergedFailedPhase).setCall i id .keepRelease
  | .keepRelease => w.setCall i id .returned
  | .returned | .rejected => w

/-! ## Merges -/

def settled (k : Nat) : Bool :=
  match w.merges[k]? with
  | some ⟨_, .settled _⟩ => true
  | _ => false

def mergeRejected (k : Nat) : Bool :=
  match w.merges[k]? with
  | some ⟨_, .settled rejected⟩ => rejected
  | _ => false

/-- The handler of `mergeOne`. Where `onPhaseFail` throws, the handler of the queue does the same once more. -/
def failMerge (k : Nat) (id : PhaseId) (a : Answer) : PhaseOrchestrator :=
  let w := (w.setIntegrationMetadata id .mergeFailed).markPhaseMergeFailed id
  if a.onPhaseFailThrows then (w.markPhaseMergeFailed id).setMerge k id (.settled a.onPhaseFailThrowsAgain)
  else w.setMerge k id (.settled false)

def resumeMerge (k : Nat) (id : PhaseId) (a : Answer) : MergeStage → PhaseOrchestrator
  | .deps awaited =>
      if awaited.all w.settled then
        { w with mergeQueue := w.mergeQueue ++ [k] }.setMerge k id (.queued w.mergeQueue.getLast?)
      else w
  | .queued behind =>
      if !behind.all w.settled then w
      -- a rejected queue goes straight to the handler
      else if behind.any w.mergeRejected then (w.markPhaseMergeFailed id).setMerge k id (.settled a.onPhaseFailThrows)
      else w.setMerge k id (.merge .checkout)
  | .merge stage =>
      if a.git.throws && !stage.catches then w.failMerge k id a
      else
        let r := stage.advance o.resolveConflict id w.repo a.git
        let w := { w with repo := r.1 }
        match r.2 with
        | .inl stage => w.setMerge k id (.merge stage)
        | .inr (.ok _) => (w.setIntegrationMetadata id .merged).setMerge k id .release
        | .inr (.notOk _) => (w.setIntegrationMetadata id .needsReview).setMerge k id .release
  | .release => if a.throws then w.failMerge k id a else w.setMerge k id (.settled false)
  | .settled _ => w

/-! ## The lifecycle -/

def stop : PhaseOrchestrator :=
  { w with
    stopped := true
    graph := w.runningPhases.foldl (fun g id => g.updatePhaseStatus id .paused) w.graph }

/-- The failed phase that `tick` looks at. -/
def failedPhase : Bool := w.graph.failedPhaseIds.head?.any w.graph.phases.has

def endTick : PhaseOrchestrator :=
  if w.graph.isComplete || (o.stopOnFailure && w.failedPhase) then w.stop else w

def tickLoop (k : Nat) : List PhaseId → PhaseOrchestrator
  | [] => (w.endTick o).setDriver k .returned
  | id :: rest =>
      if w.graph.statusOf id = some .pending then
        (w.startPhase o id).setDriver k (.tick w.phaseCalls.length rest)
      else tickLoop k rest

def tick (onTickThrows : Bool) : PhaseOrchestrator :=
  if w.stopped || w.paused || onTickThrows then w
  else
    let availableSlots := o.maxConcurrentPhases - w.graph.getActivePhases.length
    { w with drivers := w.drivers ++ [Driver.returned] }.tickLoop o w.drivers.length
      (w.graph.getReadyPhases.take availableSlots)

def callReturned (i : Nat) : Bool := (w.phaseCalls[i]?).any fun c => c.stage == .returned

def callRejected (i : Nat) : Bool := (w.phaseCalls[i]?).any fun c => c.stage == .rejected

/-- The head of the loop of `start`. -/
def startLoop (k : Nat) (readyPhases : List PhaseId) : PhaseOrchestrator :=
  if readyPhases.isEmpty || w.stopped then
    w.setDriver k (.drainMerges (w.phaseMergePromise.entries.map Prod.snd))
  else w.setDriver k (.waitBefore readyPhases)

def start : PhaseOrchestrator :=
  let w := { w with stopped := false, paused := false, graph := w.graph.normalizeForResume }
  { w with drivers := w.drivers ++ [Driver.returned] }.startLoop w.drivers.length w.graph.getReadyPhases

def startPhases (batch : List PhaseId) : PhaseOrchestrator := batch.foldl (fun w id => w.startPhase o id) w

def resumeDriver (k : Nat) : Driver → PhaseOrchestrator
  | .waitBefore readyPhases =>
      if w.stopped then w.startLoop k []
      else if w.paused then w
      else
        let batch := readyPhases.take o.maxConcurrentPhases
        (w.startPhases o batch).setDriver k (.phases (List.range' w.phaseCalls.length batch.length))
  | .phases calls =>
      if calls.any w.callRejected then w.setDriver k .rejected
      else if calls.all w.callReturned then w.setDriver k (if 0 < o.phaseDelayMs then .delay else .waitAfter)
      else w
  | .delay => w.setDriver k .waitAfter
  | .waitAfter =>
      if w.paused && !w.stopped then w
      else w.startLoop k (w.graph.getReadyPhases.filter fun id => !w.runningPhases.contains id)
  | .drainMerges awaited => if awaited.all w.settled then w.setDriver k (.drainQueue w.mergeQueue.getLast?) else w
  | .drainQueue tail => if tail.all w.settled then w.setDriver k .returned else w
  | .tick call rest =>
      if w.callRejected call then w.setDriver k .rejected
      else if w.callReturned call then w.tickLoop o k rest
      else w
  | .returned | .rejected => w

/-! ## The board -/

def requeueTask (taskId : TaskId) : PhaseOrchestrator :=
  match w.graph.findPhaseOfTask taskId with
  | none => w
  | some id =>
      let w := { w with taskRetryCounts := w.taskRetryCounts.delete (id, taskId) }.modifyPhase id
        fun p => p.updateNodeStatus taskId .pending
      let status := (w.phase id).status
      if status = .completed ∨ status = .failed ∨ status = .paused then
        let others (ids : List PhaseId) := ids.filter fun id' => id' != id
        let graph := w.graph.updatePhaseStatus id .pending
        { w with
          phaseWorktrees := others w.phaseWorktrees
          graph := { graph with
            failedPhaseIds := others graph.failedPhaseIds
            completedPhaseIds := others graph.completedPhaseIds
            activePhaseIds := others graph.activePhaseIds } }
      else w

def step : Op → PhaseOrchestrator
  | .start => w.start
  | .tick onTickThrows => w.tick o onTickThrows
  | .pause => { w with paused := true }
  | .resume onTickThrows => { w with paused := false }.tick o onTickThrows
  | .stop => w.stop
  | .requeueTask taskId => w.requeueTask taskId
  | .phaseCall i a =>
      match w.phaseCalls[i]? with
      | none => w
      | some c => w.resumeCall o i c.phaseId a c.stage
  | .merge k a =>
      match w.merges[k]? with
      | none => w
      | some m => w.resumeMerge o k m.phaseId a m.stage
  | .driver k =>
      match w.drivers[k]? with
      | none => w
      | some driver => w.resumeDriver o k driver

end PhaseOrchestrator

end WrongStack.AutoPhase
