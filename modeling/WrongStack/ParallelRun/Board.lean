import Mathlib.Data.List.Sort
import WrongStack.Sdd.TaskTracker

/-!
# The board of a parallel run

What `SddParallelRun` (`core/src/sdd/sdd-parallel-run.ts`) keeps per task, with the methods that run to
completion without an `await`, and the queries of `SddTaskDecomposer`
(`core/src/sdd/sdd-task-decomposer.ts`) on the tracker. Board events, nicknames and worker models are
left out.
-/

namespace WrongStack.ParallelRun

open Lib Sdd

inductive Priority
  | critical | high | medium | low
  deriving DecidableEq

def Priority.rank : Priority → Nat
  | .critical => 0
  | .high => 1
  | .medium => 2
  | .low => 3

/-- The fields of a `TaskNode` that the run reads and the tracker does not. `retries` and `cancelled`
are those of its metadata. -/
structure NodeInfo where
  priority : Priority := .medium
  createdAt : Nat := 0
  retries : Nat := 0
  cancelled : Bool := false
  deriving DecidableEq

structure SddSubtaskSpec where
  priority : Option Priority := none
  deriving DecidableEq

structure Board where
  tracker : TaskTracker
  info : JsMap TaskId NodeInfo := .empty
  retryMap : JsMap TaskId Nat := .empty
  supervisorEscalations : JsMap TaskId Nat := .empty
  cancelledTasks : List TaskId := []

namespace Board

variable (b : Board)

abbrev graph : TaskGraph := b.tracker.graph

def infoOf (id : TaskId) : NodeInfo := (b.info.get? id).getD {}

/-- A change of the node object, when there is one. -/
def patch (id : TaskId) (f : NodeInfo → NodeInfo) : Board :=
  if b.graph.nodes.has id then { b with info := b.info.set id (f (b.infoOf id)) } else b

def persistRetries (id : TaskId) (retries : Nat) : Board := b.patch id fun n => { n with retries }

def updateNodeStatus (id : TaskId) (status : TaskStatus) (reason : Option String) :
    Except SddError Board :=
  (b.tracker.updateNodeStatus id status reason).map fun tracker => { b with tracker }

/-- `updateNodeStatus` of a node that was found just before. -/
def setStatus (id : TaskId) (status : TaskStatus) (reason : Option String) : Board :=
  (b.updateNodeStatus id status reason).toOption.getD b

/-! ## Queries -/

def allNodes (status : TaskStatus) : List TaskId :=
  (b.graph.nodes.entries.filter fun p => p.2.status == status).map Prod.fst

/-- By priority, then by creation time. -/
def Before (x y : TaskId) : Prop :=
  (b.infoOf x).priority.rank < (b.infoOf y).priority.rank ∨
    (b.infoOf x).priority.rank = (b.infoOf y).priority.rank ∧
      (b.infoOf x).createdAt ≤ (b.infoOf y).createdAt

instance : DecidableRel b.Before := fun x y => by unfold Before; infer_instance

def readyNodes : List TaskId := ((b.allNodes .pending).filter b.graph.canStart).insertionSort b.Before

def isTerminal (status : TaskStatus) : Bool := status == .completed || status == .failed

def isSettled : Bool :=
  b.graph.nodes.size != 0 && b.graph.nodes.entries.all fun p => isTerminal p.2.status

/-- `getProgress().completed` -/
def completedCount : Nat := (b.allNodes .completed).length

def computeDeadlockChains : List (TaskId × List TaskId) :=
  (b.graph.nodes.entries.filter fun p => !isTerminal p.2.status).filterMap fun p =>
    let blockedBy := (b.graph.getBlockers p.1).filter fun id => b.graph.statusOf id != some .completed
    if blockedBy.isEmpty then none else some (p.1, blockedBy)

/-- A node that is missing counts as incomplete. -/
def blocksIncomplete (id : TaskId) : Bool :=
  (b.graph.getDependents id).any fun d =>
    b.graph.statusOf d != some .completed && b.graph.statusOf d != some .failed

/-! ## Requeueing -/

/-- Back to `pending` with a fresh budget of retries. -/
def requeue (id : TaskId) (reason : String) : Board :=
  ({ b with retryMap := b.retryMap.delete id }.persistRetries id 0).setStatus id .pending (some reason)

def recoverFailedBlockers : Board × Bool :=
  (b.allNodes .failed).foldl (fun (b, recovered) id =>
    if b.blocksIncomplete id then (b.requeue id "deadlock recovery", true) else (b, recovered)) (b, false)

def requeueFailedTasks (reason : String) : Board × Nat :=
  (b.allNodes .failed).foldl (fun (b, n) id =>
    if b.cancelledTasks.contains id || (b.infoOf id).cancelled then (b, n)
    else (b.requeue id reason, n + 1)) (b, 0)

/-- The cancel marker is cleared. -/
def uncancel (id : TaskId) : Board :=
  { b with cancelledTasks := b.cancelledTasks.filter (· != id) }.patch id ({ · with cancelled := false })

def retryAllFailed : Board × Nat :=
  ((b.allNodes .failed).foldl uncancel b).requeueFailedTasks "manual retry all"

def retryTask (id : TaskId) : Board × Bool :=
  if b.graph.nodes.has id then
    ((({ b with retryMap := b.retryMap.delete id }.persistRetries id 0).uncancel id).setStatus id .pending
      (some "manual retry"), true)
  else (b, false)

/-! ## The other controls -/

/-- `cancelTask` up to the `stop` of the subagent. -/
def cancelTask (id : TaskId) : Board × Bool :=
  if b.graph.nodes.has id then
    (({ b with cancelledTasks := b.cancelledTasks.insert id }.patch id
      ({ · with cancelled := true })).setStatus id .failed (some "cancelled by user"), true)
  else (b, false)

/-- The task is running: in progress, or with a live subagent. -/
def isRunning (taskSubagents : JsMap TaskId String) (id : TaskId) : Bool :=
  b.graph.statusOf id == some .inProgress || taskSubagents.has id

def deleteTask (taskSubagents : JsMap TaskId String) (id : TaskId) : Board × Bool :=
  if !b.graph.nodes.has id || b.isRunning taskSubagents id then (b, false)
  else
    ({ b with
        cancelledTasks := b.cancelledTasks.filter (· != id)
        retryMap := b.retryMap.delete id
        tracker := { b.tracker with graph := (b.graph.removeNode id).1 }
        info := b.info.delete id }, (b.graph.removeNode id).2)

def addNode (parentId : TaskId) (info : NodeInfo) : Board :=
  { b with
    tracker := b.tracker.addNode { status := some .pending, parentId := some parentId }
    info := b.info.set b.tracker.nextId info }

def addDependency (depId id : TaskId) : Board :=
  { b with tracker := { b.tracker with graph := (b.graph.addDependency depId id).1 } }

/-- The new leaves of `splitTask`, in order. `now` is the time. -/
def addLeaves (taskId : TaskId) (now : Nat) (subtasks : List SddSubtaskSpec) : Board × List TaskId :=
  let priority := (b.infoOf taskId).priority
  subtasks.foldl (fun (b, leafIds) s =>
    (b.addNode taskId { priority := s.priority.getD priority, createdAt := now },
      leafIds ++ [b.tracker.nextId])) (b, [])

/-- Each leaf inherits the blockers, and every dependent waits on each leaf. -/
def rewire (blockers dependents leafIds : List TaskId) : Board :=
  leafIds.foldl (fun b leaf =>
    let b := blockers.foldl (fun b dep => b.addDependency dep leaf) b
    dependents.foldl (fun b dep => b.addDependency leaf dep) b) b

def splitTask (taskSubagents : JsMap TaskId String) (taskId : TaskId) (now : Nat)
    (subtasks : List SddSubtaskSpec) : Board × List TaskId :=
  if !b.graph.nodes.has taskId || b.isRunning taskSubagents taskId || subtasks.isEmpty then (b, [])
  else
    let (grown, leafIds) := b.addLeaves taskId now subtasks
    let wired := grown.rewire (b.graph.getBlockers taskId) (b.graph.getDependents taskId) leafIds
    (({ wired with retryMap := wired.retryMap.delete taskId }.persistRetries taskId 0).setStatus taskId
      .completed (some s!"split into {leafIds.length} subtasks"), leafIds)

/-! ## Before and after a run -/

def restoreRetryMap : Board :=
  { b with
    retryMap := b.graph.nodes.entries.foldl (fun m p =>
      if (b.infoOf p.1).retries = 0 then m else m.set p.1 (b.infoOf p.1).retries) .empty }

def resetInProgress (reason : String) : Board :=
  (b.allNodes .inProgress).foldl (fun b id => b.setStatus id .pending (some reason)) b

def resetOrphans : Board := b.resetInProgress "resume: orphaned in_progress"

end Board

end WrongStack.ParallelRun
