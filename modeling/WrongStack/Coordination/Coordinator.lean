import Mathlib.Algebra.Order.Floor.Ring
import Mathlib.Data.Rat.Floor
import WrongStack.Lib.JsMap
import WrongStack.Lib.Run

/-!
# The multi-agent coordinator

`DefaultMultiAgentCoordinator` (`core/src/coordination/multi-agent-coordinator.ts`). Its methods run
to completion without an `await`, except for the `await` of the runner inside `runDispatched`: an
execution that has started and has not settled is a `Run` of the state, and `settle` is the rest of
`runDispatched`. Nicknames, bridges, budgets, durations and the fleet bus are left out.
-/

namespace WrongStack.Coordination

open Lib

/-! ## Data -/

inductive SubagentStatus
  | running | idle | stopped | error
  deriving DecidableEq

structure TaskSpec where
  id : String
  subagentId : Option String := none
  deriving DecidableEq

inductive TaskStatus
  | success | failed | timeout | stopped
  deriving DecidableEq

inductive SubagentErrorKind
  | provider5xx | providerRateLimit | providerTimeout | providerAuth | contextOverflow | toolFailed
  | toolThrew | budgetIterations | budgetToolCalls | budgetTokens | budgetCost | budgetTimeout
  | abortedByParent | emptyResponse | bridgeFailed | unknown
  deriving DecidableEq

structure SubagentError where
  kind : SubagentErrorKind
  message : String
  retryable : Bool
  deriving DecidableEq

structure TaskResult where
  subagentId : String
  taskId : String
  status : TaskStatus
  error : Option SubagentError := none
  iterations : Nat
  toolCalls : Nat
  deriving DecidableEq

/-- An entry object of the `subagents` map. `key` is the identity of the object: a new entry under
an old id is another object. `aborted` is `abortController.signal.aborted`. -/
structure SubagentEntry where
  key : Nat
  status : SubagentStatus
  currentTask : Option String := none
  aborted : Bool := false
  tasks : List TaskSpec := []
  deriving DecidableEq

/-- What the coordinator emits on itself. -/
inductive Event
  | subagentStarted (id : String)
  | subagentStopped (id reason : String)
  | taskAssigned (task : TaskSpec) (subagentId : String)
  | taskCompleted (task : TaskSpec) (result : TaskResult)
  | inFlightUnderflow (taskId subagentId : String)
  | done (results : List TaskResult) (totalIterations : Nat)
  deriving DecidableEq

/-- A call of the runner that `runDispatched` is awaiting, with the entry object it was started on. -/
structure Run where
  runId : Nat
  subagentId : String
  entry : Nat
  task : TaskSpec
  deriving DecidableEq

inductive DoneCondition
  | allTasksDone
  | other (maxIterations : Option Nat)
  deriving DecidableEq

structure Config where
  maxConcurrent : Option Int := none
  doneCondition : DoneCondition := .allTasksDone
  runner : Bool := true
  deriving DecidableEq

structure State where
  config : Config
  subagents : JsMap String SubagentEntry := .empty
  pendingTasks : List TaskSpec := []
  completedResults : List TaskResult := []
  totalIterations : Nat := 0
  inFlight : Nat := 0
  terminating : List String := []
  events : List Event := []
  runs : List Run := []
  nextKey : Nat := 0
  nextRun : Nat := 0
  deriving DecidableEq

def MAX_COMPLETED_RESULTS : Nat := 10000

/-- `randomUUID()` never returns the empty string. -/
abbrev Uuid := { u : String // u ≠ "" }

/-- The result that `emitPendingAborted` makes up for a task that never started. -/
def TaskSpec.abortedResult (message : String) (task : TaskSpec) : TaskResult where
  subagentId := task.subagentId.getD "unassigned"
  taskId := task.id
  status := .stopped
  error := some { kind := .abortedByParent, message, retryable := false }
  iterations := 0
  toolCalls := 0

/-- Back to idle with a fresh cancellation scope, unless the subagent was stopped. -/
def SubagentEntry.release (e : SubagentEntry) : SubagentEntry :=
  if e.status = .stopped then e
  else { e with status := .idle, currentTask := none, aborted := false }

/-- A string read as a condition: `undefined` and `''` are falsy. -/
def truthy : Option String → Option String
  | some id => if id = "" then none else some id
  | none => none

namespace State

variable (s : State)

def emit (e : Event) : State := { s with events := s.events ++ [e] }

def isTerminating (id : String) : Bool := s.terminating.contains id

def maxConcurrent : Int := s.config.maxConcurrent.getD 16

def hasSlot : Bool := decide ((s.inFlight : Int) < s.maxConcurrent)

/-! ## Dispatching -/

def canDispatch : Bool := s.hasSlot && !s.pendingTasks.isEmpty

def isIdleSubagent (id : String) : Bool :=
  match s.subagents.get? id with
  | some subagent => subagent.status == .idle && !s.isTerminating id
  | none => false

def findIdleSubagent : Option String :=
  (s.subagents.entries.find? fun p => p.2.status == .idle && !s.isTerminating p.1).map Prod.fst

def hasLiveSubagent : Bool :=
  s.subagents.size == 0 ||
    s.subagents.entries.any fun p => p.2.status != .stopped && !s.isTerminating p.1

/-- The subagent that `takeNextDispatchableTask` would give `task` to. -/
def targetOf (task : TaskSpec) : Option String :=
  truthy <| match truthy task.subagentId with
    | some id => if s.isIdleSubagent id then some id else none
    | none => s.findIdleSubagent

/-- The first task of the queue that has a target, its target, and the queue without it. -/
def takeFrom : List TaskSpec → Option (String × TaskSpec × List TaskSpec)
  | [] => none
  | task :: rest =>
      match s.targetOf task with
      | some subagentId => some (subagentId, task, rest)
      | none => (takeFrom rest).map fun (subagentId, t, rest) => (subagentId, t, task :: rest)

def takeNextDispatchableTask : Option (String × TaskSpec × State) :=
  (s.takeFrom s.pendingTasks).map fun (subagentId, task, rest) =>
    (subagentId, task, { s with pendingTasks := rest })

def emitPendingAborted (message : String) (task : TaskSpec) : State :=
  let synthetic := task.abortedResult message
  { s with completedResults := s.completedResults ++ [synthetic] }.emit (.taskCompleted task synthetic)

def drainPendingAsAborted (message : String) : State :=
  s.pendingTasks.foldl (fun s t => s.emitPendingAborted message t) { s with pendingTasks := [] }

def isDone : Bool :=
  match s.config.doneCondition with
  | .allTasksDone => s.pendingTasks.isEmpty && s.inFlight == 0
  | .other (some maxIterations) => decide (maxIterations ≤ s.totalIterations)
  | .other none => false

def trimCompleted (results : List TaskResult) : List TaskResult :=
  results.drop (results.length - MAX_COMPLETED_RESULTS)

/-- The head of `recordCompletion`: the result is stored, and the slot and the worker are given
back. -/
def settleSlot (result : TaskResult) : State :=
  { s with
    completedResults := trimCompleted (s.completedResults ++ [result])
    totalIterations := s.totalIterations + result.iterations
    inFlight := s.inFlight - 1
    subagents := s.subagents.modify result.subagentId SubagentEntry.release
    terminating := s.terminating.filter (· ≠ result.subagentId) }

/-- The task object the `task.completed` event carries. -/
def completedTask (result : TaskResult) : TaskSpec :=
  (((s.subagents.get? result.subagentId).bind fun e => e.tasks.find? (·.id == result.taskId))).getD
    { id := result.taskId }

/-- `recordCompletion`; the argument is the call of `tryDispatchNext` it ends with. -/
def recordCompletion (tryDispatchNext : State → State) (result : TaskResult) : State :=
  if s.inFlight = 0 && s.config.runner then
    { s with
      completedResults := trimCompleted (s.completedResults ++ [result])
      totalIterations := s.totalIterations + result.iterations }.emit
        (.inFlightUnderflow result.taskId result.subagentId)
  else
    let s := s.settleSlot result
    let s := tryDispatchNext (s.emit (.taskCompleted (s.completedTask result) result))
    if s.isDone then s.emit (.done s.completedResults s.totalIterations) else s

/-- The state in which the runner has just been called with `task` on the entry of `subagentId`. -/
def startRun (subagentId : String) (entry : SubagentEntry) (task : TaskSpec) : State :=
  let task := { task with subagentId := some subagentId }
  let s := { s with
    subagents := s.subagents.set subagentId
      { entry with status := .running, currentTask := some task.id, tasks := entry.tasks ++ [task] } }
  let s := s.emit (.taskAssigned task subagentId)
  if s.config.runner then
    { s with
      inFlight := s.inFlight + 1
      runs := s.runs ++ [{ runId := s.nextRun, subagentId, entry := entry.key, task }]
      nextRun := s.nextRun + 1 }
  else s

/-- `runDispatched` up to the `await` of the runner. -/
def runDispatched (tryDispatchNext : State → State) (subagentId : String) (task : TaskSpec) : State :=
  match s.subagents.get? subagentId with
  | none => s
  | some subagent =>
      if s.isTerminating subagentId || subagent.status == .stopped then
        s.recordCompletion tryDispatchNext
          { subagentId, taskId := task.id, status := .stopped
            error := some
              { kind := .abortedByParent
                message := "Subagent was terminated before task could start", retryable := false }
            iterations := 0, toolCalls := 0 }
      else s.startRun subagentId subagent task

/-- The `while` loop of `tryDispatchNext`. Every turn takes a task off the queue, so the length of
the queue bounds the turns; the nested calls through `recordCompletion` start after a task is off. -/
def dispatchLoop : Nat → State → State
  | 0, s => s
  | fuel + 1, s =>
      if s.canDispatch then
        match s.takeNextDispatchableTask with
        | some (subagentId, task, s) =>
            dispatchLoop fuel (s.runDispatched (dispatchLoop fuel) subagentId task)
        | none =>
            if !s.pendingTasks.isEmpty && !s.hasLiveSubagent then
              s.drainPendingAsAborted "No live subagent available — all stopped or mid-termination"
            else s
      else s

def tryDispatchNext : State := dispatchLoop s.pendingTasks.length s

/-! ## The public methods -/

inductive Error
  /-- `Subagent id "…" already exists — refusing to overwrite` -/
  | duplicateSubagent (id : String)
  /-- `maxConcurrent must be a finite integer >= 1, got …` -/
  | invalidMaxConcurrent
  deriving DecidableEq

/-- `setMaxConcurrent`; `none` is a number that is not finite. -/
def setMaxConcurrent : Option ℚ → Except Error State
  | none => .error .invalidMaxConcurrent
  | some n =>
      if n < 1 then .error .invalidMaxConcurrent
      else .ok { s with config := { s.config with maxConcurrent := some ⌊n⌋ } }.tryDispatchNext

def spawn (requested : Option String) (randomUUID : Uuid) : Except Error State :=
  let id := (truthy requested).getD randomUUID
  if s.subagents.has id then .error (.duplicateSubagent id)
  else .ok
    ({ s with
      subagents := s.subagents.set id { key := s.nextKey, status := .idle }
      nextKey := s.nextKey + 1 }.emit (.subagentStarted id))

def assign (task : TaskSpec) : State :=
  { s with pendingTasks := s.pendingTasks ++ [task] }.tryDispatchNext

def stop (subagentId : String) : State :=
  match s.subagents.get? subagentId with
  | none => s
  | some subagent =>
      { s with
        terminating := s.terminating.insert subagentId
        subagents := s.subagents.set subagentId
          { subagent with aborted := true, status := .stopped, currentTask := none } }.emit
        (.subagentStopped subagentId "stopped by coordinator")

def stopAll : State :=
  let s := s.drainPendingAsAborted "Coordinator stopAll() drained the pending queue"
  s.subagents.keys.foldl stop s

/-- Replace the pin of the first queued task with the id `taskId`. -/
def retargetIn (taskId : String) (subagentId : Option String) : List TaskSpec → List TaskSpec
  | [] => []
  | task :: rest =>
      if task.id = taskId then { task with subagentId } :: rest
      else task :: retargetIn taskId subagentId rest

def retargetPendingTask (taskId : String) (subagentId : Option String) : State × Bool :=
  if !s.pendingTasks.any (·.id == taskId) then (s, false)
  else if subagentId.any fun id => !s.subagents.has id then (s, false)
  else
    ({ s with pendingTasks := retargetIn taskId subagentId s.pendingTasks }.tryDispatchNext, true)

def remove (subagentId : String) : State :=
  match s.subagents.get? subagentId with
  | none => s
  | some _ =>
      -- the entry object is stopped and aborted before it is dropped, so only its runs still see it
      let orphaned := s.pendingTasks.filter (·.subagentId == some subagentId)
      orphaned.foldl
        (fun s t => s.emitPendingAborted
          s!"Subagent \"{subagentId}\" was removed while task \"{t.id}\" was pending" t)
        { s with
          subagents := s.subagents.delete subagentId
          terminating := s.terminating.filter (· ≠ subagentId)
          pendingTasks := s.pendingTasks.filter (·.subagentId != some subagentId) }

/-! ## Settlement of a run -/

/-- How `executeWithTimeout` ends. A rejection carries what `classifySubagentError` makes of the
error (given whether the signal was aborted), whether it is a timeout `BudgetExceededError`, and
whether the watchdog raised it. -/
inductive Settlement
  | resolve (iterations toolCalls : Nat)
  | reject (classify : Bool → SubagentError) (isTimeout byWatchdog : Bool) (iterations toolCalls : Nat)

/-- `subagent.abortController.signal.aborted` as the `catch` block reads it. `remove` aborts the
controller of the entry it drops, so a run whose entry is gone sees an aborted signal. -/
def signalAborted (r : Run) : Bool :=
  match s.subagents.get? r.subagentId with
  | some e => if e.key = r.entry then e.aborted else true
  | none => true

/-- The watchdog aborts the controller it finds under the id of the run. -/
def abortByWatchdog (r : Run) : Settlement → State
  | .reject _ _ true _ _ => { s with subagents := s.subagents.modify r.subagentId ({ · with aborted := true }) }
  | _ => s

def resultOf (r : Run) : Settlement → TaskResult
  | .resolve iterations toolCalls =>
      { subagentId := r.subagentId, taskId := r.task.id, status := .success, iterations, toolCalls }
  | .reject classify isTimeout _ iterations toolCalls =>
      { subagentId := r.subagentId, taskId := r.task.id
        status := if isTimeout then .timeout else if s.signalAborted r then .stopped else .failed
        error := some (classify (s.signalAborted r)), iterations, toolCalls }

/-- The runner of `runId` settles and `runDispatched` goes on after its `await`. -/
def settle (runId : Nat) (how : Settlement) : State :=
  match s.runs.find? (·.runId == runId) with
  | none => s
  | some r =>
      let s := { s with runs := s.runs.filter (·.runId ≠ runId) }.abortByWatchdog r how
      s.recordCompletion tryDispatchNext (s.resultOf r how)

end State

/-! ## Runs of the coordinator -/

inductive Op
  | spawn (requested : Option String) (randomUUID : Uuid)
  | assign (task : TaskSpec)
  | retargetPendingTask (taskId : String) (subagentId : Option String)
  | stop (subagentId : String)
  | stopAll
  | remove (subagentId : String)
  | setMaxConcurrent (n : Option ℚ)
  | settle (runId : Nat) (how : State.Settlement)

/-- One call or settlement. A call that throws leaves the state as it was. -/
def step (s : State) : Op → State
  | .spawn requested randomUUID => (s.spawn requested randomUUID).toOption.getD s
  | .assign task => s.assign task
  | .retargetPendingTask taskId subagentId => (s.retargetPendingTask taskId subagentId).1
  | .stop subagentId => s.stop subagentId
  | .stopAll => s.stopAll
  | .remove subagentId => s.remove subagentId
  | .setMaxConcurrent n => (s.setMaxConcurrent n).toOption.getD s
  | .settle runId how => s.settle runId how

def init (config : Config) : State := { config }

end WrongStack.Coordination
