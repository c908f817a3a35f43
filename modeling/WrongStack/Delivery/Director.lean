import WrongStack.Lib.JsMap
import WrongStack.Lib.Run

/-!
# Delivering task results

The waiters of `Director` (`core/src/coordination/director.ts`): `assign`, `assignInternal`, `awaitTasks`,
`awaitTasksAny`, `workComplete` and the listener on the coordinator's `task.completed`. The checkpoint, the
session events and the manifest are left out, and there is a `taskResultNotifier` that does not throw.
-/

namespace WrongStack.Delivery

open Lib

/-! ## Data -/

abbrev TaskId := String

/-- A task as the caller gives it; its id may be missing. -/
structure TaskRequest where
  id : Option TaskId := none
  description : String
  subagentId : Option String := none
  deriving DecidableEq

structure TaskSpec where
  id : TaskId
  description : String
  subagentId : Option String := none
  deriving DecidableEq

inductive TaskStatus
  | success | failed | timeout | stopped
  deriving DecidableEq

structure SubagentError where
  kind : String
  message : String
  retryable : Bool
  deriving DecidableEq

structure TaskResult where
  subagentId : String
  taskId : TaskId
  status : TaskStatus
  /-- `result` as text: itself or what `safeStringify` makes of it. -/
  resultText : Option String := none
  error : Option SubagentError := none
  iterations : Nat
  toolCalls : Nat
  durationMs : Nat
  deriving DecidableEq

structure TaskResultNotification where
  taskId : TaskId
  title : String
  status : TaskStatus
  subagentId : String
  resultText : Option String
  errorText : Option String
  iterations : Nat
  toolCalls : Nat
  durationMs : Nat
  deriving DecidableEq

/-- What `awaitTasks` puts into `Promise.all` for one id. -/
inductive Slot
  | value (r : TaskResult)
  | promise (index : Nat)
  deriving DecidableEq

structure AwaitAnyResult where
  completed : List TaskResult
  pending : List TaskId
  timedOut : Bool := false
  deriving DecidableEq

/-- A call of `awaitTasksAny`. As long as its promise is pending it stands in `anyWaiters`. -/
structure AnyCall where
  taskIds : List TaskId
  timed : Bool
  result : Option AwaitAnyResult := none
  deriving DecidableEq

structure State where
  completed : JsMap TaskId TaskResult := .empty
  /-- The index of the promise that the waiter of a task resolves. -/
  taskWaiters : JsMap TaskId Nat := .empty
  promises : List (Option TaskResult) := []
  internalTaskIds : List TaskId := []
  workCompleteFlag : Bool := false
  /-- The calls of `awaitTasks`, with the slot of each id. -/
  awaits : List (List (TaskId × Slot)) := []
  anyCalls : List AnyCall := []
  notified : List TaskResultNotification := []
  /-- The tasks that the coordinator has and has not completed. -/
  outstanding : List TaskSpec := []
  /-- Every id that was ever assigned. -/
  assigned : List TaskId := []

def MAX_COMPLETED : Nat := 10000

/-! ## Operations -/

/-- `task.id ? task : { ...task, id: randomUUID() }` -/
def TaskRequest.withId (task : TaskRequest) (randomUUID : TaskId) : TaskSpec where
  id := if task.id.getD "" = "" then randomUUID else task.id.getD ""
  description := task.description
  subagentId := task.subagentId

def AnyCall.waits (call : AnyCall) (id : TaskId) : Bool := call.result.isNone && call.taskIds.contains id

def AnyCall.resolve (call : AnyCall) (r : TaskResult) : AnyCall :=
  if call.waits r.taskId then
    { call with result := some { completed := [r], pending := call.taskIds.filter (· ≠ r.taskId) } }
  else call

def notification (task : TaskSpec) (r : TaskResult) : TaskResultNotification where
  taskId := r.taskId
  title := task.description
  status := r.status
  subagentId := r.subagentId
  resultText := r.resultText
  errorText := r.error.map fun e => e.kind ++ ": " ++ e.message
  iterations := r.iterations
  toolCalls := r.toolCalls
  durationMs := r.durationMs

/-- The result of a task that is assigned after `workComplete`. -/
def synthetic (task : TaskSpec) : TaskResult where
  subagentId := task.subagentId.getD "unassigned"
  taskId := task.id
  status := .stopped
  error := some
    { kind := "aborted_by_parent"
      message := "Director called workComplete() — no further tasks will run"
      retryable := false }
  iterations := 0
  toolCalls := 0
  durationMs := 0

/-- The oldest entries go when there are too many. -/
def trimmed (completed : JsMap TaskId TaskResult) : JsMap TaskId TaskResult :=
  (completed.keys.take (completed.size - MAX_COMPLETED)).foldl JsMap.delete completed

namespace State

variable (s : State)

/-- Somebody gets the result in band. -/
def consumes (id : TaskId) : Bool := s.taskWaiters.has id || s.anyCalls.any (·.waits id)

/-- Resolve the waiter of the task and the any-waiters that name it. -/
def settle (r : TaskResult) : State :=
  { s with
    promises :=
      match s.taskWaiters.get? r.taskId with
      | some index => s.promises.set index (some r)
      | none => s.promises
    taskWaiters := s.taskWaiters.delete r.taskId
    anyCalls := s.anyCalls.map (·.resolve r) }

/-- The listener on `task.completed`. -/
def complete (task : TaskSpec) (r : TaskResult) : State :=
  let s := { s with outstanding := s.outstanding.erase task }
  let internalTask := s.internalTaskIds.contains r.taskId
  let consumedInBand := s.consumes r.taskId
  let s := { s with internalTaskIds := s.internalTaskIds.filter (· ≠ r.taskId) }
  let s := if internalTask then s else { s with completed := trimmed (s.completed.set r.taskId r) }
  let s := s.settle r
  if internalTask then s
  else if consumedInBand then s
  else { s with notified := s.notified ++ [notification task r] }

def assign (task : TaskRequest) (randomUUID : TaskId) : State :=
  let taskWithId := task.withId randomUUID
  let s := { s with assigned := taskWithId.id :: s.assigned }
  if s.workCompleteFlag then
    { s with completed := s.completed.set taskWithId.id (synthetic taskWithId) }.settle (synthetic taskWithId)
  else { s with outstanding := s.outstanding ++ [taskWithId] }

def assignInternal (task : TaskRequest) (randomUUID : TaskId) : State :=
  let taskWithId := task.withId randomUUID
  { s with
    assigned := taskWithId.id :: s.assigned
    internalTaskIds := taskWithId.id :: s.internalTaskIds
    outstanding := s.outstanding ++ [taskWithId] }

/-- One id of `awaitTasks`. -/
def slotFor (id : TaskId) : State × Slot :=
  match s.completed.get? id with
  | some cached => (s, .value cached)
  | none =>
      match s.taskWaiters.get? id with
      | some existing => (s, .promise existing)
      | none =>
          ({ s with
              promises := s.promises ++ [none]
              taskWaiters := s.taskWaiters.set id s.promises.length },
            .promise s.promises.length)

def slotsFor (s : State) : List TaskId → State × List (TaskId × Slot)
  | [] => (s, [])
  | id :: ids =>
      let (s, slot) := s.slotFor id
      let (s, slots) := slotsFor s ids
      (s, (id, slot) :: slots)

def awaitTasks (taskIds : List TaskId) : State :=
  let (s, slots) := s.slotsFor taskIds
  { s with awaits := s.awaits ++ [slots] }

def awaitTasksAny (taskIds : List TaskId) (timed : Bool) : State :=
  let completed := taskIds.filterMap s.completed.get?
  let result :=
    if completed ≠ [] ∨ taskIds = [] then
      some { completed, pending := taskIds.filter (!(completed.map TaskResult.taskId).contains ·) }
    else none
  { s with anyCalls := s.anyCalls ++ [{ taskIds, timed, result }] }

/-- The timer of a call of `awaitTasksAny` fires. -/
def expire (call : Nat) : State :=
  { s with
    anyCalls := s.anyCalls.modify call fun c =>
      if c.timed && c.result.isNone then
        { c with result := some { completed := [], pending := c.taskIds, timedOut := true } }
      else c }

def slotValue : Slot → Option TaskResult
  | .value r => some r
  | .promise index => (s.promises[index]?).join

/-- What the promise of a call of `awaitTasks` is resolved with. -/
def resolution (slots : List (TaskId × Slot)) : Option (List TaskResult) :=
  slots.mapM fun slot => s.slotValue slot.2

end State

/-! ## Runs -/

inductive Op
  | assign (task : TaskRequest) (randomUUID : TaskId)
  | assignInternal (task : TaskRequest) (randomUUID : TaskId)
  | awaitTasks (taskIds : List TaskId)
  | awaitTasksAny (taskIds : List TaskId) (timed : Bool)
  | expire (call : Nat)
  | workComplete
  /-- the coordinator emits `task.completed` -/
  | complete (task : TaskSpec) (result : TaskResult)

def step (s : State) : Op → State
  | .assign task randomUUID => s.assign task randomUUID
  | .assignInternal task randomUUID => s.assignInternal task randomUUID
  | .awaitTasks taskIds => s.awaitTasks taskIds
  | .awaitTasksAny taskIds timed => s.awaitTasksAny taskIds timed
  | .expire call => s.expire call
  | .workComplete => { s with workCompleteFlag := true }
  | .complete task result => s.complete task result

end WrongStack.Delivery
