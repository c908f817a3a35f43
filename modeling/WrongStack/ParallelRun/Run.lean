import WrongStack.Coordination.Coordinator
import WrongStack.ParallelRun.Board
import WrongStack.Worktree.Manager

/-!
# The parallel run

`SddParallelRun.run` and `executeOne` (`core/src/sdd/sdd-parallel-run.ts`) on the coordinator of
`WrongStack.Coordination`. Code runs from one `await` to the next: `loop` is where `run()` is
suspended, and `running` has the `executeOne` call of every dispatched task with the `await` it is
suspended at. An `await` of a promise that is already resolved is no suspension, since only other
microtasks run meanwhile.
-/

namespace WrongStack.ParallelRun

open Lib Sdd

/-! ## Configuration -/

/-- The options that the scheduler reads. Of the callbacks only their presence is kept. -/
structure SddParallelRunOptions where
  parallelSlots : Option Int := none
  maxRetries : Option Int := none
  maxFailedRetrySweeps : Option Int := none
  maxSupervisorEscalations : Option Int := none
  maxRecoveryRounds : Option Int := none
  maxTotalWaves : Option Nat := none
  maxWallClockMs : Option Nat := none
  verifyTask : Bool := false
  superviseFailure : Bool := false
  conflictResolver : Bool := false
  worktrees : Bool := false
  deriving DecidableEq

structure Config where
  slots : Nat
  maxRetries : Nat
  maxFailedSweeps : Nat
  maxSupervisorEscalations : Nat
  maxRecoveryRounds : Nat
  maxTotalWaves : Nat
  maxWallClockMs : Option Nat
  verifyTask : Bool
  superviseFailure : Bool
  worktrees : Bool
  merge : Worktree.Options
  slots_pos : 0 < slots

/-- The constructor, given the size of the graph. -/
def SddParallelRunOptions.config (opts : SddParallelRunOptions) (graphSize : Nat) : Config :=
  let maxRetries := (opts.maxRetries.getD 3).toNat
  { slots := (min 16 (max 1 (opts.parallelSlots.getD 2))).toNat
    maxRetries
    maxFailedSweeps := (opts.maxFailedRetrySweeps.getD 2).toNat
    maxSupervisorEscalations := (opts.maxSupervisorEscalations.getD 2).toNat
    maxRecoveryRounds := (opts.maxRecoveryRounds.getD 0).toNat
    maxTotalWaves := opts.maxTotalWaves.getD (graphSize * (maxRetries + 2) + 10)
    maxWallClockMs := opts.maxWallClockMs
    verifyTask := opts.verifyTask
    superviseFailure := opts.superviseFailure
    worktrees := opts.worktrees
    merge := { conflictResolver := opts.conflictResolver, verifyTask := opts.verifyTask }
    slots_pos := by omega }

/-! ## State -/

/-- `resolveWorktrees`; a task that is completed is merged there. -/
inductive ResolveStage
  | commitAll
  | merging (m : Worktree.MergeStage)
  | release
  deriving DecidableEq

/-- What an `executeOne` call waits for. `resolve` says whether it goes on to `resolveWorktrees` when
the failure has been applied. -/
inductive Await
  | allocateWorktrees
  /-- `cached` was in the results when the wait began, at the length `since` of the event log -/
  | awaitTasks (correlationId : String) (cached : Option Coordination.TaskResult) (since : Nat)
  | verifyTask
  | integrateWorktree (stage : Worktree.Stage)
  | superviseFailure (errMsg : String) (attempts : Nat) (resolve : Bool)
  | resolveWorktrees (stage : ResolveStage)
  deriving DecidableEq

/-- Where `run()` is suspended. -/
inductive Loop
  /-- not called yet -/
  | idle
  /-- `waitWhilePaused` -/
  | top
  /-- `Promise.race` of the running tasks, none of which has settled -/
  | racing
  /-- the same, won by a task that was fulfilled -/
  | woken
  /-- the same, won by a task that was rejected -/
  | broken
  /-- `Promise.allSettled` of the running tasks -/
  | draining (deadlocked : Bool)
  | returned (deadlocked : Bool)
  | rejected
  deriving DecidableEq

/-- `dispatched` lists the dispatches, so `totalDispatched` is its length; `assigned` pairs each
dispatched task with the coordinator task that was assigned for it. -/
structure State where
  config : Config
  board : Board
  coordinator : Coordination.State
  base : Worktree.Base := {}
  running : JsMap TaskId Await := .empty
  taskSubagents : JsMap TaskId String := .empty
  taskWorktrees : List TaskId := []
  dispatchSeq : Nat := 0
  dispatched : List TaskId := []
  assigned : List (TaskId × String) := []
  round : Nat := 0
  recoveryRounds : Nat := 0
  failedSweeps : Nat := 0
  lastSweepCompleted : Nat := 0
  stopRequested : Bool := false
  paused : Bool := false
  loop : Loop := .idle

/-- What an `executeOne` call does next. -/
inductive Next
  | await (a : Await)
  | done
  | threw (err : String)
  deriving DecidableEq

/-- One of the raced tasks settles; `fulfilled` says how. -/
def Loop.settled (fulfilled : Bool) : Loop → Loop
  | .racing => if fulfilled then .woken else .broken
  | l => l

inductive SddSupervisorVerdict
  | retry
  | reassign (model : Option String)
  | fail
  | split (subtasks : List SddSubtaskSpec)
  deriving DecidableEq

def errorKind : Coordination.SubagentErrorKind → String
  | .provider5xx => "provider_5xx"
  | .providerRateLimit => "provider_rate_limit"
  | .providerTimeout => "provider_timeout"
  | .providerAuth => "provider_auth"
  | .contextOverflow => "context_overflow"
  | .toolFailed => "tool_failed"
  | .toolThrew => "tool_threw"
  | .budgetIterations => "budget_iterations"
  | .budgetToolCalls => "budget_tool_calls"
  | .budgetTokens => "budget_tokens"
  | .budgetCost => "budget_cost"
  | .budgetTimeout => "budget_timeout"
  | .abortedByParent => "aborted_by_parent"
  | .emptyResponse => "empty_response"
  | .bridgeFailed => "bridge_failed"
  | .unknown => "unknown"

def errorMessage (result : Coordination.TaskResult) : String :=
  match result.error with
  | some e => s!"{errorKind e.kind}: {e.message}"
  | none => "unknown error"

/-- The result `executeOne` makes up when `awaitTasks` rejects, which its timer does. -/
def timedOutResult (correlationId : String) : Coordination.TaskResult where
  subagentId := ""
  taskId := correlationId
  status := .failed
  error := some
    { kind := .unknown
      message := s!"Error: awaitTasks timed out waiting for task \"{correlationId}\""
      retryable := false }
  iterations := 0
  toolCalls := 0

/-- The reason for which the completion gate rejects a task. -/
def verificationFailReason : Worktree.Verdict → Option String
  | .ok => none
  | .rejected reason => some ("verification failed: " ++ reason.getD "acceptance criteria not met")
  | .threw err => some s!"verification error: {err}"

namespace State

variable (s : State)

/-! ## `executeOne` -/

/-- The call of `t` goes on to its next `await`, or settles. A throw is caught in `dispatch`, which
marks the node; with the node gone, that throws as well and the promise is rejected. -/
def goOn (t : TaskId) : Next → State
  | .await a => { s with running := s.running.set t a }
  | .done => { s with running := s.running.delete t, loop := s.loop.settled true }
  | .threw err =>
      match s.board.updateNodeStatus t .failed (some s!"dispatch error: {err}") with
      | .ok board =>
          { s with board, running := s.running.delete t, loop := s.loop.settled true }
      | .error _ => { s with running := s.running.delete t, loop := s.loop.settled false }

/-- `updateNodeStatus` in `executeOne`, and what comes after it. -/
def write (t : TaskId) (status : TaskStatus) (reason : Option String) (next : State → State) : State :=
  match s.board.updateNodeStatus t status reason with
  | .ok board => next { s with board }
  | .error e => s.goOn t (.threw e.message)

/-- Where `resolveWorktrees` starts with the handle of `t`. -/
def resolveStage (t : TaskId) : ResolveStage :=
  if (s.board.infoOf t).cancelled then .release
  else if s.board.graph.statusOf t = some .completed then .commitAll
  else .release

def resolveWorktrees (t : TaskId) : State :=
  s.goOn t (if s.taskWorktrees.contains t then .await (.resolveWorktrees (s.resolveStage t)) else .done)

/-- `executeOne` after `applyTaskFailure`. -/
def afterFailure (t : TaskId) (resolve : Bool) : State :=
  if resolve then s.resolveWorktrees t else s.goOn t .done

def terminalFail (t : TaskId) (errMsg : String) (resolve : Bool) : State :=
  s.write t .failed (some errMsg) fun s => s.afterFailure t resolve

def retries (t : TaskId) : Nat := (s.board.retryMap.get? t).getD 0

def escalations (t : TaskId) : Nat := (s.board.supervisorEscalations.get? t).getD 0

/-- `trySupervisorRescue` consults the supervisor. -/
def canEscalate (t : TaskId) : Bool :=
  s.config.superviseFailure && decide (s.escalations t < s.config.maxSupervisorEscalations) &&
    s.board.graph.nodes.has t

def applyTaskFailure (t : TaskId) (errMsg : String) (resolve : Bool) : State :=
  if s.retries t < s.config.maxRetries then
    { s with
      board := { s.board with retryMap := s.board.retryMap.set t (s.retries t + 1) }.persistRetries t
        (s.retries t + 1) }.write t .pending
          (some s!"Retry {s.retries t + 1}/{s.config.maxRetries}: {errMsg}")
          fun s => s.afterFailure t resolve
  else if s.canEscalate t then s.goOn t (.await (.superviseFailure errMsg (s.escalations t) resolve))
  else s.terminalFail t errMsg resolve

/-- The supervisor requeues the task. -/
def rescue (t : TaskId) (reason : String) (resolve : Bool) : State :=
  { s with
    board := { s.board with retryMap := s.board.retryMap.delete t }.persistRetries t 0 }.write t .pending
      (some reason) fun s => s.afterFailure t resolve

/-- The supervisor splits the task; a split that is refused lets it fail. -/
def delegate (t : TaskId) (errMsg : String) (resolve : Bool) (now : Nat)
    (subtasks : List SddSubtaskSpec) : State :=
  let (board, leafIds) := s.board.splitTask s.taskSubagents t now subtasks
  if leafIds.isEmpty then s.terminalFail t errMsg resolve else { s with board }.afterFailure t resolve

def escalated (t : TaskId) (attempts : Nat) : State :=
  { s with
    board := { s.board with
      supervisorEscalations := s.board.supervisorEscalations.set t (attempts + 1) } }

/-- `trySupervisorRescue` after the supervisor; `none` is a verdict `undefined` or a throw. -/
def supervised (t : TaskId) (errMsg : String) (attempts : Nat) (resolve : Bool) (now : Nat) :
    Option SddSupervisorVerdict → State
  | none | some .fail => s.terminalFail t errMsg resolve
  | some (.split subtasks) => (s.escalated t attempts).delegate t errMsg resolve now subtasks
  | some (.reassign model) =>
      (s.escalated t attempts).rescue t ("supervisor reassign: " ++ model.getD "default") resolve
  | some .retry => (s.escalated t attempts).rescue t "supervisor retry" resolve

/-- `integrateWorktree` has returned. -/
def integrated (t : TaskId) : Worktree.Outcome → State
  | .ok =>
      s.write t .completed none fun s =>
        { s with
          board := { s.board with retryMap := s.board.retryMap.delete t }.persistRetries t 0 }.goOn t .done
  | .regressed reason => s.applyTaskFailure t reason false
  | .conflict files =>
      s.applyTaskFailure t
        (if files.isEmpty then "merge conflict" else "merge conflict: " ++ ", ".intercalate files) false

/-- The call of `integrateWorktree`; it returns at once when the task has no worktree. -/
def integrateWorktree (t : TaskId) : State :=
  if s.taskWorktrees.contains t then s.goOn t (.await (.integrateWorktree .commitAll))
  else s.integrated t .ok

/-- `executeOne` when the worker has settled, or is taken to have. -/
def afterWorker (t : TaskId) (result : Coordination.TaskResult) : State :=
  let s := { s with taskSubagents := s.taskSubagents.delete t }
  if s.board.cancelledTasks.contains t then s.resolveWorktrees t
  else if result.status = .success then
    if s.config.verifyTask then s.goOn t (.await .verifyTask) else s.integrateWorktree t
  else s.applyTaskFailure t (errorMessage result) true

def verified (t : TaskId) (verdict : Worktree.Verdict) : State :=
  match verificationFailReason verdict with
  | some reason => s.applyTaskFailure t reason true
  | none => s.integrateWorktree t

/-- `executeOne` from `allocateWorktrees` to `awaitTasks`. -/
def allocated (t : TaskId) (active : Bool) (randomUUID : Coordination.Uuid) : State :=
  let subagentId := s!"sdd-d{s.dispatchSeq}"
  let s := { s with
    taskWorktrees := if s.config.worktrees && active then s.taskWorktrees.insert t else s.taskWorktrees
    dispatchSeq := s.dispatchSeq + 1 }
  match s.coordinator.spawn (some subagentId) randomUUID with
  | .error _ => s.goOn t (.threw s!"Subagent id \"{subagentId}\" already exists — refusing to overwrite")
  | .ok coordinator =>
      let coordinator := coordinator.assign { id := randomUUID, subagentId := some subagentId }
      { s with
        coordinator
        taskSubagents := s.taskSubagents.set t subagentId
        assigned := s.assigned ++ [(t, randomUUID.1)] }.goOn t
          (.await (.awaitTasks randomUUID
            (coordinator.completedResults.find? (·.taskId == randomUUID.1)) coordinator.events.length))

/-- The result that a `task.completed` event carries for `correlationId`. -/
def completedResult (correlationId : String) : Coordination.Event → Option Coordination.TaskResult
  | .taskCompleted _ result => if result.taskId = correlationId then some result else none
  | _ => none

/-- What `awaitTasks` has resolved to, if it has. -/
def awaited (correlationId : String) (cached : Option Coordination.TaskResult) (since : Nat) :
    Option Coordination.TaskResult :=
  cached <|> (s.coordinator.events.drop since).findSome? (completedResult correlationId)

/-- The call of `t` drops its worktree handle. -/
def forgetWorktree (t : TaskId) : State := { s with taskWorktrees := s.taskWorktrees.filter (· != t) }

def integrateAnswer (t : TaskId) (stage : Worktree.Stage) (a : Worktree.Answer) : State :=
  match stage.advance s.config.merge t s.base a with
  | (base, .inl stage) => { s with base }.goOn t (.await (.integrateWorktree stage))
  | (base, .inr outcome) => ({ s with base }.forgetWorktree t).integrated t outcome

def resolveAnswer (t : TaskId) (a : Worktree.Answer) : ResolveStage → State
  | .commitAll =>
      if a.throws then (s.forgetWorktree t).goOn t .done
      else s.goOn t (.await (.resolveWorktrees (.merging .checkout)))
  | .merging m =>
      if a.throws then (s.forgetWorktree t).goOn t .done
      else
        match m.advance false t s.base.repo a with
        | (repo, .inl m) =>
            { s with base := { s.base with repo } }.goOn t (.await (.resolveWorktrees (.merging m)))
        | (repo, .inr _) =>
            { s with base := { s.base with repo } }.goOn t (.await (.resolveWorktrees .release))
  | .release => (s.forgetWorktree t).goOn t .done

/-! ## `run` -/

/-- `dispatch`, up to the first `await` of `executeOne`. -/
def dispatch (t : TaskId) : State :=
  { s with
    dispatched := s.dispatched ++ [t]
    board := s.board.setStatus t .inProgress none
    running := s.running.set t .allocateWorktrees }

def ready : List TaskId := s.board.readyNodes.filter fun t => !s.running.has t

def fill : State :=
  let s' := s.ready.foldl (fun s t => if s.running.size < s.config.slots then s.dispatch t else s) s
  if s'.dispatched.length = s.dispatched.length then s' else { s' with round := s'.round + 1 }

/-- The head of the `while` loop. -/
def head (elapsed : Nat) : State :=
  if s.stopRequested || decide (s.config.maxTotalWaves ≤ s.dispatched.length) ||
      s.config.maxWallClockMs.any (fun max => max != 0 && decide (max ≤ elapsed)) then
    { s with loop := .draining false }
  else { s with loop := .top }

/-- The end-of-run sweep, when it requeues something. -/
def sweep : Option State :=
  let completed := s.board.completedCount
  let (board, n) := s.board.requeueFailedTasks "retry failed sweep"
  if s.failedSweeps < s.config.maxFailedSweeps &&
      (s.failedSweeps == 0 || decide (s.lastSweepCompleted < completed)) && decide (0 < n) then
    some { s with board, lastSweepCompleted := completed, failedSweeps := s.failedSweeps + 1 }
  else none

/-- The deadlock recovery, when it requeues something. -/
def recover : Option State :=
  let (board, recovered) := s.board.recoverFailedBlockers
  if s.recoveryRounds < s.config.maxRecoveryRounds && recovered then
    some { s with board, recoveryRounds := s.recoveryRounds + 1 }
  else none

/-- Nothing is in flight and nothing was dispatched. -/
def quiesce (elapsed : Nat) : State :=
  if s.board.isSettled then
    match s.sweep with
    | some s => s.head elapsed
    | none => { s with loop := .draining false }
  else if s.board.computeDeadlockChains.isEmpty then { s with loop := .draining false }
  else
    match s.recover with
    | some s => s.head elapsed
    | none => { s with loop := .draining true }

def moreReadyNow : Bool := decide (s.running.size < s.config.slots) && !s.ready.isEmpty

/-- One turn of the `while` loop, from `waitWhilePaused` to the next suspension. -/
def turn (elapsed : Nat) : State :=
  if s.stopRequested then { s with loop := .draining false }
  else
    let s := s.fill
    if s.running.size = 0 then s.quiesce elapsed
    else if s.moreReadyNow then s.head elapsed
    else { s with loop := .racing }

/-- `run()` after its tasks have drained. -/
def finish (deadlocked : Bool) : State :=
  let s := if s.stopRequested then
      { s with board := s.board.resetInProgress "run stopped", taskWorktrees := [] }
    else s
  { s with loop := .returned deadlocked }

def start (elapsed : Nat) : State :=
  { s with board := s.board.restoreRetryMap, stopRequested := false }.head elapsed

end State

/-! ## Steps -/

inductive Op
  /-- `run()` is called -/
  | start (elapsed : Nat)
  /-- `run()` goes on after `waitWhilePaused` -/
  | turn (elapsed : Nat)
  /-- `run()` goes on after `Promise.race` -/
  | wake (elapsed : Nat)
  /-- `run()` goes on after `Promise.allSettled` -/
  | drained
  /-- `executeOne` of the task goes on: `allocateWorktrees` has returned -/
  | allocated (t : TaskId) (active : Bool) (randomUUID : Coordination.Uuid)
  /-- `awaitTasks` has resolved -/
  | awaitTasks (t : TaskId)
  /-- the timer of `awaitTasks` has fired -/
  | awaitTimeout (t : TaskId)
  | verified (t : TaskId) (verdict : Worktree.Verdict)
  | git (t : TaskId) (a : Worktree.Answer)
  | supervised (t : TaskId) (verdict : Option SddSupervisorVerdict) (now : Nat)
  /-- a worker settles -/
  | settle (runId : Nat) (how : Coordination.State.Settlement)
  | cancelTask (t : TaskId)
  | retryTask (t : TaskId)
  | retryAllFailed
  | deleteTask (t : TaskId)
  | splitTask (t : TaskId) (now : Nat) (subtasks : List SddSubtaskSpec)
  | stop
  | pause
  | resume

namespace State

variable (s : State)

/-- The `executeOne` call of `t` goes on. -/
def resumeOne (t : TaskId) : Await → Op → Option State
  | .allocateWorktrees, .allocated _ active randomUUID =>
      -- `randomUUID` returns no id twice
      if s.assigned.any (·.2 == randomUUID.1) then none else some (s.allocated t active randomUUID)
  | .awaitTasks correlationId cached since, .awaitTasks _ =>
      (s.awaited correlationId cached since).map (s.afterWorker t)
  | .awaitTasks correlationId cached since, .awaitTimeout _ =>
      if (s.awaited correlationId cached since).isSome then none
      else some (s.afterWorker t (timedOutResult correlationId))
  | .verifyTask, .verified _ verdict => some (s.verified t verdict)
  | .integrateWorktree stage, .git _ a => some (s.integrateAnswer t stage a)
  | .superviseFailure errMsg attempts resolve, .supervised _ verdict now =>
      some (s.supervised t errMsg attempts resolve now verdict)
  | .resolveWorktrees stage, .git _ a => some (s.resolveAnswer t a stage)
  | _, _ => none

/-- `cancelTask`, with the `stop` of the live subagent. -/
def cancelTask (t : TaskId) : State :=
  let (board, known) := s.board.cancelTask t
  let s := { s with board }
  match s.taskSubagents.get? t with
  | some subagentId => if known then { s with coordinator := s.coordinator.stop subagentId } else s
  | none => s

/-- One step, when the system can take it. -/
def step? : Op → Option State
  | .start elapsed => if s.loop = .idle then some (s.start elapsed) else none
  | .turn elapsed =>
      if s.loop = .top && (!s.paused || s.stopRequested) then some (s.turn elapsed) else none
  | .wake elapsed =>
      if s.loop = .woken then some (s.head elapsed)
      else if s.loop = .broken then some { s with loop := .rejected }
      else none
  | .drained =>
      match s.loop with
      | .draining deadlocked => if s.running.size = 0 then some (s.finish deadlocked) else none
      | _ => none
  | .settle runId how => some { s with coordinator := s.coordinator.settle runId how }
  | .cancelTask t => some (s.cancelTask t)
  | .retryTask t => some { s with board := (s.board.retryTask t).1 }
  | .retryAllFailed => some { s with board := s.board.retryAllFailed.1 }
  | .deleteTask t => some { s with board := (s.board.deleteTask s.taskSubagents t).1 }
  | .splitTask t now subtasks =>
      some { s with board := (s.board.splitTask s.taskSubagents t now subtasks).1 }
  | .stop => some { s with stopRequested := true, paused := false, coordinator := s.coordinator.stopAll }
  | .pause => some { s with paused := true }
  | .resume => some { s with paused := false }
  | .allocated t active randomUUID =>
      (s.running.get? t).bind fun a => s.resumeOne t a (.allocated t active randomUUID)
  | .awaitTasks t => (s.running.get? t).bind fun a => s.resumeOne t a (.awaitTasks t)
  | .awaitTimeout t => (s.running.get? t).bind fun a => s.resumeOne t a (.awaitTimeout t)
  | .verified t verdict => (s.running.get? t).bind fun a => s.resumeOne t a (.verified t verdict)
  | .git t answer => (s.running.get? t).bind fun a => s.resumeOne t a (.git t answer)
  | .supervised t verdict now =>
      (s.running.get? t).bind fun a => s.resumeOne t a (.supervised t verdict now)

end State

def step (s : State) (op : Op) : State := (s.step? op).getD s

/-- A run object on a board. `buildCoordinator` gives it its coordinator. -/
def init (config : Config) (board : Board) : State where
  config
  board
  coordinator := Coordination.init { maxConcurrent := some config.slots }

end WrongStack.ParallelRun
