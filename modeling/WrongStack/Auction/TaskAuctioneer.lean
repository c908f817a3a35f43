import Mathlib.Data.Rat.Floor
import WrongStack.Lib.JsMap
import WrongStack.Lib.Run

/-!
# The task auction

`TaskAuctioneer` (`core/src/coordination/task-auctioneer.ts`). `update` and `add` of the knowledge
graph change it in memory before they first await, and the write to disk may take arbitrarily long: an
operation is a sequence of steps from one `await` to the next, and what it does next waits in
`inFlight`. The graph holds goals only; of a goal the fields are kept that the auction reads. Scores
come from `dispatchAgent` and are exact. The fleet bus and the mailbox are left out but for the
`task:claimed` event, which the auctioneer itself listens to.
-/

namespace WrongStack.Auction

open Lib

/-! ## Goals and bids -/

inductive GoalStatus
  | pending | inProgress | blocked | done | failed
  deriving DecidableEq

structure GoalNode where
  status : GoalStatus
  assignee : Option String := none
  blockedBy : List String := []
  children : List String := []
  deriving DecidableEq

structure BidAgent where
  agentId : String
  agentRole : String
  deriving DecidableEq

structure TaskBid where
  agentId : String
  score : ℚ
  deriving DecidableEq

structure DispatchResult where
  confidence : ℚ
  role : String
  deriving DecidableEq

/-- What an operation does after the `await` at which it is suspended. -/
inductive Suspended
  /-- `publishTask`, after `add` -/
  | added (goalId : String) (parentGoal : Option String) (blockedBy : List String)
      (targetAgent : Option String)
  /-- `publishTask`, before the next of the blockers -/
  | registering (goalId : String) (blockedBy : List String) (targetAgent : Option String)
  /-- after `_broadcastTask` -/
  | broadcast (taskId : String)
  /-- `_assignDirect`, after `update` -/
  | assigned (agentId : String)
  /-- `bid`, after `dispatchAgent` -/
  | scored (taskId : String) (agent : BidAgent)
  /-- `claim`, after `update` -/
  | claimed (taskId agentId : String)
  /-- `claim`, after the winner is notified -/
  | notified (taskId : String)
  /-- `complete`, after `update` -/
  | completed (taskId : String) (children : List String)
  /-- `complete`, after a child was unblocked and broadcast -/
  | unblocked (childId : String) (children : List String)
  /-- `fail`, after `update` -/
  | failed (taskId : String) (expired : Bool)
  /-- `_evaluateBids`, after `fail` -/
  | gaveUp (taskId : String)
  deriving DecidableEq

/-! ## The auctioneer -/

structure TaskAuctioneer where
  maxTasksPerAgent : Nat := 3
  minConfidence : ℚ := 3 / 10
  maxBidRetries : Nat := 3
  /-- Whether there is a fleet bus. -/
  fleet : Bool := true
  graph : JsMap String GoalNode := .empty
  pendingBids : JsMap String (List TaskBid) := .empty
  bidTimers : List String := []
  bidRetryCounts : JsMap String Nat := .empty
  agentTaskCounts : JsMap String Nat := .empty
  inFlight : List Suspended := []

namespace TaskAuctioneer

variable (s : TaskAuctioneer)

def suspend (f : Suspended) : TaskAuctioneer := { s with inFlight := s.inFlight ++ [f] }

/-- `this.graph.update` up to its `await`. -/
def update (id : String) (patch : GoalNode → GoalNode) : TaskAuctioneer :=
  { s with graph := s.graph.modify id patch }

def isDone (id : String) : Bool :=
  match s.graph.get? id with
  | some goal => goal.status == .done
  | none => false

def getAgentTaskCount (agentId : String) : Nat := (s.agentTaskCounts.get? agentId).getD 0

def agentTaskCount (agentId : String) (delta : Int) : TaskAuctioneer :=
  { s with agentTaskCounts := s.agentTaskCounts.set agentId ((s.getAgentTaskCount agentId : Int) + delta).toNat }

def cancelBidWindow (taskId : String) : TaskAuctioneer :=
  { s with bidTimers := s.bidTimers.filter (· != taskId) }

def startBidWindow (taskId : String) : TaskAuctioneer :=
  let s := s.cancelBidWindow taskId
  { s with bidTimers := s.bidTimers ++ [taskId] }

def deleteBids (taskId : String) : TaskAuctioneer :=
  { s with pendingBids := s.pendingBids.delete taskId }

def deleteRetries (taskId : String) : TaskAuctioneer :=
  { s with bidRetryCounts := s.bidRetryCounts.delete taskId }

/-- The handler of `task:claimed`. -/
def onClaimedEvent (taskId : String) : TaskAuctioneer :=
  (s.deleteBids taskId).cancelBidWindow taskId

/-! ## Publishing -/

def hasOpenBlockers (blockedBy : List String) : Bool := blockedBy.any fun id => !s.isDone id

def newStatus (blockedBy : List String) (targetAgent : Option String) : GoalStatus :=
  if targetAgent.isSome then .inProgress
  else if s.hasOpenBlockers blockedBy then .blocked
  else .pending

/-- `goalId` is new: it comes from `randomUUID`. -/
def publishTask (goalId : String) (parentGoal : Option String) (blockedBy : List String)
    (targetAgent : Option String) : TaskAuctioneer :=
  if s.graph.has goalId then s
  else
    let goal : GoalNode := { status := s.newStatus blockedBy targetAgent, assignee := targetAgent, blockedBy }
    { s with graph := s.graph.set goalId goal }.suspend (.added goalId parentGoal blockedBy targetAgent)

def addChild (id childId : String) : TaskAuctioneer :=
  s.update id fun goal => { goal with children := goal.children ++ [childId] }

/-- The next blocker that does not know the goal as a child, and those after it. -/
def nextBlocker (goalId : String) : List String → Option (String × List String)
  | [] => none
  | id :: rest =>
      match s.graph.get? id with
      | some blocker => if goalId ∈ blocker.children then nextBlocker goalId rest else some (id, rest)
      | none => nextBlocker goalId rest

def assignDirect (taskId agentId : String) : TaskAuctioneer :=
  if s.graph.has taskId then
    (s.update taskId fun goal => { goal with status := .inProgress, assignee := some agentId }).suspend
      (.assigned agentId)
  else s

def registerChild (goalId : String) (blockedBy : List String) (targetAgent : Option String) :
    TaskAuctioneer :=
  match s.nextBlocker goalId blockedBy with
  | some (id, rest) => (s.addChild id goalId).suspend (.registering goalId rest targetAgent)
  | none =>
      match targetAgent with
      | some agentId => s.assignDirect goalId agentId
      | none => s.suspend (.broadcast goalId)

/-! ## Bidding -/

/-- `bid` takes bids for pending goals only. -/
def refusesStatus (taskId : String) : Bool :=
  match s.graph.get? taskId with
  | some goal => goal.status != .pending
  | none => true

/-- Up to `dispatchAgent`; `none` where it returns `false`. -/
def bid (taskId : String) (agent : BidAgent) : Option TaskAuctioneer :=
  if s.refusesStatus taskId then none
  else if s.getAgentTaskCount agent.agentId ≥ s.maxTasksPerAgent then none
  else some (s.suspend (.scored taskId agent))

def putBid (bid : TaskBid) : List TaskBid → List TaskBid
  | [] => [bid]
  | b :: bids => if b.agentId = bid.agentId then bid :: bids else b :: putBid bid bids

def bidScore (agent : BidAgent) (dispatch : DispatchResult) : ℚ :=
  dispatch.confidence * if dispatch.role = agent.agentRole then 6 / 5 else 1

def bidsFor (taskId : String) : List TaskBid := (s.pendingBids.get? taskId).getD []

def addBid (taskId : String) (agent : BidAgent) (dispatch : DispatchResult) : TaskAuctioneer :=
  if bidScore agent dispatch < s.minConfidence then s
  else
    let bid : TaskBid := { agentId := agent.agentId, score := bidScore agent dispatch }
    { s with pendingBids := s.pendingBids.set taskId (putBid bid (s.bidsFor taskId)) }

/-! ## Claiming, completing, failing -/

def claim (taskId agentId : String) : TaskAuctioneer :=
  match s.graph.get? taskId with
  | some goal =>
      if goal.status = .pending then
        ((s.cancelBidWindow taskId).update taskId fun goal =>
          { goal with status := .inProgress, assignee := some agentId }).suspend (.claimed taskId agentId)
      else s
  | none => s

def complete (taskId : String) : TaskAuctioneer :=
  match s.graph.get? taskId with
  | none => s
  | some goal =>
      ((s.agentTaskCount (goal.assignee.getD "unknown") (-1)).update taskId fun goal =>
        { goal with status := .done }).suspend (.completed taskId goal.children)

/-- `expired`: called by `_evaluateBids`. -/
def fail (taskId : String) (expired : Bool) : TaskAuctioneer :=
  match s.graph.get? taskId with
  | none => if expired then s.suspend (.gaveUp taskId) else s
  | some goal =>
      ((s.agentTaskCount (goal.assignee.getD "unknown") (-1)).update taskId fun goal =>
        { goal with status := .failed }).suspend (.failed taskId expired)

/-- The next child that waits for no blocker, and those after it. -/
def nextUnblocked : List String → Option (String × List String)
  | [] => none
  | id :: rest =>
      match s.graph.get? id with
      | some child =>
          if child.status = .blocked ∧ child.blockedBy.all s.isDone then some (id, rest)
          else nextUnblocked rest
      | none => nextUnblocked rest

def unblock (children : List String) : TaskAuctioneer :=
  match s.nextUnblocked children with
  | some (id, rest) =>
      (s.update id fun child => { child with status := .pending }).suspend (.unblocked id rest)
  | none => s

/-! ## Queries -/

def getPendingTasks : List (String × GoalNode) :=
  (s.graph.entries.filter fun e => e.2.status == .pending).filter fun e => e.2.blockedBy.length == 0

/-! ## Bid windows -/

def rebroadcast (taskId : String) : TaskAuctioneer :=
  if s.graph.has taskId then s.suspend (.broadcast taskId) else s

def sortedBids (taskId : String) : List TaskBid := (s.bidsFor taskId).mergeSort fun a b => a.score ≥ b.score

def winner (taskId : String) : Option TaskBid :=
  (s.sortedBids taskId).find? fun b => s.getAgentTaskCount b.agentId < s.maxTasksPerAgent

def retryCount (taskId : String) : Nat := (s.bidRetryCounts.get? taskId).getD 0 + 1

def evaluateBids (taskId : String) : TaskAuctioneer :=
  if s.bidsFor taskId = [] then
    let retried := { s with bidRetryCounts := s.bidRetryCounts.set taskId (s.retryCount taskId) }
    if s.retryCount taskId ≥ s.maxBidRetries then retried.fail taskId true
    else retried.rebroadcast taskId
  else
    let sorted := { s with pendingBids := s.pendingBids.set taskId (s.sortedBids taskId) }
    match s.winner taskId with
    | none => sorted.rebroadcast taskId
    | some bid => sorted.claim taskId bid.agentId

/-- The timer of a window fires. -/
def expire (taskId : String) : TaskAuctioneer :=
  if taskId ∈ s.bidTimers then (s.cancelBidWindow taskId).evaluateBids taskId else s

/-! ## Going on -/

/-- From an `await` to the next one; `dispatch` is what a suspended `bid` gets. -/
def resume (dispatch : DispatchResult) : Suspended → TaskAuctioneer
  | .added goalId parentGoal blockedBy targetAgent =>
      match parentGoal.filter s.graph.has with
      | some parent => (s.addChild parent goalId).suspend (.registering goalId blockedBy targetAgent)
      | none => s.registerChild goalId blockedBy targetAgent
  | .registering goalId blockedBy targetAgent => s.registerChild goalId blockedBy targetAgent
  | .broadcast taskId => s.startBidWindow taskId
  | .assigned agentId => s.agentTaskCount agentId 1
  | .scored taskId agent => s.addBid taskId agent dispatch
  | .claimed taskId agentId =>
      ((s.deleteBids taskId).agentTaskCount agentId 1).suspend (.notified taskId)
  | .notified taskId => if s.fleet then s.onClaimedEvent taskId else s
  | .completed taskId children =>
      (((s.deleteRetries taskId).deleteBids taskId).cancelBidWindow taskId).unblock children
  | .unblocked childId children => (s.startBidWindow childId).unblock children
  | .failed taskId expired =>
      let s := ((s.deleteRetries taskId).deleteBids taskId).cancelBidWindow taskId
      if expired then s.suspend (.gaveUp taskId) else s
  | .gaveUp taskId => s.deleteRetries taskId

end TaskAuctioneer

/-! ## Runs -/

inductive Op
  | publishTask (goalId : String) (parentGoal : Option String) (blockedBy : List String)
      (targetAgent : Option String)
  | bid (taskId : String) (agent : BidAgent)
  | claim (taskId agentId : String)
  | complete (taskId : String)
  | fail (taskId : String)
  | expire (taskId : String)
  /-- The operation at place `i` goes on. -/
  | resume (i : Nat) (dispatch : DispatchResult)
  deriving DecidableEq

def step (s : TaskAuctioneer) : Op → TaskAuctioneer
  | .publishTask goalId parentGoal blockedBy targetAgent =>
      s.publishTask goalId parentGoal blockedBy targetAgent
  | .bid taskId agent => (s.bid taskId agent).getD s
  | .claim taskId agentId => s.claim taskId agentId
  | .complete taskId => s.complete taskId
  | .fail taskId => s.fail taskId false
  | .expire taskId => s.expire taskId
  | .resume i dispatch =>
      match s.inFlight[i]? with
      | some f => { s with inFlight := s.inFlight.eraseIdx i }.resume dispatch f
      | none => s

end WrongStack.Auction
