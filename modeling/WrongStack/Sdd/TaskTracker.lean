import Mathlib.Algebra.Order.Ring.Rat
import WrongStack.Lib.Graph
import WrongStack.Lib.JsMap
import WrongStack.Lib.Run

/-!
# Task graphs

`core/src/types/task-graph.ts`. The fields that neither the tracker nor the analysis below reads are
left out: titles, estimates, assignees, tags and times. Ids are numbers, since all that is used of
`crypto.randomUUID()` is that it returns a new one.
-/

namespace WrongStack.Sdd

open Lib

abbrev TaskId := Nat

inductive TaskStatus
  | pending | inProgress | blocked | failed | review | completed
  deriving DecidableEq

inductive EdgeType
  | blocks | dependsOn | relatesTo | implements
  deriving DecidableEq

structure TaskNode where
  status : TaskStatus
  parentId : Option TaskId := none
  children : List TaskId := []
  deriving DecidableEq

structure TaskEdge where
  src : TaskId
  tgt : TaskId
  type : EdgeType
  deriving DecidableEq

structure TaskGraph where
  nodes : JsMap TaskId TaskNode := .empty
  edges : List TaskEdge := []
  rootNodes : List TaskId := []

namespace TaskGraph

variable (g : TaskGraph)

def statusOf (id : TaskId) : Option TaskStatus := (g.nodes.get? id).map TaskNode.status

/-! ## The topological sort -/

/-- The targets of the edges that leave `id`, of any type. -/
def successors (id : TaskId) : List TaskId :=
  (g.edges.filter fun e => e.src == id).map TaskEdge.tgt

/-- The inner function of `topologicalSort`. The state is `visited` and `result`; `inStack` is handed
down, since every call takes out what it put in. -/
def visit : Nat → List TaskId → TaskId → List TaskId × List TaskId → List TaskId × List TaskId
  | 0, _, _, st => st
  | fuel + 1, inStack, id, st =>
      if id ∈ inStack then st
      else if id ∈ st.1 then st
      else if !g.nodes.has id then st
      else
        let st := (g.successors id).foldl (fun st tgt => visit fuel (id :: inStack) tgt st)
          (id :: st.1, st.2)
        (st.1, st.2 ++ [id])

/-- No chain of calls is longer than the nodes are many. -/
def topologicalSort : List TaskId :=
  (g.rootNodes.foldl (fun st rootId => g.visit (g.nodes.size + 1) [] rootId st) ([], [])).2

end TaskGraph

end WrongStack.Sdd

/-!
# The critical-path analysis

`analyzeCriticalPath` (`core/src/sdd/critical-path.ts`), as far as it says which tasks can start and
in which order to execute them. Bottlenecks, hours, the critical path and the parallel groups read
the same maps and are left out.
-/

namespace WrongStack.Sdd

open Lib

structure CriticalPathAnalysis where
  executionOrder : List TaskId
  readyTasks : List TaskId
  blockedTasks : List TaskId
  deriving DecidableEq

namespace TaskGraph

variable (g : TaskGraph)

/-- The values are the sets of the source, in insertion order. -/
def addBlockedBy (m : JsMap TaskId (List TaskId)) (e : TaskEdge) : JsMap TaskId (List TaskId) :=
  if e.type = .dependsOn then
    -- `edge.from` depends on `edge.to`
    let blockers := (m.get? e.src).getD []
    m.set e.src (if e.tgt ∈ blockers then blockers else blockers ++ [e.tgt])
  else m

def blockedByMap : JsMap TaskId (List TaskId) := g.edges.foldl addBlockedBy .empty

def isReady (id : TaskId) : Bool :=
  match g.blockedByMap.get? id with
  | none => true
  | some blockers => blockers.isEmpty || blockers.all fun b => g.statusOf b == some .completed

def isOpen (id : TaskId) : Bool :=
  match g.statusOf id with
  | some status => status != .completed
  | none => false

def analyzeCriticalPath : CriticalPathAnalysis where
  executionOrder := g.topologicalSort.filter g.isOpen
  readyTasks := g.nodes.keys.filter fun id => g.isOpen id && g.isReady id
  blockedTasks := g.nodes.keys.filter fun id => g.isOpen id && !g.isReady id

end TaskGraph

end WrongStack.Sdd

/-!
# The task tracker

`TaskTracker` (`core/src/sdd/task-tracker.ts`) on the graph that `createGraph` made. Persistence runs
in the background and listeners only observe: both are left out, with the times and the metadata.
`nextId` is the id that the next `crypto.randomUUID()` returns.
-/

namespace WrongStack.Sdd

open Lib

structure TaskTransition where
  src : TaskStatus
  tgt : TaskStatus
  reason : Option String
  deriving DecidableEq

structure SddError where
  message : String
  code : String
  deriving DecidableEq

structure TaskTracker where
  graph : TaskGraph := {}
  transitions : List TaskTransition := []
  nextId : TaskId := 0

/-- What the caller gives of a node. -/
structure NodeSpec where
  status : Option TaskStatus := none
  parentId : Option TaskId := none
  children : List TaskId := []
  deriving DecidableEq

namespace TaskGraph

variable (g : TaskGraph)

/-! ## Queries -/

def getDependents (taskId : TaskId) : List TaskId :=
  (g.edges.filter fun e => e.src == taskId && e.type == .dependsOn).map TaskEdge.tgt

def getBlockers (taskId : TaskId) : List TaskId :=
  (g.edges.filter fun e => e.tgt == taskId && e.type == .dependsOn).map TaskEdge.src

/-- A blocker in the graph that is completed or has failed holds no one back. -/
def finished (id : TaskId) : Bool :=
  g.statusOf id == some .completed || g.statusOf id == some .failed

def canStart (taskId : TaskId) : Bool := (g.getBlockers taskId).all g.finished

/-- `dependsOnTransitively` with its set `seen` empty. Each call but the last expands the target of
another edge. -/
def dependsOnTransitively (taskId targetId : TaskId) : Bool :=
  (search g.getBlockers targetId (g.edges.length + 1) taskId []).1

/-! ## Mutations -/

def setStatus (id : TaskId) (status : TaskStatus) : TaskGraph :=
  { g with nodes := g.nodes.modify id fun n => { n with status } }

def addEdge (src tgt : TaskId) (type : EdgeType) : TaskGraph :=
  { g with edges := g.edges ++ [{ src, tgt, type }] }

def addDependency (depId taskId : TaskId) : TaskGraph × Bool :=
  if depId = taskId then (g, false)
  else if !g.nodes.has depId || !g.nodes.has taskId then (g, false)
  else if depId ∈ g.getBlockers taskId then (g, true)
  -- the edge would close a loop
  else if g.dependsOnTransitively depId taskId then (g, false)
  else (g.addEdge depId taskId .dependsOn, true)

def removeNode (id : TaskId) : TaskGraph × Bool :=
  if g.nodes.has id then
    let nodes := (g.nodes.delete id).keys.foldl
      (fun m k => m.modify k fun n => { n with children := n.children.filter fun c => c != id })
      (g.nodes.delete id)
    ({ nodes
       edges := g.edges.filter fun e => e.src != id && e.tgt != id
       rootNodes := g.rootNodes.filter fun r => r != id }, true)
  else (g, false)

def unblockDependents (completedId : TaskId) : TaskGraph :=
  (g.getDependents completedId).foldl (fun g depId =>
    if g.statusOf depId = some .blocked ∧ g.canStart depId = true then g.setStatus depId .pending
    else g) g

def checkAndBlockIfNeeded (taskId : TaskId) : TaskGraph :=
  if (g.getBlockers taskId).any fun id => !g.finished id then g.setStatus taskId .blocked else g

end TaskGraph

namespace TaskTracker

variable (t : TaskTracker)

def addNode (node : NodeSpec) : TaskTracker :=
  let newNode : TaskNode :=
    { status := node.status.getD .pending, parentId := node.parentId, children := node.children }
  { t with
    graph := { t.graph with
      nodes := t.graph.nodes.set t.nextId newNode
      rootNodes := if node.parentId.isNone then t.graph.rootNodes ++ [t.nextId] else t.graph.rootNodes }
    nextId := t.nextId + 1 }

def updateNodeStatus (id : TaskId) (status : TaskStatus) (reason : Option String) :
    Except SddError TaskTracker :=
  match t.graph.nodes.get? id with
  | none => .error { message := s!"Node {id} not found", code := "SDD_NOT_READY" }
  | some node =>
      let graph := t.graph.setStatus id status
      let graph := if status = .completed then graph.unblockDependents id else graph
      let graph := if status = .inProgress then graph.checkAndBlockIfNeeded id else graph
      .ok { t with graph, transitions := t.transitions ++ [{ src := node.status, tgt := status, reason }] }

end TaskTracker

/-! ## Runs -/

inductive Op
  | addNode (node : NodeSpec)
  | addDependency (depId taskId : TaskId)
  | updateNodeStatus (id : TaskId) (status : TaskStatus) (reason : Option String)
  | removeNode (id : TaskId)
  deriving DecidableEq

def step (t : TaskTracker) : Op → TaskTracker
  | .addNode node => t.addNode node
  | .addDependency depId taskId => { t with graph := (t.graph.addDependency depId taskId).1 }
  | .updateNodeStatus id status reason => (t.updateNodeStatus id status reason).toOption.getD t
  | .removeNode id => { t with graph := (t.graph.removeNode id).1 }

end WrongStack.Sdd

/-!
# Parallel groups and the critical path

The rest of `core/src/sdd/critical-path.ts` that decides an order: `computeParallelGroups`, `computeCriticalPath` and
the total of its hours. The estimates of the nodes are handed in, and sums of them are exact.
-/

namespace WrongStack.Sdd

open Lib

namespace TaskGraph

variable (g : TaskGraph)

/-- What the analysis takes for the blockers of a task. -/
def waitsFor (id : TaskId) : List TaskId := (g.blockedByMap.get? id).getD []

/-! ## Parallel groups -/

def allAssigned (assigned : List TaskId) (id : TaskId) : Bool :=
  match g.blockedByMap.get? id with
  | none => true
  | some blockers => blockers.isEmpty || blockers.all fun b => assigned.contains b

def nextGroup (assigned remaining : List TaskId) : List TaskId :=
  let group := remaining.filter (g.allAssigned assigned)
  -- circular, or blocked by something that is never assigned
  if group.isEmpty then remaining.head?.toList else group

/-- Every group takes at least one of the tasks that remain. -/
def groupsFrom : Nat → List TaskId → List TaskId → List (List TaskId)
  | 0, _, _ => []
  | fuel + 1, assigned, remaining =>
      if remaining.isEmpty then []
      else
        let group := g.nextGroup assigned remaining
        group :: groupsFrom fuel (assigned ++ group) (remaining.filter fun id => !group.contains id)

def computeParallelGroups : List (List TaskId) :=
  let remaining := g.nodes.keys.filter g.isOpen
  g.groupsFrom remaining.length [] remaining

/-! ## The critical path -/

section Hours

variable (estimateHours : TaskId → Option ℚ)

/-- `graph.nodes.get(id)?.estimateHours ?? other` -/
def hoursOr (other : ℚ) (id : TaskId) : ℚ := (if g.nodes.has id then estimateHours id else none).getD other

/-- The values are the sets of the source, in insertion order. -/
def addBlocked (taskId : TaskId) (m : JsMap TaskId (List TaskId)) (blockerId : TaskId) : JsMap TaskId (List TaskId) :=
  let blocked := (m.get? blockerId).getD []
  m.set blockerId (if taskId ∈ blocked then blocked else blocked ++ [taskId])

/-- The reverse of `blockedByMap`. -/
def blocksMap : JsMap TaskId (List TaskId) :=
  g.blockedByMap.entries.foldl (fun m entry => entry.2.foldl (addBlocked entry.1) m) .empty

structure Relaxation where
  dist : JsMap TaskId ℚ := .empty
  prev : JsMap TaskId (Option TaskId) := .empty
  changed : Bool := false

def ownEstimates : Relaxation :=
  g.nodes.keys.foldl (fun st id =>
    { st with dist := st.dist.set id (g.hoursOr estimateHours 1 id), prev := st.prev.set id none }) {}

def relaxEdge (id : TaskId) (st : Relaxation) (blockedId : TaskId) : Relaxation :=
  let candidateDist := (st.dist.get? id).getD 0 + g.hoursOr estimateHours 1 blockedId
  if (st.dist.get? blockedId).getD 0 < candidateDist then
    { dist := st.dist.set blockedId candidateDist, prev := st.prev.set blockedId (some id), changed := true }
  else st

def relaxTask (st : Relaxation) (id : TaskId) : Relaxation :=
  match g.blocksMap.get? id with
  | none => st
  | some blocked => blocked.foldl (g.relaxEdge estimateHours id) st

def relaxRound (st : Relaxation) : Relaxation :=
  g.nodes.keys.foldl (g.relaxTask estimateHours) { st with changed := false }

def relaxRounds : Nat → Relaxation → Relaxation
  | 0, st => st
  | n + 1, st =>
      let st := g.relaxRound estimateHours st
      if st.changed then relaxRounds n st else st

/-- `maxDist` and `maxId`, from the first id on. -/
def farthest (dist : JsMap TaskId ℚ) (first : TaskId) (ids : List TaskId) : ℚ × TaskId :=
  ids.foldl (fun best id =>
    let d := (dist.get? id).getD 0
    if best.1 < d then (d, id) else best) (0, first)

/-- `path` is also what has been visited. -/
def traceBack (prev : JsMap TaskId (Option TaskId)) : Nat → List TaskId → Option TaskId → List TaskId
  | fuel + 1, path, some current =>
      if current ∈ path then path else traceBack prev fuel (current :: path) (prev.get? current).join
  | _, path, _ => path

def computeCriticalPath : List TaskId :=
  match g.nodes.keys with
  | [] => []
  | first :: rest =>
      let relaxed := g.relaxRounds estimateHours rest.length (g.ownEstimates estimateHours)
      let maxId := (farthest relaxed.dist first (first :: rest)).2
      traceBack relaxed.prev (rest.length + 1) [] (some maxId)

def totalHours : ℚ :=
  (g.computeCriticalPath estimateHours).foldl (fun sum id => sum + g.hoursOr estimateHours 0 id) 0

end Hours

end TaskGraph

end WrongStack.Sdd
