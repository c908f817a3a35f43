import Mathlib.Data.List.Sort
import Mathlib.Data.Rat.Defs
import WrongStack.Lib.Graph
import WrongStack.Lib.JsMap
import WrongStack.Lib.Run

/-!
# The dependency graph of tasks

`TaskDAG` (`core/src/coordination/task-dag.ts`). A handler that throws is swallowed, so what it sees
is an entry of `events` and nothing else; handlers that call back into the graph are left out, as are
the fields no method reads (descriptions, roles, tags, results, times) and `runnableCache`, which
every change clears.
-/

namespace WrongStack.TaskDag

open Lib

inductive Status
  | pending | ready | running | done | failed | skipped
  deriving DecidableEq

structure Node where
  status : Status
  deps : List String
  dependents : List String := []
  priority : ℚ := 5
  assignedTo : Option String := none
  error : Option String := none
  deriving DecidableEq

/-- What the handlers are told; `runnable` is a call of the handlers of `onRunnable`. -/
inductive Event
  | nodeReady (nodeId : String) (deps : List String)
  | nodeStarted (nodeId assignedTo : String)
  | nodeCompleted (nodeId : String) (blockers : List String)
  | nodeFailed (nodeId error : String) (blockers : List String)
  | nodeSkipped (nodeId reason : String)
  | deadlock (blocked : List String)
  | graphDone (allDone : Bool)
  | runnable (nodes : List String)
  deriving DecidableEq

structure Dag where
  nodes : JsMap String Node := .empty
  events : List Event := []

def isDone : Status → Bool
  | .done => true
  | _ => false

def isDoneOrSkipped : Status → Bool
  | .done | .skipped => true
  | _ => false

namespace Dag

variable (g : Dag)

def emit (event : Event) : Dag := { g with events := g.events ++ [event] }

def withStatus (status : Status) : List (String × Node) :=
  g.nodes.entries.filter fun p => p.2.status == status

def getReady : List (String × Node) :=
  (g.withStatus .ready).insertionSort fun p q => p.2.priority ≤ q.2.priority

def allDone : Bool :=
  g.nodes.entries.all fun p =>
    p.2.status == .done || p.2.status == .failed || p.2.status == .skipped

def hasDeadlock : Bool :=
  !g.allDone && (g.getReady.isEmpty && (g.withStatus .running).isEmpty)

def emitReady : Dag :=
  let runnable := g.getReady.map Prod.fst
  let g' :=
    if g.hasDeadlock then g.emit (.deadlock ((g.withStatus .pending).map Prod.fst))
    else g.emit (.graphDone g.allDone)
  if runnable.isEmpty then g' else g'.emit (.runnable runnable)

def transition (id : String) (src tgt : Status) : Dag :=
  match g.nodes.get? id with
  | some node =>
      if node.status = src then
        let g' := { g with nodes := g.nodes.set id { node with status := tgt } }
        if tgt = .ready then g'.emit (.nodeReady id node.deps) else g'
      else g
  | none => g

/-- A dependency that is not in the graph, or whose status is `ok`. -/
def meets (ok : Status → Bool) (depId : String) : Bool :=
  match g.nodes.get? depId with
  | some dep => ok dep.status
  | none => true

def depsMeet (ok : Status → Bool) (node : Node) : Bool := node.deps.all (g.meets ok)

/-- The loop over the dependents of a node: a pending one whose dependencies all meet `ok` becomes
ready. The second component lists those that are still blocked. -/
def release (ok : Status → Bool) : List String → Dag → Dag × List String
  | [], g => (g, [])
  | depId :: rest, g =>
      match g.nodes.get? depId with
      | none => release ok rest g
      | some dep =>
          if g.depsMeet ok dep then release ok rest (g.transition depId .pending .ready)
          else
            let (g, blocked) := release ok rest g
            (g, depId :: blocked)

/-! ## Node management -/

def depsOf (id : String) : List String :=
  match g.nodes.get? id with
  | some node => node.deps
  | none => []

/-- The walk pops at most once for each dependency that is pushed. -/
def wouldCycle (id : String) (newDeps : List String) : Bool :=
  walk g.depsOf id (newDeps.length + (g.nodes.keys.flatMap g.depsOf).length + 1)
    newDeps.reverse []

def register (id : String) (deps : List String) (nodes : JsMap String Node) : JsMap String Node :=
  deps.foldl (fun m depId => m.modify depId fun n => { n with dependents := n.dependents ++ [id] }) nodes

def addNode (id : String) (deps : List String) (priority : Option ℚ) : Except String Dag :=
  if g.nodes.has id then .ok g
  else
    match deps.find? fun depId => !g.nodes.has depId with
    | some depId => .error s!"TaskDAG.addNode: unknown dependency \"{depId}\" for task \"{id}\". Add the dep first."
    | none =>
        let depsText := String.intercalate ", " deps
        if g.wouldCycle id deps then
          .error s!"TaskDAG.addNode: adding deps [{depsText}] to \"{id}\" would create a cycle."
        else
          let node : Node :=
            { deps, status := if deps.isEmpty then .ready else .pending, priority := priority.getD 5 }
          .ok { g with nodes := register id deps (g.nodes.set id node) }.emitReady

/-- Drop `id` from the dependents of its dependencies. -/
def unregister (id : String) (deps : List String) (nodes : JsMap String Node) : JsMap String Node :=
  deps.foldl (fun m depId =>
    m.modify depId fun n => { n with dependents := n.dependents.filter fun d => decide (d ≠ id) }) nodes

def removeNode (id : String) : Dag :=
  match g.nodes.get? id with
  | none => g
  | some node =>
      let g' := { g with nodes := unregister id node.deps g.nodes }
      let g' := (release isDone node.dependents g').1
      { g' with nodes := g'.nodes.delete id }

/-! ## State transitions -/

def start (id assignedTo : String) : Dag × Bool :=
  match g.nodes.get? id with
  | none => (g, false)
  | some node =>
      if node.status ≠ .ready then (g, false)
      else
        let node := { node with status := .running, assignedTo := some assignedTo }
        ({ g with nodes := g.nodes.set id node }.emit (.nodeStarted id assignedTo), true)

def complete (id : String) : Dag :=
  match g.nodes.get? id with
  | none => g
  | some node =>
      let g' := { g with nodes := g.nodes.set id { node with status := .done } }
      let (g', blocked) := release isDone node.dependents g'
      let g' := g'.emit (.nodeCompleted id blocked)
      if blocked.isEmpty then g'.emitReady else g'

def fail (id error : String) : Dag :=
  match g.nodes.get? id with
  | none => g
  | some node =>
      let g' := { g with nodes := g.nodes.set id { node with status := .failed, error := some error } }
      let (g', blocked) := release isDoneOrSkipped node.dependents g'
      let g' := g'.emit (.nodeFailed id error blocked)
      if blocked.isEmpty then g'.emitReady else g'

def skip (id reason : String) : Dag :=
  match g.nodes.get? id with
  | none => g
  | some node =>
      let g' := { g with nodes := g.nodes.set id { node with status := .skipped } }
      (release isDoneOrSkipped node.dependents g').1.emit (.nodeSkipped id reason)

/-! ## Queries -/

/-- The inner function of `getTopologicalOrder`; the state is `visited` and `result`. -/
def visit : Nat → String → List String × List (String × Node) → List String × List (String × Node)
  | 0, _, st => st
  | fuel + 1, id, st =>
      if id ∈ st.1 then st
      else
        match g.nodes.get? id with
        | none => (id :: st.1, st.2)
        | some node =>
            let st := node.deps.foldl (fun st depId => visit fuel depId st) (id :: st.1, st.2)
            (st.1, st.2 ++ [(id, node)])

/-- No chain of calls is longer than the nodes are many, but for one that ends at an id without a node. -/
def getTopologicalOrder : List (String × Node) :=
  (g.nodes.keys.foldl (fun st id => g.visit (g.nodes.keys.length + 1) id st) ([], [])).2

end Dag

/-! ## Runs -/

inductive Op
  | addNode (id : String) (deps : List String) (priority : Option ℚ)
  | removeNode (id : String)
  | start (id assignedTo : String)
  | complete (id : String)
  | fail (id error : String)
  | skip (id reason : String)
  deriving DecidableEq

def step (g : Dag) : Op → Dag
  | .addNode id deps priority => ((g.addNode id deps priority).toOption).getD g
  | .removeNode id => g.removeNode id
  | .start id assignedTo => (g.start id assignedTo).1
  | .complete id => g.complete id
  | .fail id error => g.fail id error
  | .skip id reason => g.skip id reason

end WrongStack.TaskDag
