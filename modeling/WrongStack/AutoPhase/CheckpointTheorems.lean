import WrongStack.AutoPhase.PhaseOrchestrator

/-!
# Checkpoints of a phase graph

`CheckpointManager` (`core/src/autophase/checkpoint.ts`) and the `PhaseStore` (`core/src/autophase/phase-store.ts`)
that it writes to. A map from ids carries the ids of its values, and `R` holds the fields of a record that are only
copied. The text of a file reads back as the record that it was written from.
-/

namespace WrongStack.Checkpoints

open Lib AutoPhase

abbrev GraphId := String

abbrev PhaseId := String

abbrev TaskId := String

abbrev CheckpointId := String

variable {R : Type}

/-! ## Phase graphs -/

structure TaskNode (R : Type) where
  title : String
  status : Sdd.TaskStatus
  updatedAt : Nat
  rest : R
  deriving DecidableEq

structure TaskGraph (R : Type) where
  nodes : JsMap TaskId (TaskNode R)
  updatedAt : Nat
  rest : R
  deriving DecidableEq

structure PhaseNode (R : Type) where
  status : PhaseStatus
  taskGraph : TaskGraph R
  updatedAt : Nat
  rest : R
  deriving DecidableEq

structure PhaseGraph (R : Type) where
  id : GraphId
  phases : JsMap PhaseId (PhaseNode R)
  rootPhaseIds : List PhaseId
  updatedAt : Nat
  rest : R
  deriving DecidableEq

/-! ## The store -/

structure SerializedTaskGraph (R : Type) where
  nodes : List (TaskId × TaskNode R)
  updatedAt : Nat
  rest : R

structure SerializedPhaseNode (R : Type) where
  status : PhaseStatus
  taskGraph : SerializedTaskGraph R
  updatedAt : Nat
  rest : R

structure SerializedPhaseGraph (R : Type) where
  id : GraphId
  phases : List (PhaseId × SerializedPhaseNode R)
  rootPhaseIds : List PhaseId
  updatedAt : Nat
  rest : R

def serializeTaskGraph (graph : TaskGraph R) : SerializedTaskGraph R :=
  { graph with nodes := graph.nodes.entries }

def serializePhase (phase : PhaseNode R) : SerializedPhaseNode R :=
  { phase with taskGraph := serializeTaskGraph phase.taskGraph }

def serializeGraph (graph : PhaseGraph R) : SerializedPhaseGraph R :=
  { graph with phases := graph.phases.entries.map fun e => (e.1, serializePhase e.2) }

def deserializeTaskGraph (serialized : SerializedTaskGraph R) : TaskGraph R :=
  { serialized with nodes := serialized.nodes.foldl (fun nodes sn => nodes.set sn.1 sn.2) .empty }

def deserializePhase (serialized : SerializedPhaseNode R) : PhaseNode R :=
  { serialized with taskGraph := deserializeTaskGraph serialized.taskGraph }

def deserializeGraph (serialized : SerializedPhaseGraph R) : PhaseGraph R :=
  { serialized with
    phases := serialized.phases.foldl (fun phases sp => phases.set sp.1 (deserializePhase sp.2)) .empty }

/-- The graph files. -/
abbrev PhaseStore (R : Type) := JsMap GraphId (SerializedPhaseGraph R)

namespace PhaseStore

def save (store : PhaseStore R) (graph : PhaseGraph R) : PhaseStore R := store.set graph.id (serializeGraph graph)

def load (store : PhaseStore R) (graphId : GraphId) : Option (PhaseGraph R) := (store.get? graphId).map deserializeGraph

end PhaseStore

/-! ## Checkpoints -/

structure TaskMark where
  taskId : TaskId
  status : Sdd.TaskStatus
  title : String
  deriving DecidableEq

structure Checkpoint where
  id : CheckpointId
  graphId : GraphId
  phaseId : PhaseId
  phaseStatus : PhaseStatus
  taskStatuses : List TaskMark
  timestamp : Nat
  label : Option String
  deriving DecidableEq

/-- The first phase that is running or paused. -/
def PhaseGraph.activePhase (graph : PhaseGraph R) : Option (PhaseId × PhaseNode R) :=
  graph.phases.entries.find? fun e => e.2.status == .running || e.2.status == .paused

/-- What `saveCheckpoint` notes of a graph. -/
def checkpointOf (graph : PhaseGraph R) (id : CheckpointId) (label : Option String) (now : Nat) : Checkpoint where
  id := id
  graphId := graph.id
  phaseId := ((graph.activePhase.map Prod.fst).or graph.rootPhaseIds.head?).getD ""
  phaseStatus := (graph.activePhase.map fun e => e.2.status).getD .pending
  taskStatuses := (graph.activePhase.map fun e =>
    e.2.taskGraph.nodes.entries.map fun t => { taskId := t.1, status := t.2.status, title := t.2.title }).getD []
  timestamp := now
  label := label

/-- What a checkpoint puts back into a phase. -/
def restorePhase (checkpoint : Checkpoint) (now : Nat) (phase : PhaseNode R) : PhaseNode R :=
  { phase with
    status := checkpoint.phaseStatus
    updatedAt := now
    taskGraph := { phase.taskGraph with
      nodes := checkpoint.taskStatuses.foldl
        (fun nodes ts => nodes.modify ts.taskId fun task => { task with status := ts.status, updatedAt := now })
        phase.taskGraph.nodes } }

def restoreGraph (checkpoint : Checkpoint) (now : Nat) (graph : PhaseGraph R) : PhaseGraph R :=
  { graph with
    phases := graph.phases.modify checkpoint.phaseId (restorePhase checkpoint now)
    updatedAt := now }

/-- A manager, with the files that it and its store write. -/
structure CheckpointManager (R : Type) where
  store : PhaseStore R := .empty
  maxCheckpoints : Nat := 10
  checkpoints : JsMap CheckpointId Checkpoint := .empty
  /-- The checkpoint file of each graph. -/
  disk : JsMap GraphId (List Checkpoint) := .empty

namespace CheckpointManager

variable (m : CheckpointManager R)

def saveToDisk (checkpoint : Checkpoint) : CheckpointManager R :=
  { m with disk := m.disk.set checkpoint.graphId ((m.disk.get? checkpoint.graphId).getD [] ++ [checkpoint]) }

/-- A file without the checkpoint, or no file if it was the only one. -/
def deleteFromFile (checkpointId : CheckpointId) (disk : JsMap GraphId (List Checkpoint)) (graphId : GraphId) :
    JsMap GraphId (List Checkpoint) :=
  let existing := (disk.get? graphId).getD []
  let filtered := existing.filter fun c => c.id != checkpointId
  if filtered.length = existing.length then disk
  else if filtered.isEmpty then disk.delete graphId
  else disk.set graphId filtered

def deleteFromDisk (checkpointId : CheckpointId) : CheckpointManager R :=
  { m with disk := m.disk.keys.foldl (deleteFromFile checkpointId) m.disk }

def loadFromDisk : CheckpointManager R :=
  { m with checkpoints := m.disk.entries.foldl (fun checkpoints file =>
      file.2.foldl (fun checkpoints c => checkpoints.set c.id c) checkpoints) m.checkpoints }

def dropCheckpoint (checkpointId : CheckpointId) : CheckpointManager R :=
  deleteFromDisk { m with checkpoints := m.checkpoints.delete checkpointId } checkpointId

def pruneCheckpoints (graphId : GraphId) : CheckpointManager R :=
  let graphCheckpoints := ((m.checkpoints.entries.map Prod.snd).filter fun c => c.graphId == graphId).insertionSort
    fun a b => a.timestamp ≤ b.timestamp
  (graphCheckpoints.take (graphCheckpoints.length - m.maxCheckpoints)).foldl
    (fun m oldest => m.dropCheckpoint oldest.id) m

def saveCheckpoint (graph : PhaseGraph R) (id : CheckpointId) (label : Option String) (now : Nat) :
    CheckpointManager R :=
  let checkpoint := checkpointOf graph id label now
  let m := { m with
    store := m.store.save graph
    checkpoints := m.checkpoints.set checkpoint.id checkpoint }
  (m.saveToDisk checkpoint).pruneCheckpoints graph.id

/-- The checkpoint of an id, in memory or else on disk. -/
def findCheckpoint (checkpointId : CheckpointId) : Option Checkpoint :=
  match m.checkpoints.get? checkpointId with
  | some checkpoint => some checkpoint
  | none => m.loadFromDisk.checkpoints.get? checkpointId

def restoreCheckpoint (checkpointId : CheckpointId) (now : Nat) : Option (PhaseGraph R) := do
  let checkpoint ← m.findCheckpoint checkpointId
  let graph ← m.store.load checkpoint.graphId
  return restoreGraph checkpoint now graph

end CheckpointManager

inductive Op (R : Type)
  | save (graph : PhaseGraph R)
  | saveCheckpoint (graph : PhaseGraph R) (id : CheckpointId) (label : Option String) (now : Nat)
  /-- A new manager over the same files. -/
  | restart (maxCheckpoints : Nat)
  /-- `initialize` -/
  | load

def CheckpointManager.step (m : CheckpointManager R) : Op R → CheckpointManager R
  | .save graph => { m with store := m.store.save graph }
  | .saveCheckpoint graph id label now => m.saveCheckpoint graph id label now
  | .restart maxCheckpoints => { m with maxCheckpoints, checkpoints := .empty }
  | .load => m.loadFromDisk

end WrongStack.Checkpoints

/-!
# What a checkpoint brings back

The graph file of a checkpoint is shared with every later save of the graph, and the checkpoint itself notes one
phase. So what comes back is the graph that was saved last, with the noted statuses put into it.
-/

namespace WrongStack.Checkpoints

open Lib AutoPhase

variable {R : Type} {g g' : PhaseGraph R} {c : Checkpoint} {m : CheckpointManager R} {cs : List Checkpoint}

/-! ## Files -/

theorem deserializeTaskGraph_serialize (t : TaskGraph R) : deserializeTaskGraph (serializeTaskGraph t) = t := by
  have hnodes := t.nodes.foldl_set_entries
  cases t
  simp only [deserializeTaskGraph, serializeTaskGraph, hnodes]

theorem deserializePhase_serialize (p : PhaseNode R) : deserializePhase (serializePhase p) = p := by
  cases p
  simp only [deserializePhase, serializePhase, deserializeTaskGraph_serialize]

theorem deserializeGraph_serialize (g : PhaseGraph R) : deserializeGraph (serializeGraph g) = g := by
  have hphases := g.phases.foldl_set_entries
  cases g
  simp only [deserializeGraph, serializeGraph, List.foldl_map, deserializePhase_serialize, hphases]

/-! ## Statuses -/

namespace PhaseNode

variable (p : PhaseNode R)

/-- A phase with other statuses, and without its times. -/
def assign (status : PhaseStatus) (tasks : TaskId → Option Sdd.TaskStatus) : PhaseNode R :=
  { p with
    status
    updatedAt := 0
    taskGraph := { p.taskGraph with
      updatedAt := 0
      nodes := p.taskGraph.nodes.mapValues fun id t => { t with status := (tasks id).getD t.status, updatedAt := 0 } } }

def timeless : PhaseNode R := p.assign p.status fun _ => none

end PhaseNode

namespace PhaseGraph

variable (g : PhaseGraph R)

/-- A graph apart from its times. -/
def timeless : PhaseGraph R :=
  { g with
    updatedAt := 0
    phases := g.phases.mapValues fun _ p => p.timeless }

/-- A graph with other statuses of one phase and of tasks in it, apart from its times. -/
def assign (id : PhaseId) (status : PhaseStatus) (tasks : TaskId → Option Sdd.TaskStatus) : PhaseGraph R :=
  { g with
    updatedAt := 0
    phases := g.phases.mapValues fun id' p => if id = id' then p.assign status tasks else p.timeless }

/-- A graph without the statuses that a checkpoint notes. -/
def blank (c : Checkpoint) : PhaseGraph R :=
  g.assign c.phaseId .pending fun id => if c.taskStatuses.any (·.taskId == id) then some .pending else none

end PhaseGraph

variable {id : PhaseId} {status status' : PhaseStatus} {tasks tasks' : TaskId → Option Sdd.TaskStatus}
  {p : PhaseNode R}

theorem PhaseNode.assign_assign (h : ∀ t, (tasks' t).isSome → (tasks t).isSome) :
    (p.assign status' tasks').assign status tasks = p.assign status tasks := by
  simp only [PhaseNode.assign, JsMap.mapValues_mapValues]
  congr 3
  funext id t
  cases htask : tasks id with
  | some s => simp
  | none =>
      have hnone : tasks' id = none := by
        cases htask' : tasks' id with
        | none => rfl
        | some s => simpa [htask] using h id (by simp [htask'])
      simp [hnone]

@[simp] theorem PhaseNode.timeless_timeless : p.timeless.timeless = p.timeless :=
  PhaseNode.assign_assign fun _ h => h

@[simp] theorem PhaseNode.assign_timeless : p.timeless.assign status tasks = p.assign status tasks :=
  PhaseNode.assign_assign fun _ h => nomatch h

theorem PhaseGraph.assign_assign (h : ∀ t, (tasks' t).isSome → (tasks t).isSome) :
    (g.assign id status' tasks').assign id status tasks = g.assign id status tasks := by
  simp only [PhaseGraph.assign, JsMap.mapValues_mapValues]
  congr 2
  funext id' p
  split
  · exact PhaseNode.assign_assign h
  · exact PhaseNode.timeless_timeless

theorem PhaseGraph.assign_timeless : g.timeless.assign id status tasks = g.assign id status tasks := by
  simp only [PhaseGraph.assign, PhaseGraph.timeless, JsMap.mapValues_mapValues, PhaseNode.assign_timeless,
    PhaseNode.timeless_timeless]

theorem PhaseGraph.assign_self (h : ∀ p, g.phases.get? id = some p → p.status = status ∧
    ∀ t n, p.taskGraph.nodes.get? t = some n → (tasks t).getD n.status = n.status) :
    g.assign id status tasks = g.timeless := by
  simp only [PhaseGraph.assign, PhaseGraph.timeless]
  congr 1
  refine JsMap.mapValues_congr fun id' p hp => ?_
  split
  · rename_i heq
    subst heq
    obtain ⟨rfl, htasks⟩ := h p hp
    simp only [PhaseNode.timeless, PhaseNode.assign]
    congr 2
    refine JsMap.mapValues_congr fun t n hn => ?_
    simp [htasks t n hn]
  · rfl

/-! ## Restoring -/

/-- The status that the marks give a task. -/
def noted (marks : List TaskMark) (id : TaskId) : Option Sdd.TaskStatus :=
  (marks.reverse.find? fun ts => ts.taskId == id).map TaskMark.status

theorem noted_isSome (marks : List TaskMark) (id : TaskId) :
    (noted marks id).isSome = marks.any fun ts => ts.taskId == id := by
  rw [noted, Option.isSome_map, Bool.eq_iff_iff, List.find?_isSome, List.any_eq_true]
  simp only [List.mem_reverse]

theorem restoreTasks_assign (marks : List TaskMark) (now : Nat) (nodes : JsMap TaskId (TaskNode R)) :
    (marks.foldl (fun nodes ts => nodes.modify ts.taskId fun task =>
      { task with status := ts.status, updatedAt := now }) nodes).mapValues (fun _ t => { t with updatedAt := 0 }) =
      nodes.mapValues fun id t => { t with status := (noted marks id).getD t.status, updatedAt := 0 } := by
  induction marks generalizing nodes with
  | nil => rfl
  | cons ts marks ih =>
      rw [List.foldl_cons, ih, JsMap.modify_eq_mapValues, JsMap.mapValues_mapValues]
      congr 1
      funext id t
      have hnoted : noted (ts :: marks) id = (noted marks id).or (if ts.taskId = id then some ts.status else none) := by
        unfold noted
        rw [List.reverse_cons, List.find?_append]
        cases List.find? (fun ts => ts.taskId == id) marks.reverse with
        | some found => rfl
        | none => by_cases h : ts.taskId = id <;> simp [h]
      rw [hnoted]
      by_cases h : ts.taskId = id <;> cases noted marks id <;> simp [h]

theorem restorePhase_assign (c : Checkpoint) (now : Nat) (p : PhaseNode R) :
    (restorePhase c now p).timeless = p.assign c.phaseStatus (noted c.taskStatuses) := by
  simp only [PhaseNode.timeless, PhaseNode.assign, restorePhase, Option.getD_none, restoreTasks_assign]

theorem restoreGraph_assign (c : Checkpoint) (now : Nat) (g : PhaseGraph R) :
    (restoreGraph c now g).timeless = g.assign c.phaseId c.phaseStatus (noted c.taskStatuses) := by
  simp only [PhaseGraph.timeless, PhaseGraph.assign, restoreGraph, JsMap.modify_eq_mapValues, JsMap.mapValues_mapValues]
  congr 2
  funext id p
  split
  · exact restorePhase_assign c now p
  · rfl

/-! ## What is left of a checkpoint -/

/-- Of a graph and the one that was saved after it last: they differ in nothing but times and what the checkpoint
notes, and it notes what is there. -/
structure Unharmed (graph saved : PhaseGraph R) (c : Checkpoint) : Prop where
  same : saved.blank c = graph.blank c
  pending : graph.activePhase = none → ∀ p, graph.phases.get? c.phaseId = some p → p.status = .pending

theorem noted_entries (nodes : JsMap TaskId (TaskNode R)) {id : TaskId} {t : TaskNode R} (h : nodes.get? id = some t) :
    noted (nodes.entries.map fun t => { taskId := t.1, status := t.2.status, title := t.2.title }) id =
      some t.status := by
  have hmem := JsMap.mem_entries_iff.mpr h
  unfold noted
  cases hfind : List.find? (fun ts => ts.taskId == id) (nodes.entries.map fun t =>
      ({ taskId := t.1, status := t.2.status, title := t.2.title } : TaskMark)).reverse with
  | none =>
      have hno := List.find?_eq_none.mp hfind { taskId := id, status := t.status, title := t.title } (by
        rw [List.mem_reverse]
        exact List.mem_map.mpr ⟨(id, t), hmem, rfl⟩)
      simp at hno
  | some ts =>
      have hid := List.find?_some hfind
      obtain ⟨e, he, rfl⟩ := List.mem_map.mp (List.mem_reverse.mp (List.mem_of_find?_eq_some hfind))
      obtain rfl : e.1 = id := eq_of_beq hid
      rw [JsMap.mem_entries_iff.mp he] at h
      rw [Option.some.inj h]
      rfl

theorem assign_checkpointOf (graph : PhaseGraph R) (id : CheckpointId) (label : Option String) (saved : Nat)
    (hpending : graph.activePhase = none → ∀ p,
      graph.phases.get? (checkpointOf graph id label saved).phaseId = some p → p.status = .pending) :
    graph.assign (checkpointOf graph id label saved).phaseId (checkpointOf graph id label saved).phaseStatus
      (noted (checkpointOf graph id label saved).taskStatuses) = graph.timeless := by
  refine PhaseGraph.assign_self fun p hp => ?_
  cases hactive : graph.activePhase with
  | none =>
      refine ⟨?_, fun t n _ => ?_⟩
      · simpa [checkpointOf, hactive] using hpending hactive p hp
      · simp [checkpointOf, hactive, noted]
  | some e =>
      have hmem : (e.1, e.2) ∈ graph.phases.entries := List.mem_of_find?_eq_some hactive
      have hvalue := JsMap.mem_entries_iff.mp hmem
      simp only [checkpointOf, hactive, Option.map_some, Option.some_or, Option.getD_some] at hp
      obtain rfl : e.2 = p := Option.some.inj (hvalue.symm.trans hp)
      refine ⟨by simp [checkpointOf, hactive], fun t n hn => ?_⟩
      simp [checkpointOf, hactive, noted_entries _ hn]

/-- A restored graph is the one of the checkpoint if and only if what was saved last is unharmed. -/
theorem restoreGraph_iff (graph saved : PhaseGraph R) (id : CheckpointId) (label : Option String) (time now : Nat) :
    (restoreGraph (checkpointOf graph id label time) now saved).timeless = graph.timeless ↔
      Unharmed graph saved (checkpointOf graph id label time) := by
  generalize hc : checkpointOf graph id label time = c
  have hblank (t : TaskId) : (if c.taskStatuses.any (·.taskId == t) then some Sdd.TaskStatus.pending else none).isSome =
      (noted c.taskStatuses t).isSome := by
    rw [noted_isSome]
    cases c.taskStatuses.any (·.taskId == t) <;> rfl
  rw [restoreGraph_assign]
  constructor
  · intro h
    refine ⟨?_, fun hactive p hp => ?_⟩
    · have hover : (saved.assign c.phaseId c.phaseStatus (noted c.taskStatuses)).blank c = saved.blank c :=
        PhaseGraph.assign_assign fun t ht => by rwa [hblank]
      rw [← hover, h]
      exact PhaseGraph.assign_timeless
    · have hstatus : c.phaseStatus = .pending := by simp [← hc, checkpointOf, hactive]
      have hphase := congrArg (fun g => (g.phases.get? c.phaseId).map PhaseNode.status) h
      simp only [PhaseGraph.assign, PhaseGraph.timeless, JsMap.get?_mapValues, hp, ↓reduceIte, Option.map_map,
        Option.map_some] at hphase
      cases hsaved : saved.phases.get? c.phaseId with
      | none => simp [hsaved] at hphase
      | some q =>
          rw [hsaved] at hphase
          exact (Option.some.inj hphase).symm.trans hstatus
  · rintro ⟨hsame, hpending⟩
    have hover (g : PhaseGraph R) : (g.blank c).assign c.phaseId c.phaseStatus (noted c.taskStatuses) =
        g.assign c.phaseId c.phaseStatus (noted c.taskStatuses) :=
      PhaseGraph.assign_assign fun t ht => by rwa [← hblank]
    subst hc
    rw [← hover saved, hsame, hover graph]
    exact assign_checkpointOf graph id label time hpending

/-! ## Runs -/

def Op.graph : Op R → Option (PhaseGraph R)
  | .save graph => some graph
  | .saveCheckpoint graph _ _ _ => some graph
  | .restart _ | .load => none

def Op.checkpoint : Op R → Option Checkpoint
  | .saveCheckpoint graph id label now => some (checkpointOf graph id label now)
  | .save _ | .restart _ | .load => none

/-- The graph that was saved last under an id. -/
def latest (ops : List (Op R)) (id : GraphId) : Option (PhaseGraph R) :=
  (ops.filterMap Op.graph).reverse.find? fun g => g.id == id

/-- All checkpoints in memory and on disk are among some. -/
structure Known (cs : List Checkpoint) (m : CheckpointManager R) : Prop where
  memory : ∀ id c, m.checkpoints.get? id = some c → c ∈ cs ∧ c.id = id
  disk : ∀ id file, m.disk.get? id = some file → ∀ c ∈ file, c ∈ cs

theorem Known.mono {cs' : List Checkpoint} (h : Known cs m) (hcs : ∀ c ∈ cs, c ∈ cs') : Known cs' m where
  memory id c hc := ⟨hcs c (h.memory id c hc).1, (h.memory id c hc).2⟩
  disk id file hfile c hc := hcs c (h.disk id file hfile c hc)

theorem known_foldl_set {checkpoints : JsMap CheckpointId Checkpoint} (file : List Checkpoint)
    (h : ∀ id c, checkpoints.get? id = some c → c ∈ cs ∧ c.id = id) (hfile : ∀ c ∈ file, c ∈ cs) :
    ∀ id c, (file.foldl (fun checkpoints c => checkpoints.set c.id c) checkpoints).get? id = some c → c ∈ cs ∧ c.id = id := by
  induction file generalizing checkpoints with
  | nil => exact h
  | cons c file ih =>
      obtain ⟨hc, hfile⟩ := List.forall_mem_cons.mp hfile
      refine ih (fun id c' hc' => ?_) hfile
      rw [JsMap.get?_set] at hc'
      split at hc'
      · rename_i heq
        cases hc'
        exact ⟨hc, heq⟩
      · exact h id c' hc'

theorem Known.loadFromDisk (h : Known cs m) : Known cs m.loadFromDisk where
  memory := by
    have hfiles : ∀ files : List (GraphId × List Checkpoint), (∀ f ∈ files, ∀ c ∈ f.2, c ∈ cs) →
        ∀ checkpoints : JsMap CheckpointId Checkpoint, (∀ id c, checkpoints.get? id = some c → c ∈ cs ∧ c.id = id) →
        ∀ id c, (files.foldl (fun checkpoints file =>
          file.2.foldl (fun checkpoints c => checkpoints.set c.id c) checkpoints) checkpoints).get? id = some c →
            c ∈ cs ∧ c.id = id := by
      intro files
      induction files with
      | nil => exact fun _ _ hm => hm
      | cons f files ih =>
          intro hfiles checkpoints hm
          obtain ⟨hf, hfiles⟩ := List.forall_mem_cons.mp hfiles
          exact ih hfiles _ (known_foldl_set f.2 hm hf)
    exact hfiles m.disk.entries (fun f hf => h.disk f.1 f.2 (JsMap.mem_entries_iff.mp hf)) m.checkpoints h.memory
  disk := h.disk

theorem mem_deleteFromFile {checkpointId : CheckpointId} {disk : JsMap GraphId (List Checkpoint)} (k : GraphId)
    (h : ∀ id file, disk.get? id = some file → ∀ c ∈ file, c ∈ cs) :
    ∀ id file, (CheckpointManager.deleteFromFile checkpointId disk k).get? id = some file → ∀ c ∈ file, c ∈ cs := by
  intro id file hfile
  simp only [CheckpointManager.deleteFromFile] at hfile
  split at hfile
  · exact h id file hfile
  · split at hfile
    · rw [JsMap.get?_delete] at hfile
      split at hfile
      · cases hfile
      · exact h id file hfile
    · rw [JsMap.get?_set] at hfile
      split at hfile
      · cases hfile
        intro c hc
        cases hk : disk.get? k with
        | none => simp [hk] at hc
        | some existing =>
            rw [hk] at hc
            exact h k existing hk c (List.mem_of_mem_filter hc)
      · exact h id file hfile

theorem Known.dropCheckpoint (h : Known cs m) (id : CheckpointId) : Known cs (m.dropCheckpoint id) where
  memory id' c hc := by
    refine h.memory id' c ?_
    have hdelete : (m.checkpoints.delete id).get? id' = some c := hc
    rw [JsMap.get?_delete] at hdelete
    split at hdelete
    · cases hdelete
    · exact hdelete
  disk := by
    have hfiles : ∀ (files : List GraphId) (disk : JsMap GraphId (List Checkpoint)),
        (∀ k file, disk.get? k = some file → ∀ c ∈ file, c ∈ cs) →
        ∀ k file, (files.foldl (CheckpointManager.deleteFromFile id) disk).get? k = some file → ∀ c ∈ file, c ∈ cs := by
      intro files
      induction files with
      | nil => exact fun _ hd => hd
      | cons k files ih => exact fun disk hd => ih _ (mem_deleteFromFile k hd)
    exact hfiles m.disk.keys m.disk h.disk

theorem Known.pruneCheckpoints (h : Known cs m) (id : GraphId) :
    Known cs (m.pruneCheckpoints id) ∧ (m.pruneCheckpoints id).store = m.store := by
  have hdrop : ∀ (old : List Checkpoint) (m : CheckpointManager R), Known cs m →
      Known cs (old.foldl (fun m oldest => m.dropCheckpoint oldest.id) m) ∧
        (old.foldl (fun m oldest => m.dropCheckpoint oldest.id) m).store = m.store := by
    intro old
    induction old with
    | nil => exact fun m hm => ⟨hm, rfl⟩
    | cons c old ih => exact fun m hm => ih (m.dropCheckpoint c.id) (hm.dropCheckpoint c.id)
  exact hdrop _ m h

theorem Known.saveCheckpoint (h : Known cs m) (g : PhaseGraph R) (id : CheckpointId) (label : Option String) (now : Nat) :
    Known (checkpointOf g id label now :: cs) (m.saveCheckpoint g id label now) ∧
      (m.saveCheckpoint g id label now).store = m.store.save g := by
  have hall := h.mono fun c hc => List.mem_cons_of_mem (checkpointOf g id label now) hc
  refine Known.pruneCheckpoints ⟨fun id' c hc => ?_, fun k file hfile c hc => ?_⟩ g.id
  · exact known_foldl_set [checkpointOf g id label now] hall.memory (by simp) id' c hc
  · simp only [CheckpointManager.saveToDisk, JsMap.get?_set] at hfile
    split at hfile
    · cases hfile
      rcases List.mem_append.mp hc with hc | hc
      · cases hk : m.disk.get? (checkpointOf g id label now).graphId with
        | none => simp [hk] at hc
        | some existing =>
            rw [hk] at hc
            exact hall.disk _ existing hk c hc
      · rw [List.mem_singleton.mp hc]
        exact List.mem_cons_self
    · exact hall.disk k file hfile c hc

/-- What a run has saved. -/
structure Saved (ops : List (Op R)) (m : CheckpointManager R) : Prop where
  known : Known (ops.filterMap Op.checkpoint) m
  store : ∀ id, m.store.get? id = (latest ops id).map serializeGraph

theorem latest_concat (ops : List (Op R)) (op : Op R) (id : GraphId) :
    latest (ops ++ [op]) id = (op.graph.filter fun g => g.id == id).or (latest ops id) := by
  unfold latest
  cases hop : op.graph with
  | none => simp [List.filterMap_append, hop]
  | some g =>
      rw [List.filterMap_append]
      by_cases hid : g.id = id <;> simp [hop, hid, Option.filter]

theorem checkpoints_concat (ops : List (Op R)) (op : Op R) :
    (ops ++ [op]).filterMap Op.checkpoint = ops.filterMap Op.checkpoint ++ op.checkpoint.toList := by
  rw [List.filterMap_append]
  cases op <;> rfl

theorem store_save {ops : List (Op R)} {store : PhaseStore R} {op : Op R}
    (h : ∀ id, store.get? id = (latest ops id).map serializeGraph) (hop : op.graph = some g) (id : GraphId) :
    (store.save g).get? id = (latest (ops ++ [op]) id).map serializeGraph := by
  rw [latest_concat, hop, PhaseStore.save, JsMap.get?_set]
  by_cases hid : g.id = id
  · simp [hid, Option.filter]
  · simp [hid, h id, Option.filter]

theorem saved_run (maxCheckpoints : Nat) (ops : List (Op R)) :
    Saved ops (run CheckpointManager.step { maxCheckpoints } ops) := by
  induction ops using List.reverseRecOn with
  | nil => exact { known := ⟨fun _ _ h => (nomatch h), fun _ _ h => (nomatch h)⟩, store := fun _ => rfl }
  | append_singleton ops op ih =>
      rw [run_concat]
      generalize run CheckpointManager.step { maxCheckpoints } ops = m at ih
      cases op with
      | save g =>
          refine ⟨?_, store_save ih.store rfl⟩
          rw [checkpoints_concat, Op.checkpoint, Option.toList_none, List.append_nil]
          exact ⟨ih.known.memory, ih.known.disk⟩
      | saveCheckpoint g id label now =>
          obtain ⟨hknown, hstore⟩ := ih.known.saveCheckpoint g id label now
          refine ⟨hknown.mono fun c hc => ?_, fun id' => ?_⟩
          · rw [checkpoints_concat]
            exact (List.mem_cons.mp hc).elim (fun h => List.mem_append_right _ (by simp [h, Op.checkpoint]))
              (List.mem_append_left _)
          · rw [CheckpointManager.step, hstore]
            exact store_save ih.store rfl id'
      | restart maxCheckpoints =>
          refine ⟨?_, fun id => ?_⟩
          · rw [checkpoints_concat, Op.checkpoint, Option.toList_none, List.append_nil]
            exact ⟨fun _ _ h => (nomatch h), ih.known.disk⟩
          · rw [latest_concat]
            exact ih.store id
      | load =>
          refine ⟨?_, fun id => ?_⟩
          · rw [checkpoints_concat, Op.checkpoint, Option.toList_none, List.append_nil]
            exact ih.known.loadFromDisk
          · rw [latest_concat]
            exact ih.store id

theorem Known.findCheckpoint {id : CheckpointId} (h : Known cs m) (hfind : m.findCheckpoint id = some c) :
    c ∈ cs ∧ c.id = id := by
  unfold CheckpointManager.findCheckpoint at hfind
  split at hfind
  · cases hfind
    exact h.memory id c (by assumption)
  · exact h.loadFromDisk.memory id c hfind

/-- The graph that was saved last, in a run that has saved a graph in between. -/
theorem latest_append (before after : List (Op R)) (op : Op R) (hop : op.graph = some g) :
    latest (before ++ op :: after) g.id = some ((latest after g.id).getD g) := by
  unfold latest
  rw [List.filterMap_append, List.filterMap_cons_some hop, List.reverse_append, List.reverse_cons, List.find?_append,
    List.find?_append]
  cases List.find? (fun g' => g'.id == g.id) (List.filterMap Op.graph after).reverse <;> simp

/-- In every run, a checkpoint that is still kept brings its graph back if and only if the graph that was saved last
is unharmed. Ids of checkpoints are unique. -/
theorem restored_iff (maxCheckpoints : Nat) (before after : List (Op R)) (graph : PhaseGraph R) (id : CheckpointId)
    (label : Option String) (time now : Nat)
    (hids : (((before ++ .saveCheckpoint graph id label time :: after).filterMap Op.checkpoint).map Checkpoint.id).Nodup)
    (hkept : ((run CheckpointManager.step { maxCheckpoints }
      (before ++ .saveCheckpoint graph id label time :: after)).findCheckpoint id).isSome) :
    ((run CheckpointManager.step { maxCheckpoints }
      (before ++ .saveCheckpoint graph id label time :: after)).restoreCheckpoint id now).map PhaseGraph.timeless =
        some graph.timeless ↔
      Unharmed graph ((latest after graph.id).getD graph) (checkpointOf graph id label time) := by
  have hsaved := saved_run maxCheckpoints (before ++ .saveCheckpoint graph id label time :: after)
  generalize run CheckpointManager.step { maxCheckpoints }
    (before ++ .saveCheckpoint graph id label time :: after) = m at hsaved hkept
  obtain ⟨c, hc⟩ := Option.isSome_iff_exists.mp hkept
  obtain ⟨hmem, hid⟩ := hsaved.known.findCheckpoint hc
  have hself : checkpointOf graph id label time ∈
      (before ++ .saveCheckpoint graph id label time :: after).filterMap Op.checkpoint :=
    List.mem_filterMap.mpr ⟨.saveCheckpoint graph id label time, by simp, rfl⟩
  obtain rfl : c = checkpointOf graph id label time := List.inj_on_of_nodup_map hids hmem hself hid
  have hstore : m.store.load graph.id = some ((latest after graph.id).getD graph) := by
    rw [PhaseStore.load, hsaved.store, latest_append before after _ rfl]
    exact congrArg some (deserializeGraph_serialize _)
  have hrestore : m.restoreCheckpoint id now =
      some (restoreGraph (checkpointOf graph id label time) now ((latest after graph.id).getD graph)) := by
    unfold CheckpointManager.restoreCheckpoint
    rw [hc]
    exact congrArg (fun g => g.bind fun g => some (restoreGraph (checkpointOf graph id label time) now g)) hstore
  rw [hrestore, Option.map_some, Option.some_inj]
  exact restoreGraph_iff graph _ id label time now

/-- A phase without tasks. -/
def bare (status : PhaseStatus) : PhaseNode Unit := { status, taskGraph := ⟨.empty, 0, ()⟩, updatedAt := 0, rest := () }

/-- Two phases, one after the other. -/
def twoSteps (first second : PhaseStatus) : PhaseGraph Unit where
  id := "g"
  phases := (JsMap.empty.set "a" (bare first)).set "b" (bare second)
  rootPhaseIds := ["a"]
  updatedAt := 0
  rest := ()

theorem restored_iff_twoSteps :
    ((run CheckpointManager.step { maxCheckpoints := 10 }
      ([] ++ .saveCheckpoint (twoSteps .running .pending) "c" none 1 ::
        [.save (twoSteps .completed .pending)])).restoreCheckpoint "c" 2).map PhaseGraph.timeless = some (twoSteps .running .pending).timeless ↔
      Unharmed (twoSteps .running .pending) ((latest [.save (twoSteps .completed .pending)] "g").getD
        (twoSteps .running .pending)) (checkpointOf (twoSteps .running .pending) "c" none 1) :=
  restored_iff 10 [] [.save (twoSteps .completed .pending)] (twoSteps .running .pending) "c" none 1 2
    (by decide +kernel) (by decide +kernel)

/-- The second phase has begun since. -/
theorem second_not_restored :
    ((run CheckpointManager.step { maxCheckpoints := 10 }
      [.saveCheckpoint (twoSteps .running .pending) "c" none 1, .save (twoSteps .completed .running)]).findCheckpoint
        "c").isSome = true ∧
    ((run CheckpointManager.step { maxCheckpoints := 10 }
      [.saveCheckpoint (twoSteps .running .pending) "c" none 1, .save (twoSteps .completed .running)]).restoreCheckpoint
        "c" 2).map PhaseGraph.timeless = some (twoSteps .running .running).timeless ∧
    (twoSteps .running .running).timeless ≠ (twoSteps .running .pending).timeless := by
  decide +kernel

end WrongStack.Checkpoints
