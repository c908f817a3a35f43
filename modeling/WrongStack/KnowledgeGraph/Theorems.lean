import Mathlib.Data.List.Perm.Basic
import Mathlib.Logic.Function.Basic
import WrongStack.Lib.JsMap
import WrongStack.Lib.Json
import WrongStack.Lib.Run

/-!
# The knowledge graph and its log

`add`, `update` and `load` of `KnowledgeGraph` (`core/src/coordination/knowledge-graph.ts`). A call changes the map
when it is made; its line reaches the file later, when the file lock is granted, in any order.
-/

namespace WrongStack.KnowledgeGraph

open Lib

/-- A field that is undefined is none, as is one that is not there: `JSON.stringify` leaves it out. -/
abbrev Fields := JsString → Option Json

structure GraphNode where
  id : JsString
  fields : Fields

structure Patch where
  id : Option JsString := none
  fields : List (JsString × Option Json)

/-- `{ ...node, ...patch }` -/
def GraphNode.spread (node : GraphNode) (patch : Patch) : GraphNode where
  id := patch.id.getD node.id
  fields := patch.fields.foldl (fun fields p => Function.update fields p.1 p.2) node.fields

inductive LogLine
  /-- `JSON.stringify(node)` -/
  | node (node : GraphNode)
  /-- `JSON.stringify({ op: 'update', node })` -/
  | update (node : GraphNode)
  | malformed

def LogLine.node? : LogLine → Option GraphNode
  | node n | update n => some n
  | malformed => none

abbrev Nodes := JsMap JsString GraphNode

/-! ## `load` -/

def loadLine (nodes : Nodes) (line : LogLine) : Nodes :=
  match line with
  | .update node => nodes.set node.id node
  | .node node => nodes.set node.id node
  | .malformed => nodes

/-- What a fresh graph has after `load`. -/
def load (content : List LogLine) : Nodes := content.foldl loadLine .empty

/-! ## Calls -/

/-- A line with the number of the call that writes it. -/
structure Entry where
  call : Nat
  line : LogLine

structure State where
  nodes : Nodes
  file : List Entry
  /-- The calls that wait for the lock of the file. -/
  pending : List Entry := []
  calls : Nat := 0

/-- A graph that has been loaded from its file. -/
def start (content : List LogLine) : State where
  nodes := load content
  file := content.map fun line => { call := 0, line := line }

inductive Op
  /-- `id` is the `randomUUID()` of the call. -/
  | add (id : JsString) (node : Patch)
  | update (id : JsString) (patch : Patch)
  /-- A waiting call gets the lock and appends its line. -/
  | append (i : Nat)

def step (s : State) : Op → State
  | .add id node =>
      let full := ({ id := id, fields := fun _ => none } : GraphNode).spread node
      { s with
        nodes := s.nodes.set full.id full
        pending := s.pending ++ [{ call := s.calls + 1, line := .node full }]
        calls := s.calls + 1 }
  | .update id patch =>
      match s.nodes.get? id with
      | none => s
      | some existing =>
          let updated := existing.spread patch
          { s with
            nodes := s.nodes.set id updated
            pending := s.pending ++ [{ call := s.calls + 1, line := .update updated }]
            calls := s.calls + 1 }
  | .append i =>
      match s.pending[i]? with
      | none => s
      | some entry => { s with file := s.file ++ [entry], pending := s.pending.eraseIdx i }

end WrongStack.KnowledgeGraph

/-!
# Loading the log restores the graph

As long as the lines of one node reach the file in the order of the calls.
-/

namespace WrongStack.KnowledgeGraph

open Lib

variable {s : State} {content : List LogLine} {line : LogLine} {id : JsString}

/-- The nodes are those of the file. -/
def Restored (s : State) : Prop := ∀ id, (load (s.file.map Entry.line)).get? id = s.nodes.get? id

def LogLine.id? (line : LogLine) : Option JsString := line.node?.map GraphNode.id

/-- An update leaves the id of its node, and no line is appended after that of a later call on the same node. -/
def InOrder (s : State) : Op → Prop
  | .add _ _ => True
  | .update id patch => s.nodes.has id = true → patch.id = none ∨ patch.id = some id
  | .append i => ∀ entry ∈ s.pending[i]?, ∀ earlier ∈ s.file, earlier.line.id? = entry.line.id? →
      earlier.call ≤ entry.call

instance (s : State) (op : Op) : Decidable (InOrder s op) :=
  match op with
  | .add _ _ => inferInstanceAs (Decidable True)
  | .update id patch => inferInstanceAs (Decidable (s.nodes.has id = true → patch.id = none ∨ patch.id = some id))
  | .append i => inferInstanceAs (Decidable (∀ entry ∈ s.pending[i]?, ∀ earlier ∈ s.file,
      earlier.line.id? = entry.line.id? → earlier.call ≤ entry.call))

/-! ## Replaying the log -/

theorem load_concat (content : List LogLine) (line : LogLine) :
    load (content ++ [line]) = loadLine (load content) line := by
  simp [load]

theorem get?_loadLine (nodes : Nodes) (line : LogLine) (id : JsString) :
    (loadLine nodes line).get? id = if line.id? = some id then line.node? else nodes.get? id := by
  cases line with
  | malformed => rfl
  | node n | update n => simp [loadLine, LogLine.id?, LogLine.node?, JsMap.get?_set]

theorem get?_load_id (content : List LogLine) {node : GraphNode} (h : (load content).get? id = some node) :
    node.id = id := by
  induction content using List.reverseRecOn with
  | nil => cases h
  | append_singleton content line ih =>
      rw [load_concat, get?_loadLine] at h
      split at h
      · rename_i hid
        simpa [LogLine.id?, h] using hid
      · exact ih h

/-! ## What holds between the steps -/

/-- A waiting line with the value of the node `id`, which is that of the call `call`. -/
def Waiting (s : State) (id : JsString) (call : Nat) : Prop :=
  ∃ entry ∈ s.pending, entry.call = call ∧ entry.line.id? = some id ∧ entry.line.node? = s.nodes.get? id

structure Agrees (s : State) (id : JsString) (latest : Nat) : Prop where
  file : ∀ entry ∈ s.file, entry.line.id? = some id → entry.call ≤ latest
  pending : ∀ entry ∈ s.pending, entry.line.id? = some id → entry.call ≤ latest
  key : ∀ node, s.nodes.get? id = some node → node.id = id
  value : Waiting s id latest ∨
    ((load (s.file.map Entry.line)).get? id = s.nodes.get? id ∧
      ∀ entry ∈ s.pending, entry.line.id? = some id →
        ∃ written ∈ s.file, written.line.id? = some id ∧ entry.call < written.call)

structure Inv (s : State) : Prop where
  calls : ∀ entry ∈ s.pending, entry.call ≤ s.calls
  written : ∀ entry ∈ s.file, entry.call ≤ s.calls
  distinct : (s.pending.map Entry.call).Nodup
  agrees : ∀ id, ∃ latest ≤ s.calls, Agrees s id latest

theorem inv_start (content : List LogLine) : Inv (start content) where
  calls := by simp [start]
  written := by simp [start]
  distinct := by simp [start]
  agrees id := by
    refine ⟨0, Nat.le_refl 0, ?_, ?_, fun node hnode => get?_load_id content hnode, .inr ⟨?_, ?_⟩⟩
    · simp [start]
    · simp [start]
    · simp [start, Function.comp_def]
    · simp [start]

theorem Inv.call (h : Inv s) (nodes : Nodes) (line : LogLine) {node : GraphNode} (hline : line.node? = some node)
    (hnodes : ∀ id, nodes.get? id = if node.id = id then some node else s.nodes.get? id) :
    Inv { s with
      nodes := nodes, pending := s.pending ++ [{ call := s.calls + 1, line := line }], calls := s.calls + 1 } where
  calls entry hentry := by
    rcases List.mem_append.mp hentry with hold | hnew
    · exact Nat.le_succ_of_le (h.calls entry hold)
    · rw [List.mem_singleton.mp hnew]
  written entry hentry := Nat.le_succ_of_le (h.written entry hentry)
  distinct := by
    rw [List.map_append, List.nodup_append]
    refine ⟨h.distinct, List.nodup_singleton _, ?_⟩
    intro n hn m hm heq
    obtain ⟨entry, hentry, rfl⟩ := List.mem_map.mp hn
    obtain rfl := List.mem_singleton.mp hm
    have hle := h.calls entry hentry
    simp only at heq
    omega
  agrees id := by
    by_cases hid : node.id = id
    · refine ⟨s.calls + 1, Nat.le_refl _, ?_, ?_, ?_, .inl ⟨_, List.mem_append_right _ List.mem_cons_self, rfl, ?_, ?_⟩⟩
      · exact fun entry hentry _ => Nat.le_succ_of_le (h.written entry hentry)
      · intro entry hentry _
        rcases List.mem_append.mp hentry with hold | hnew
        · exact Nat.le_succ_of_le (h.calls entry hold)
        · rw [List.mem_singleton.mp hnew]
      · intro n hn
        rw [hnodes, if_pos hid] at hn
        cases hn
        exact hid
      · simp [LogLine.id?, hline, hid]
      · simp [hline, hnodes, hid]
    · obtain ⟨latest, hlatest, hagrees⟩ := h.agrees id
      have hother : LogLine.id? line ≠ some id := by simp [LogLine.id?, hline, hid]
      refine ⟨latest, Nat.le_succ_of_le hlatest, hagrees.file, ?_, ?_, ?_⟩
      · intro entry hentry hentryid
        rcases List.mem_append.mp hentry with hold | hnew
        · exact hagrees.pending entry hold hentryid
        · rw [List.mem_singleton.mp hnew] at hentryid
          exact absurd hentryid hother
      · intro n hn
        rw [hnodes, if_neg hid] at hn
        exact hagrees.key n hn
      · simp only [Waiting, hnodes, if_neg hid]
        rcases hagrees.value with ⟨entry, hentry, hwaits⟩ | ⟨hfile, hpending⟩
        · exact .inl ⟨entry, List.mem_append_left _ hentry, hwaits⟩
        · refine .inr ⟨hfile, fun entry hentry hentryid => ?_⟩
          rcases List.mem_append.mp hentry with hold | hnew
          · exact hpending entry hold hentryid
          · rw [List.mem_singleton.mp hnew] at hentryid
            exact absurd hentryid hother

/-- A waiting line is appended, unless one of a later call on its node is there already. -/
theorem Inv.append (h : Inv s) {i : Nat} {entry : Entry} (hi : s.pending[i]? = some entry)
    (horder : ∀ earlier ∈ s.file, earlier.line.id? = entry.line.id? → earlier.call ≤ entry.call) :
    Inv { s with file := s.file ++ [entry], pending := s.pending.eraseIdx i } where
  calls e he := h.calls e ((List.eraseIdx_sublist s.pending i).subset he)
  written e he := by
    rcases List.mem_append.mp he with hold | hnew
    · exact h.written e hold
    · rw [List.mem_singleton.mp hnew]
      exact h.calls entry (List.mem_of_getElem? hi)
  distinct := h.distinct.sublist ((List.eraseIdx_sublist s.pending i).map _)
  agrees id := by
    obtain ⟨latest, hlatest, hagrees⟩ := h.agrees id
    have hmem : entry ∈ s.pending := List.mem_of_getElem? hi
    obtain ⟨hlt, hget⟩ := List.getElem?_eq_some_iff.mp hi
    have hperm : (entry :: s.pending.eraseIdx i).Perm s.pending := hget ▸ List.getElem_cons_eraseIdx_perm hlt
    have hkept : ∀ e ∈ s.pending.eraseIdx i, e ∈ s.pending := fun e he => hperm.subset (List.mem_cons_of_mem _ he)
    have hcalls : ∀ e ∈ s.pending.eraseIdx i, e.call ≠ entry.call := by
      intro e he heq
      have hnodup := (hperm.map Entry.call).nodup_iff.mpr h.distinct
      exact (List.nodup_cons.mp hnodup).1 (heq ▸ List.mem_map_of_mem he)
    refine ⟨latest, hlatest, ?_, fun e he => hagrees.pending e (hkept e he), hagrees.key, ?_⟩
    · intro e he heid
      rcases List.mem_append.mp he with hold | hnew
      · exact hagrees.file e hold heid
      · rw [List.mem_singleton.mp hnew] at heid ⊢
        exact hagrees.pending entry hmem heid
    · have hload : ∀ id, (load ((s.file ++ [entry]).map Entry.line)).get? id =
          if entry.line.id? = some id then entry.line.node? else (load (s.file.map Entry.line)).get? id := by
        intro id
        rw [List.map_append, List.map_singleton, load_concat, get?_loadLine]
      have hstays : ∀ e ∈ s.pending, e ≠ entry → e ∈ s.pending.eraseIdx i := fun e he hne =>
        (List.mem_cons.mp (hperm.symm.subset he)).resolve_left hne
      rcases hagrees.value with ⟨waits, hwaits, hcall, hwaitsid, hvalue⟩ | ⟨hfile, hpending⟩
      · by_cases heq : waits = entry
        · subst heq
          refine .inr ⟨?_, fun e he heid => ⟨waits, List.mem_append_right _ List.mem_cons_self, hwaitsid, ?_⟩⟩
          · rw [hload, if_pos hwaitsid, hvalue]
          · have hle := hagrees.pending e (hkept e he) heid
            have hne := hcalls e he
            omega
        · exact .inl ⟨waits, hstays waits hwaits heq, hcall, hwaitsid, hvalue⟩
      · have hid : entry.line.id? ≠ some id := by
          intro hid
          obtain ⟨written, hwritten, hwrittenid, hlater⟩ := hpending entry hmem hid
          have hle := horder written hwritten (hwrittenid.trans hid.symm)
          omega
        refine .inr ⟨?_, fun e he heid => ?_⟩
        · rw [hload, if_neg hid, hfile]
        · obtain ⟨written, hwritten, hrest⟩ := hpending e (hkept e he) heid
          exact ⟨written, List.mem_append_left _ hwritten, hrest⟩

theorem inv_step {op : Op} (h : Inv s) (horder : InOrder s op) : Inv (step s op) := by
  cases op with
  | add id node =>
      exact h.call _ (.node (({ id := id, fields := fun _ => none } : GraphNode).spread node)) rfl
        fun id => JsMap.get?_set ..
  | update id patch =>
      cases hnode : s.nodes.get? id with
      | none =>
          simp only [step, hnode]
          exact h
      | some existing =>
          simp only [step, hnode]
          obtain ⟨latest, -, hagrees⟩ := h.agrees id
          have hid : (existing.spread patch).id = id := by
            rcases horder (JsMap.has_iff.mpr ⟨existing, hnode⟩) with hpatch | hpatch <;> simp [GraphNode.spread, hpatch, hagrees.key existing hnode]
          exact h.call _ (.update (existing.spread patch)) rfl fun id' => by rw [JsMap.get?_set, hid]
  | append i =>
      cases hi : s.pending[i]? with
      | none =>
          simp only [step, hi]
          exact h
      | some entry =>
          simp only [step, hi]
          exact h.append hi (horder entry hi)

/-! ## Restoring the graph -/

theorem restored (content : List LogLine) (ops : List Op) (h : Under step InOrder (start content) ops)
    (hdone : (run step (start content) ops).pending = []) : Restored (run step (start content) ops) := by
  have hinv : Inv (run step (start content) ops) :=
    run_invariant_under (fun s op => inv_step) (inv_start content) h
  intro id
  obtain ⟨latest, -, hagrees⟩ := hinv.agrees id
  rcases hagrees.value with ⟨entry, hentry, -⟩ | ⟨hfile, -⟩
  · rw [hdone] at hentry
    cases hentry
  · exact hfile

/-- A goal that is claimed and finished while the first write still waits. -/
def twoUpdates (order : List Nat) : List Op :=
  [.add (js "g") { fields := [(js "status", some (.str (js "pending")))] }, .append 0,
    .update (js "g") { fields := [(js "status", some (.str (js "in_progress")))] },
    .update (js "g") { fields := [(js "status", some (.str (js "done")))] }] ++ order.map Op.append

theorem restored_inOrder : Restored (run step (start []) (twoUpdates [0, 0])) :=
  restored [] (twoUpdates [0, 0]) (by decide +kernel) rfl

def statusOf (node : Option GraphNode) : Option JsString :=
  (node.bind fun n => n.fields (js "status")).map Json.stringify

/-- The lock is granted to the second update first. -/
theorem stale_update_wins :
    (run step (start []) (twoUpdates [1, 0])).pending = [] ∧ ¬Restored (run step (start []) (twoUpdates [1, 0])) := by
  refine ⟨rfl, fun h => ?_⟩
  have hstatus : statusOf ((load ((run step (start []) (twoUpdates [1, 0])).file.map Entry.line)).get? (js "g")) ≠
      statusOf ((run step (start []) (twoUpdates [1, 0])).nodes.get? (js "g")) := by decide +kernel
  exact hstatus (congrArg statusOf (h (js "g")))

end WrongStack.KnowledgeGraph
