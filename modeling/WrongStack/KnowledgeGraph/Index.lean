import Mathlib.Data.List.Sort
import WrongStack.Lib.JsMap
import WrongStack.Lib.JsString
import WrongStack.Lib.Run

/-!
# The index of the knowledge graph

The inverted index that `KnowledgeGraph` (`core/src/coordination/knowledge-graph.ts`) keeps beside its nodes, and the
queries that go through it. A node has the fields that an index key or a filter reads. A call changes the memory when
it is made; its line reaches the log later.
-/

namespace WrongStack.GraphIndex

open Lib

inductive NodeType
  | fact | goal | decision | change | vote
  deriving DecidableEq

def NodeType.name : NodeType → JsString
  | .fact => js "fact"
  | .goal => js "goal"
  | .decision => js "decision"
  | .change => js "change"
  | .vote => js "vote"

structure Fields where
  category : Option JsString := none
  severity : Option JsString := none
  discoveredBy : Option JsString := none
  key : Option JsString := none
  subject : Option JsString := none
  detail : Option JsString := none
  status : Option JsString := none
  priority : Option JsString := none
  assignee : Option JsString := none
  proposedBy : Option JsString := none
  tags : Option (List JsString) := none
  satisfiesGoals : Option (List JsString) := none
  deriving DecidableEq

/-- The lists that a node of the type always has. -/
def Fields.Complete (fields : Fields) : NodeType → Prop
  | .fact | .goal => fields.tags.isSome
  | .change => fields.satisfiesGoals.isSome
  | .decision | .vote => True

structure GraphNode where
  id : JsString
  type : NodeType
  fields : Fields
  complete : fields.Complete type

structure NodeFilter where
  type : Option NodeType := none
  category : Option JsString := none
  status : Option JsString := none
  tags : Option (List JsString) := none
  assignee : Option JsString := none
  discoveredBy : Option JsString := none
  proposedBy : Option JsString := none
  since : Option JsString := none

/-- `{ ...fields, ...patch }`; a patch names no field that it leaves alone. -/
def Fields.spread (fields patch : Fields) : Fields where
  category := patch.category.or fields.category
  severity := patch.severity.or fields.severity
  discoveredBy := patch.discoveredBy.or fields.discoveredBy
  key := patch.key.or fields.key
  subject := patch.subject.or fields.subject
  detail := patch.detail.or fields.detail
  status := patch.status.or fields.status
  priority := patch.priority.or fields.priority
  assignee := patch.assignee.or fields.assignee
  proposedBy := patch.proposedBy.or fields.proposedBy
  tags := patch.tags.or fields.tags
  satisfiesGoals := patch.satisfiesGoals.or fields.satisfiesGoals

theorem Fields.Complete.spread {fields : Fields} {type : NodeType} (h : fields.Complete type) (patch : Fields) :
    (fields.spread patch).Complete type := by
  cases type <;> simp_all [Fields.Complete, Fields.spread]

/-- A patch that keeps the id and the type. -/
def GraphNode.patched (node : GraphNode) (patch : Fields) : GraphNode where
  id := node.id
  type := node.type
  fields := node.fields.spread patch
  complete := node.complete.spread patch

/-! ## Keys and filters -/

/-- `${value}` -/
def text (value : Option JsString) : JsString := value.getD (js "undefined")

/-- A string that is there and not empty. -/
def truthy (value : Option JsString) : Option JsString := value.filter fun s => !s.isEmpty

namespace GraphNode

variable (node : GraphNode)

def tags : List JsString := node.fields.tags.getD []

/-- `_indexKeys` -/
def indexKeys : List JsString :=
  let f := node.fields
  ((js "type:" ++ node.type.name) ::
    match node.type with
    | .fact =>
        [js "cat:" ++ text f.category] ++ ((truthy f.severity).map fun s => js "sev:" ++ s).toList ++
          [js "by:" ++ text f.discoveredBy] ++ node.tags.map (fun tag => js "tag:" ++ tag) ++
          [js "key:" ++ text f.key, js "subject:" ++ text f.subject] ++
          ((truthy f.detail).map fun d => js "detail:" ++ d).toList
    | .goal =>
        [js "status:" ++ text f.status, js "prio:" ++ text f.priority] ++
          ((truthy f.assignee).map fun a => js "assign:" ++ a).toList ++ node.tags.map fun tag => js "tag:" ++ tag
    | .change =>
        [js "change:" ++ text f.status, js "by:" ++ text f.proposedBy] ++
          (f.satisfiesGoals.getD []).map fun g => js "goal:" ++ g
    | .decision | .vote => []).eraseDups

/-- What the filter wants, if anything, is what the node has. -/
def agrees (wanted actual : Option JsString) : Bool := (truthy wanted).all fun w => actual == some w

/-- `_matches` -/
def matchesFilter (f : NodeFilter) : Bool :=
  f.type.all (fun type => decide (node.type = type)) && agrees f.category node.fields.category &&
    (if node.type = .goal ∨ node.type = .change then agrees f.status node.fields.status else true) &&
    agrees f.assignee node.fields.assignee && agrees f.discoveredBy node.fields.discoveredBy &&
    agrees f.proposedBy node.fields.proposedBy &&
    ((f.tags.getD []).isEmpty || (f.tags.getD []).any fun t => node.tags.contains t)

end GraphNode

/-! ## The graph -/

inductive LogLine
  /-- `JSON.stringify(node)` -/
  | node (node : GraphNode)
  /-- `JSON.stringify({ op: 'update', node })` -/
  | update (node : GraphNode)
  | malformed

structure State where
  nodes : JsMap JsString GraphNode := .empty
  index : JsMap JsString (List JsString) := .empty
  seq : JsMap JsString Nat := .empty
  seqCounter : Nat := 0
  file : List LogLine := []
  /-- The lines that wait for the lock of the file. -/
  pending : List LogLine := []

namespace State

variable (s : State)

/-- The set of a key. -/
def idsOf (key : JsString) : List JsString := (s.index.get? key).getD []

def trackSeq (id : JsString) : State :=
  if s.seq.has id then s else { s with seq := s.seq.set id s.seqCounter, seqCounter := s.seqCounter + 1 }

/-- `set.add(id)` for the set of the key, which is made if there is none. -/
def addId (id : JsString) (index : JsMap JsString (List JsString)) (key : JsString) : JsMap JsString (List JsString) :=
  let ids := (index.get? key).getD []
  index.set key (if id ∈ ids then ids else ids ++ [id])

def addToIndex (node : GraphNode) (keys : List JsString) : State :=
  { s with index := keys.foldl (addId node.id) s.index }

/-- `this.index.get(key)?.delete(id)` -/
def removeId (id : JsString) (index : JsMap JsString (List JsString)) (key : JsString) : JsMap JsString (List JsString) :=
  index.modify key fun ids => ids.filter (· ≠ id)

def removeFromIndex (node : GraphNode) (keys : List JsString) : State :=
  { s with index := keys.foldl (removeId node.id) s.index }

/-- `nodes.set`, `_trackSeq` and `_addToIndex`. -/
def put (node : GraphNode) : State :=
  (({ s with nodes := s.nodes.set node.id node }).trackSeq node.id).addToIndex node node.indexKeys

/-- The memory after `add`, and its line. -/
def add (node : GraphNode) : State :=
  let s := s.put node
  { s with pending := s.pending ++ [.node node] }

def update (id : JsString) (patch : Fields) : State :=
  match s.nodes.get? id with
  | none => s
  | some existing =>
      let s := s.removeFromIndex existing existing.indexKeys
      let updated := existing.patched patch
      let s := ({ s with nodes := s.nodes.set id updated }).addToIndex updated updated.indexKeys
      { s with pending := s.pending ++ [.update updated] }

def loadLine (s : State) : LogLine → State
  | .update node =>
      let s :=
        match s.nodes.get? node.id with
        | some oldNode => s.removeFromIndex oldNode oldNode.indexKeys
        | none => s
      s.put node
  | .node node => s.put node
  | .malformed => s

def load (content : List LogLine) : State := content.foldl loadLine s

def seqOf (id : JsString) : Nat := (s.seq.get? id).getD 0

/-- The scan of all nodes, in the order of their creation. -/
def scan (f : NodeFilter) : List GraphNode := (s.nodes.entries.map Prod.snd).filter fun node => node.matchesFilter f

def getAll (f : NodeFilter) : List GraphNode :=
  match f.type with
  | some type =>
      let ids := s.idsOf (js "type:" ++ type.name)
      let out := ids.filterMap fun id => (s.nodes.get? id).filter fun node => node.matchesFilter f
      out.mergeSort fun a b => decide (s.seqOf a.id ≤ s.seqOf b.id)
  | none => s.scan f

end State

/-- A new graph over a log. -/
def start (content : List LogLine) : State := { file := content }

inductive Op
  /-- The node has its id, which is a new `randomUUID()` unless the caller gives one. -/
  | add (node : GraphNode)
  | update (id : JsString) (patch : Fields)
  /-- A waiting call gets the lock and appends its line. -/
  | append (i : Nat)
  /-- `load`, with the first lines of the log: it is read before it is replayed. -/
  | load (lines : Nat)

def step (s : State) : Op → State
  | .add node => s.add node
  | .update id patch => s.update id patch
  | .append i =>
      match s.pending[i]? with
      | none => s
      | some line => { s with file := s.file ++ [line], pending := s.pending.eraseIdx i }
  | .load lines => s.load (s.file.take lines)

/-! ## What the index promises -/

/-- The value of the node yields the key. -/
def Yields (s : State) (id key : JsString) : Prop := ∃ node, s.nodes.get? id = some node ∧ key ∈ node.indexKeys

/-- For every key the set has exactly the ids of the nodes whose value yields it. -/
def Exact (s : State) : Prop := ∀ key id, id ∈ s.idsOf key ↔ Yields s id key

structure Indexed (s : State) : Prop where
  queries : ∀ f, s.getAll f = s.scan f
  exact : Exact s

/-- The line sets the node to a value that yields the key. -/
def LogLine.Sets (id key : JsString) : LogLine → Prop
  | .node n | .update n => n.id = id ∧ key ∈ n.indexKeys
  | .malformed => False

/-- Where a line without `op` replaces a value, each key of that value is a key of this value of the node or of a
later one. -/
def Covered (s : State) : List LogLine → Prop
  | [] => True
  | line :: lines =>
      (∀ node, line = .node node → ∀ key, Yields s node.id key → ∃ l ∈ line :: lines, l.Sets node.id key) ∧
        Covered (s.loadLine line) lines

/-- No value is replaced whose keys would stay. -/
def Keeps (s : State) : Op → Prop
  | .add node => Covered s [.node node]
  | .load lines => Covered s (s.file.take lines)
  | .update _ _ | .append _ => True

section

variable {s : State} {node : GraphNode} {id id' key k : JsString} {keys : List JsString}

/-! ## The index -/

theorem mem_addId {index : JsMap JsString (List JsString)} :
    id' ∈ ((State.addId id index key).get? k).getD [] ↔ id' ∈ (index.get? k).getD [] ∨ id' = id ∧ k = key := by
  unfold State.addId
  dsimp only
  rw [JsMap.get?_set]
  by_cases hk : key = k
  · subst hk
    by_cases hid : id ∈ (index.get? key).getD []
    · rw [if_pos rfl, if_pos hid, Option.getD_some]
      exact ⟨Or.inl, fun h => h.elim (fun h => h) fun h => h.1 ▸ hid⟩
    · rw [if_pos rfl, if_neg hid, Option.getD_some, List.mem_append, List.mem_singleton]
      simp
  · rw [if_neg hk]
    simp [Ne.symm hk]

theorem mem_addToIndex :
    id' ∈ (s.addToIndex node keys).idsOf k ↔ id' ∈ s.idsOf k ∨ id' = node.id ∧ k ∈ keys := by
  unfold State.addToIndex State.idsOf
  dsimp only
  generalize s.index = index
  induction keys generalizing index with
  | nil => simp
  | cons key keys ih =>
      rw [List.foldl_cons, ih, mem_addId, List.mem_cons, or_assoc]
      exact or_congr_right (by rw [← and_or_left])

theorem mem_removeId {index : JsMap JsString (List JsString)} :
    id' ∈ ((State.removeId id index key).get? k).getD [] ↔ id' ∈ (index.get? k).getD [] ∧ ¬(id' = id ∧ k = key) := by
  unfold State.removeId
  rw [JsMap.get?_modify]
  by_cases hk : key = k
  · subst hk
    cases index.get? key with
    | none => simp
    | some ids => simp
  · rw [if_neg hk]
    simp [Ne.symm hk]

theorem mem_removeFromIndex :
    id' ∈ (s.removeFromIndex node keys).idsOf k ↔ id' ∈ s.idsOf k ∧ ¬(id' = node.id ∧ k ∈ keys) := by
  unfold State.removeFromIndex State.idsOf
  dsimp only
  generalize s.index = index
  induction keys generalizing index with
  | nil => simp
  | cons key keys ih =>
      rw [List.foldl_cons, ih, mem_removeId, List.mem_cons, and_assoc]
      refine and_congr_right fun _ => ?_
      rw [← not_or, ← and_or_left]

theorem removeFromIndex_nodup (h : (s.idsOf k).Nodup) : ((s.removeFromIndex node keys).idsOf k).Nodup := by
  unfold State.removeFromIndex State.idsOf
  unfold State.idsOf at h
  dsimp only
  generalize s.index = index at h ⊢
  induction keys generalizing index with
  | nil => exact h
  | cons key keys ih =>
      refine ih _ ?_
      rw [State.removeId, JsMap.get?_modify]
      split
      · cases hids : index.get? k with
        | none => exact List.nodup_nil
        | some ids =>
            rw [hids] at h
            exact h.filter _
      · exact h

theorem addToIndex_nodup (h : (s.idsOf k).Nodup) : ((s.addToIndex node keys).idsOf k).Nodup := by
  unfold State.addToIndex State.idsOf
  unfold State.idsOf at h
  dsimp only
  generalize s.index = index at h ⊢
  induction keys generalizing index with
  | nil => exact h
  | cons key keys ih =>
      refine ih _ ?_
      rw [State.addId, JsMap.get?_set]
      split
      · rename_i hk
        subst hk
        rw [Option.getD_some]
        split
        · exact h
        · rename_i hid
          rw [List.nodup_append]
          refine ⟨h, List.nodup_singleton _, fun a ha b hb heq => hid ?_⟩
          rw [List.mem_singleton] at hb
          rw [← hb, ← heq]
          exact ha
      · exact h

/-! ## Setting a node -/

@[simp] theorem trackSeq_nodes : (s.trackSeq id).nodes = s.nodes := by
  unfold State.trackSeq
  split <;> rfl

@[simp] theorem trackSeq_index : (s.trackSeq id).index = s.index := by
  unfold State.trackSeq
  split <;> rfl

theorem put_nodes : (s.put node).nodes = s.nodes.set node.id node := trackSeq_nodes

theorem mem_put : id' ∈ (s.put node).idsOf k ↔ id' ∈ s.idsOf k ∨ id' = node.id ∧ k ∈ node.indexKeys := by
  rw [State.put, mem_addToIndex, State.idsOf, trackSeq_index]
  rfl

theorem put_nodup (h : (s.idsOf k).Nodup) : ((s.put node).idsOf k).Nodup := by
  refine addToIndex_nodup ?_
  rw [State.idsOf, trackSeq_index]
  exact h

theorem yields_put : Yields (s.put node) id k ↔ if node.id = id then k ∈ node.indexKeys else Yields s id k := by
  unfold Yields
  rw [put_nodes]
  simp only [JsMap.get?_set]
  split
  · simp
  · rfl

/-- What holds in every state that calls lead to. -/
structure Inv (s : State) : Prop where
  ids : ∀ id node, s.nodes.get? id = some node → node.id = id
  covered : ∀ id key, Yields s id key → id ∈ s.idsOf key
  nodup : ∀ key, (s.idsOf key).Nodup
  seq : s.seq.entries = s.nodes.keys.zipIdx
  counter : s.seqCounter = s.nodes.keys.length

theorem Inv.seq_keys (h : Inv s) : s.seq.keys = s.nodes.keys := by
  rw [JsMap.keys, h.seq, List.zipIdx_map_fst]

/-- The numbers follow the order of the map, in which a new key is the last one. -/
theorem Inv.tracked (h : Inv s) (node : GraphNode) :
    (s.put node).seq.entries = (s.put node).nodes.keys.zipIdx ∧
      (s.put node).seqCounter = (s.put node).nodes.keys.length := by
  have hput : (s.put node).seq = (s.trackSeq node.id).seq ∧
      (s.put node).seqCounter = (s.trackSeq node.id).seqCounter := by
    unfold State.put State.addToIndex State.trackSeq
    dsimp only
    split <;> exact ⟨rfl, rfl⟩
  rw [hput.1, hput.2, put_nodes, JsMap.keys_set]
  unfold State.trackSeq
  cases hhas : s.seq.has node.id with
  | true =>
      have hmem : node.id ∈ s.nodes.keys := by
        rw [← h.seq_keys]
        exact JsMap.mem_keys_iff.mpr (JsMap.has_iff.mp hhas)
      rw [if_pos rfl, if_pos hmem]
      exact ⟨h.seq, h.counter⟩
  | false =>
      have hmem : node.id ∉ s.nodes.keys := by
        rw [← h.seq_keys, JsMap.mem_keys_iff, JsMap.has_eq_false.mp hhas]
        simp
      rw [if_neg Bool.false_ne_true, if_neg hmem, List.zipIdx_append, List.length_append, h.counter]
      refine ⟨?_, rfl⟩
      change JsMap.setList _ _ s.seq.entries = _
      rw [JsMap.setList_new (JsMap.has_eq_false.mp hhas), h.seq, Nat.zero_add]
      rfl

theorem Inv.put (h : Inv s) (node : GraphNode) : Inv (s.put node) where
  ids id n hn := by
    rw [put_nodes, JsMap.get?_set] at hn
    split at hn
    · rename_i hid
      cases hn
      exact hid
    · exact h.ids id n hn
  covered id key hyields := by
    rw [yields_put] at hyields
    rw [mem_put]
    split at hyields
    · rename_i hid
      exact .inr ⟨hid.symm, hyields⟩
    · exact .inl (h.covered id key hyields)
  nodup key := put_nodup (h.nodup key)
  seq := (h.tracked node).1
  counter := (h.tracked node).2

/-! ## A line of the log -/

theorem put_removed (s : State) (node old : GraphNode) (keys : List JsString) :
    ((s.removeFromIndex old keys).put node).nodes = (s.put node).nodes ∧
      ((s.removeFromIndex old keys).put node).seq = (s.put node).seq ∧
      ((s.removeFromIndex old keys).put node).seqCounter = (s.put node).seqCounter := by
  unfold State.put State.addToIndex State.trackSeq State.removeFromIndex
  dsimp only
  split <;> exact ⟨rfl, rfl, rfl⟩

theorem loadLine_new (h : s.nodes.get? node.id = none) : s.loadLine (.update node) = s.put node := by
  simp only [State.loadLine, h]

theorem loadLine_old {oldNode : GraphNode} (h : s.nodes.get? node.id = some oldNode) :
    s.loadLine (.update node) = (s.removeFromIndex oldNode oldNode.indexKeys).put node := by
  simp only [State.loadLine, h]

theorem mem_loadLine_update (h : Inv s) : id' ∈ (s.loadLine (.update node)).idsOf k ↔
    id' ∈ s.idsOf k ∧ ¬(id' = node.id ∧ Yields s node.id k) ∨ id' = node.id ∧ k ∈ node.indexKeys := by
  unfold Yields
  cases hold : s.nodes.get? node.id with
  | none =>
      rw [loadLine_new hold]
      simp [mem_put]
  | some oldNode =>
      rw [loadLine_old hold, mem_put, mem_removeFromIndex, h.ids node.id oldNode hold]
      simp

theorem yields_loadLine_update :
    Yields (s.loadLine (.update node)) id k ↔ if node.id = id then k ∈ node.indexKeys else Yields s id k := by
  rw [← yields_put]
  unfold Yields
  cases hold : s.nodes.get? node.id with
  | none => rw [loadLine_new hold]
  | some oldNode => rw [loadLine_old hold, (put_removed s node oldNode _).1]

theorem Inv.loadLine (h : Inv s) (line : LogLine) : Inv (s.loadLine line) := by
  cases line with
  | malformed => exact h
  | node node => exact h.put node
  | update node =>
      have hcovered : ∀ id key, Yields (s.loadLine (.update node)) id key → id ∈ (s.loadLine (.update node)).idsOf key := by
        intro id key hyields
        rw [yields_loadLine_update] at hyields
        rw [mem_loadLine_update h]
        split at hyields
        · rename_i hid
          exact .inr ⟨hid.symm, hyields⟩
        · rename_i hid
          exact .inl ⟨h.covered id key hyields, fun hsame => hid hsame.1.symm⟩
      cases hold : s.nodes.get? node.id with
      | none =>
          rw [loadLine_new hold]
          exact h.put node
      | some oldNode =>
          rw [loadLine_old hold] at hcovered ⊢
          obtain ⟨hnodes, hseq, hcounter⟩ :=
            put_removed s node oldNode oldNode.indexKeys
          refine ⟨fun id n hn => ?_, hcovered, fun key => put_nodup (removeFromIndex_nodup (h.nodup key)), ?_, ?_⟩
          · rw [hnodes] at hn
            exact (h.put node).ids id n hn
          · rw [hseq, hnodes]
            exact (h.put node).seq
          · rw [hcounter, hnodes]
            exact (h.put node).counter

/-- The id is in the set of a key that the value of the node does not yield. -/
def Stale (s : State) (id key : JsString) : Prop := id ∈ s.idsOf key ∧ ¬Yields s id key

theorem exact_iff_not_stale (h : Inv s) : Exact s ↔ ∀ id key, ¬Stale s id key := by
  constructor
  · rintro hexact id key ⟨hmem, hnot⟩
    exact hnot ((hexact key id).mp hmem)
  · intro hstale key id
    constructor
    · intro hmem
      by_contra hnot
      exact hstale id key ⟨hmem, hnot⟩
    · exact h.covered id key

/-- A line leaves an id behind that was left behind before, or, if it has no `op`, one of the value it replaces. -/
theorem stale_loadLine (h : Inv s) (line : LogLine) : Stale (s.loadLine line) id k ↔
    ¬line.Sets id k ∧ (Stale s id k ∨ ∃ node, line = .node node ∧ node.id = id ∧ Yields s id k) := by
  unfold Stale
  cases line with
  | malformed => simp [State.loadLine, LogLine.Sets]
  | node node =>
      have hcovered := h.covered id k
      rw [State.loadLine, mem_put, yields_put]
      by_cases hid : node.id = id
      · subst hid
        simp only [if_true, LogLine.Sets, true_and, LogLine.node.injEq, exists_eq_left']
        tauto
      · have hid' : ¬ id = node.id := fun he => hid he.symm
        simp [LogLine.Sets, hid, hid']
  | update node =>
      have hcovered := h.covered id k
      rw [mem_loadLine_update h, yields_loadLine_update]
      by_cases hid : node.id = id
      · subst hid
        simp only [if_true, LogLine.Sets, true_and, reduceCtorEq, false_and, exists_false, or_false]
        tauto
      · have hid' : ¬ id = node.id := fun he => hid he.symm
        simp [LogLine.Sets, hid, hid']

/-- After a log the index is exact if and only if every id that was left behind, before or by one of the lines, is set
once more by a value that yields the key. -/
theorem exact_load (h : Inv s) (lines : List LogLine) : Exact (s.load lines) ↔
    (∀ id key, Stale s id key → ∃ l ∈ lines, l.Sets id key) ∧ Covered s lines := by
  induction lines generalizing s with
  | nil =>
      rw [State.load, List.foldl_nil, exact_iff_not_stale h]
      simp [Covered]
  | cons line lines ih =>
      change Exact ((s.loadLine line).load lines) ↔ _
      rw [ih (h.loadLine line), Covered, ← and_assoc]
      refine and_congr_left fun _ => ?_
      constructor
      · intro hlater
        have hset : ∀ id key, (Stale s id key ∨ ∃ node, line = .node node ∧ node.id = id ∧ Yields s id key) →
            ∃ l ∈ line :: lines, l.Sets id key := by
          intro id key hleft
          by_cases hline : line.Sets id key
          · exact ⟨line, List.mem_cons_self, hline⟩
          · obtain ⟨l, hl, hsets⟩ := hlater id key ((stale_loadLine h line).mpr ⟨hline, hleft⟩)
            exact ⟨l, List.mem_cons_of_mem _ hl, hsets⟩
        exact ⟨fun id key hstale => hset id key (.inl hstale),
          fun node hline key hyields => hset node.id key (.inr ⟨node, hline, rfl, hyields⟩)⟩
      · rintro ⟨hstale, hcovered⟩ id key hleft
        obtain ⟨hline, hleft⟩ := (stale_loadLine h line).mp hleft
        have hset : ∃ l ∈ line :: lines, l.Sets id key := by
          rcases hleft with hleft | ⟨node, hnode, rfl, hyields⟩
          · exact hstale id key hleft
          · exact hcovered node hnode key hyields
        obtain ⟨l, hl, hsets⟩ := hset
        rcases List.mem_cons.mp hl with rfl | hl
        · exact absurd hsets hline
        · exact ⟨l, hl, hsets⟩

theorem inv_load (h : Inv s) (lines : List LogLine) : Inv (s.load lines) := by
  induction lines generalizing s with
  | nil => exact h
  | cons line lines ih => exact ih (h.loadLine line)

/-! ## Queries -/

theorem type_mem_indexKeys (node : GraphNode) : js "type:" ++ node.type.name ∈ node.indexKeys :=
  List.mem_eraseDups.mpr List.mem_cons_self

theorem type_of_matches {f : NodeFilter} {type : NodeType} (hf : f.type = some type) (h : node.matchesFilter f = true) :
    node.type = type := by
  unfold GraphNode.matchesFilter at h
  simp only [hf, Option.all_some, Bool.and_eq_true, decide_eq_true_eq] at h
  exact h.1.1.1.1.1.1

theorem seqOf_entry (h : Inv s) {i : Nat} {p : JsString × GraphNode} (hp : s.nodes.entries[i]? = some p) :
    s.seqOf p.2.id = i := by
  have hget : s.nodes.get? p.1 = some p.2 := JsMap.mem_entries_iff.mp (List.mem_of_getElem? hp)
  have hkey : s.nodes.keys[i]? = some p.1 := by rw [JsMap.keys, List.getElem?_map, hp, Option.map_some]
  have hseq : (p.1, i) ∈ s.seq.entries := by
    rw [h.seq]
    exact List.mk_mem_zipIdx_iff_getElem?.mpr hkey
  rw [State.seqOf, h.ids p.1 p.2 hget, JsMap.mem_entries_iff.mp hseq, Option.getD_some]

theorem mem_scan {f : NodeFilter} :
    node ∈ s.scan f ↔ (∃ id, s.nodes.get? id = some node) ∧ node.matchesFilter f = true := by
  unfold State.scan
  simp only [List.mem_filter, List.mem_map, Prod.exists, exists_eq_right, JsMap.mem_entries_iff]

theorem scan_nodup (h : Inv s) (f : NodeFilter) : (s.scan f).Nodup := by
  refine List.Nodup.filter _ (List.Nodup.of_map GraphNode.id ?_)
  have hids : (s.nodes.entries.map Prod.snd).map GraphNode.id = s.nodes.keys := by
    rw [List.map_map, JsMap.keys]
    refine List.map_congr_left fun p hp => ?_
    exact h.ids p.1 p.2 (JsMap.mem_entries_iff.mp hp)
  rw [hids]
  exact s.nodes.nodup

theorem scan_sorted (h : Inv s) (f : NodeFilter) :
    (s.scan f).Pairwise fun a b => decide (s.seqOf a.id ≤ s.seqOf b.id) = true := by
  refine List.Pairwise.filter _ ?_
  rw [List.pairwise_iff_getElem]
  intro i j hi hj hlt
  have hget : ∀ n (hn : n < (s.nodes.entries.map Prod.snd).length),
      s.seqOf ((s.nodes.entries.map Prod.snd)[n]).id = n := by
    intro n hn
    rw [List.length_map] at hn
    rw [List.getElem_map]
    exact seqOf_entry h (List.getElem?_eq_getElem hn)
  rw [hget i hi, hget j hj]
  exact decide_eq_true hlt.le

theorem seqOf_injective (h : Inv s) {a b : GraphNode} (ha : s.nodes.get? id = some a) (hb : s.nodes.get? id' = some b)
    (heq : s.seqOf a.id = s.seqOf b.id) : a = b := by
  obtain ⟨i, hi⟩ := List.mem_iff_getElem?.mp (JsMap.mem_entries_iff.mpr ha)
  obtain ⟨j, hj⟩ := List.mem_iff_getElem?.mp (JsMap.mem_entries_iff.mpr hb)
  have hij : i = j := by rw [← seqOf_entry h hi, ← seqOf_entry h hj, heq]
  rw [hij, hj] at hi
  exact (Prod.ext_iff.mp (Option.some.inj hi)).2.symm

theorem getAll_eq_scan (h : Inv s) (f : NodeFilter) : s.getAll f = s.scan f := by
  unfold State.getAll
  cases hf : f.type with
  | none => rfl
  | some type =>
      dsimp only
      have hmem : ∀ node, node ∈ ((s.idsOf (js "type:" ++ type.name)).filterMap fun id =>
          (s.nodes.get? id).filter fun node => node.matchesFilter f) ↔ node ∈ s.scan f := by
        intro node
        rw [mem_scan, List.mem_filterMap]
        constructor
        · rintro ⟨id, -, hid⟩
          obtain ⟨hnode, hmatches⟩ := Option.filter_eq_some_iff.mp hid
          exact ⟨⟨id, hnode⟩, hmatches⟩
        · rintro ⟨⟨id, hnode⟩, hmatches⟩
          refine ⟨id, ?_, Option.filter_eq_some_iff.mpr ⟨hnode, hmatches⟩⟩
          have hkey := type_mem_indexKeys node
          rw [type_of_matches hf hmatches] at hkey
          exact h.covered id _ ⟨node, hnode, hkey⟩
      have hnodup : ((s.idsOf (js "type:" ++ type.name)).filterMap fun id =>
          (s.nodes.get? id).filter fun node => node.matchesFilter f).Nodup := by
        refine List.Nodup.filterMap (fun id id' node hid hid' => ?_) (h.nodup _)
        rw [← h.ids id node (Option.filter_eq_some_iff.mp hid).1, h.ids id' node (Option.filter_eq_some_iff.mp hid').1]
      have hperm := (List.perm_ext_iff_of_nodup hnodup (scan_nodup h f)).mpr hmem
      refine List.Perm.eq_of_pairwise (fun a b ha hb hab hba => ?_) (List.pairwise_mergeSort ?_ ?_ _)
        (scan_sorted h f) ((List.mergeSort_perm _ _).trans hperm)
      · obtain ⟨⟨id, hida⟩, -⟩ := mem_scan.mp ((hmem a).mp (List.mem_mergeSort.mp ha))
        obtain ⟨⟨id', hidb⟩, -⟩ := mem_scan.mp hb
        exact seqOf_injective h hida hidb (Nat.le_antisymm (of_decide_eq_true hab) (of_decide_eq_true hba))
      · intro a b c hab hbc
        exact decide_eq_true ((of_decide_eq_true hab).trans (of_decide_eq_true hbc))
      · intro a b
        rw [Bool.or_eq_true, decide_eq_true_eq, decide_eq_true_eq]
        exact Nat.le_total _ _

/-! ## Runs -/

/-- An update is, in memory, what `load` makes of its line. -/
theorem update_eq (h : Inv s) {existing : GraphNode} (patch : Fields) (hid : s.nodes.get? id = some existing) :
    s.update id patch = { s.loadLine (.update (existing.patched patch)) with
      pending := s.pending ++ [.update (existing.patched patch)] } := by
  have hpatched : (existing.patched patch).id = id := h.ids id existing hid
  have hseq : s.seq.has id = true := by
    rw [JsMap.has_iff, ← JsMap.mem_keys_iff, h.seq_keys]
    exact JsMap.mem_keys_iff.mpr ⟨existing, hid⟩
  have hput : (s.removeFromIndex existing existing.indexKeys).put (existing.patched patch) =
      ({ s.removeFromIndex existing existing.indexKeys with
        nodes := s.nodes.set id (existing.patched patch) } : State).addToIndex (existing.patched patch)
          (existing.patched patch).indexKeys := by
    rw [State.put, hpatched]
    exact congrArg (fun t : State => t.addToIndex (existing.patched patch) (existing.patched patch).indexKeys)
      (if_pos hseq)
  rw [loadLine_old (hpatched.symm ▸ hid), hput]
  simp only [State.update, hid]
  rfl

theorem inv_step (op : Op) (h : Inv s) : Inv (step s op) := by
  cases op with
  | add node =>
      have hput := h.put node
      exact ⟨hput.ids, hput.covered, hput.nodup, hput.seq, hput.counter⟩
  | update id patch =>
      cases hid : s.nodes.get? id with
      | none =>
          simp only [step, State.update, hid]
          exact h
      | some existing =>
          have hline := h.loadLine (.update (existing.patched patch))
          rw [step, update_eq h patch hid]
          exact ⟨hline.ids, hline.covered, hline.nodup, hline.seq, hline.counter⟩
  | append i =>
      cases hi : s.pending[i]? with
      | none =>
          simp only [step, hi]
          exact h
      | some line =>
          simp only [step, hi]
          exact ⟨h.ids, h.covered, h.nodup, h.seq, h.counter⟩
  | load lines => exact inv_load h _

theorem exact_step (op : Op) (h : Inv s) (hexact : Exact s) : Exact (step s op) ↔ Keeps s op := by
  have hclean := (exact_iff_not_stale h).mp hexact
  have hload : ∀ lines, Exact (s.load lines) ↔ Covered s lines := by
    intro lines
    rw [exact_load h]
    exact and_iff_right fun id key hstale => absurd hstale (hclean id key)
  cases op with
  | add node => exact hload [.node node]
  | update id patch =>
      refine iff_of_true ?_ trivial
      cases hid : s.nodes.get? id with
      | none =>
          simp only [step, State.update, hid]
          exact hexact
      | some existing =>
          rw [step, update_eq h patch hid]
          refine (hload [.update (existing.patched patch)]).mpr ⟨fun node hnode => ?_, trivial⟩
          cases hnode
  | append i =>
      refine iff_of_true ?_ trivial
      cases hi : s.pending[i]? with
      | none =>
          simp only [step, hi]
          exact hexact
      | some line =>
          simp only [step, hi]
          exact hexact
  | load lines => exact hload _

theorem inv_start (content : List LogLine) : Inv (start content) where
  ids id node h := by cases h
  covered id key h := by
    obtain ⟨node, hnode, -⟩ := h
    cases hnode
  nodup key := List.nodup_nil
  seq := rfl
  counter := rfl

theorem exact_start (content : List LogLine) : Exact (start content) := by
  intro key id
  constructor
  · intro h
    cases h
  · rintro ⟨node, hnode, -⟩
    cases hnode

/-- **The index is exact** in every state of a run, and its queries are those of the scan, if and only if no step
replaces a value whose keys would stay. -/
theorem indexed_iff (content : List LogLine) (ops : List Op) :
    (∀ pre, pre <+: ops → Indexed (run step (start content) pre)) ↔ Under step Keeps (start content) ops := by
  have hindexed : ∀ pre, Indexed (run step (start content) pre) ↔ Exact (run step (start content) pre) := by
    intro pre
    have hinv : Inv (run step (start content) pre) := run_invariant (fun _ op => inv_step op) (inv_start content) pre
    exact ⟨fun h => h.exact, fun h => ⟨getAll_eq_scan hinv, h⟩⟩
  simp only [hindexed]
  exact forall_prefix_iff_under (fun _ op => inv_step op) (fun _ op => exact_step op) (inv_start content)
    (exact_start content) ops

/-- In every run a query finds by the index what a scan of all nodes finds. -/
theorem queries_run (content : List LogLine) (ops : List Op) (f : NodeFilter) :
    (run step (start content) ops).getAll f = (run step (start content) ops).scan f :=
  getAll_eq_scan (run_invariant (fun _ op => inv_step op) (inv_start content) ops) f

/-- A goal as it is posted. -/
def posted : GraphNode where
  id := js "g"
  type := .goal
  fields := { status := some (js "pending"), priority := some (js "low"), tags := some [] }
  complete := rfl

/-- The log is read again while the line of an update still waits. -/
def reloaded : List Op :=
  [.add posted, .append 0, .update (js "g") { status := some (js "done") }, .load 1]

theorem reloaded_stale : ¬ ∀ pre, pre <+: reloaded → Indexed (run step (start []) pre) := by
  intro h
  have hexact := (h reloaded (List.prefix_refl _)).exact (js "status:done") (js "g")
  have hmem : js "g" ∈ (run step (start []) reloaded).idsOf (js "status:done") := by decide +kernel
  obtain ⟨node, hnode, hkey⟩ := hexact.mp hmem
  have hkeys : ((run step (start []) reloaded).nodes.get? (js "g")).all
      (fun node => !node.indexKeys.contains (js "status:done")) = true := by decide +kernel
  rw [hnode, Option.all_some] at hkeys
  simp [hkey] at hkeys

end

end WrongStack.GraphIndex
