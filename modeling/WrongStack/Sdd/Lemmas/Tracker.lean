import WrongStack.Sdd.TaskTracker

/-!
# What each operation does to statuses and edges
-/

namespace WrongStack.Sdd

open Lib TaskGraph

variable {g : TaskGraph} {t : TaskTracker} {id x : TaskId}

/-! ## Edges -/

theorem mem_getBlockers {b : TaskId} :
    b ∈ g.getBlockers id ↔ ∃ e ∈ g.edges, e.src = b ∧ e.tgt = id ∧ e.type = .dependsOn := by
  simp [getBlockers]
  tauto

theorem mem_getDependents {d : TaskId} : d ∈ g.getDependents id ↔ id ∈ g.getBlockers d := by
  simp [getDependents, getBlockers]
  tauto

theorem mem_successors {d : TaskId} : d ∈ g.successors id ↔ ∃ e ∈ g.edges, e.src = id ∧ e.tgt = d := by
  simp [successors]
  tauto

theorem getBlockers_addEdge {dep task : TaskId} :
    (g.addEdge dep task .dependsOn).getBlockers id =
      if id = task then g.getBlockers id ++ [dep] else g.getBlockers id := by
  unfold getBlockers addEdge
  rw [List.filter_append, List.map_append]
  by_cases h : id = task
  · simp [h]
  · simp [h, Ne.symm h]

theorem getBlockers_removeNode {b : TaskId} :
    b ∈ (g.removeNode id).1.getBlockers x ↔
      b ∈ g.getBlockers x ∧ (g.nodes.has id = true → b ≠ id ∧ x ≠ id) := by
  unfold removeNode
  split
  · rename_i hhas
    simp only [mem_getBlockers, List.mem_filter, hhas, forall_const, bne_iff_ne, Bool.and_eq_true]
    constructor
    · rintro ⟨e, ⟨he, hs, ht⟩, rfl, rfl, hk⟩
      exact ⟨⟨e, he, rfl, rfl, hk⟩, hs, ht⟩
    · rintro ⟨⟨e, he, rfl, rfl, hk⟩, hs, ht⟩
      exact ⟨e, ⟨he, hs, ht⟩, rfl, rfl, hk⟩
  · rename_i hhas
    simp [hhas]

/-- The walk decides whether one task waits for another. -/
theorem dependsOnTransitively_iff {task target : TaskId} :
    g.dependsOnTransitively task target = true ↔ Reaches g.getBlockers task target := by
  have hkeys : ∀ x, g.getBlockers x ≠ [] → x ∈ g.edges.map TaskEdge.tgt := by
    intro x hx
    obtain ⟨b, hb⟩ := List.exists_mem_of_ne_nil _ hx
    obtain ⟨e, he, -, rfl, -⟩ := mem_getBlockers.mp hb
    exact List.mem_map_of_mem he
  exact search_iff hkeys (by simp)

/-! ## Statuses -/

theorem has_iff_statusOf : g.nodes.has id = true ↔ ∃ s, g.statusOf id = some s := by
  simp [JsMap.has_iff, statusOf]

theorem statusOf_setStatus (status : TaskStatus) :
    (g.setStatus id status).statusOf x =
      if id = x then (g.statusOf x).map fun _ => status else g.statusOf x := by
  unfold statusOf setStatus
  rw [JsMap.get?_modify]
  split
  · simp only [Option.map_map]
    rfl
  · rfl

theorem has_setStatus (status : TaskStatus) : (g.setStatus id status).nodes.has x = g.nodes.has x := by
  rw [Bool.eq_iff_iff, has_iff_statusOf, has_iff_statusOf, statusOf_setStatus]
  split
  · cases g.statusOf x <;> simp
  · rfl

theorem finished_setStatus (status : TaskStatus) :
    (g.setStatus id status).finished x = if id = x
      then g.nodes.has x && (status == .completed || status == .failed) else g.finished x := by
  unfold finished
  rw [statusOf_setStatus]
  by_cases h : id = x
  · subst h
    cases hs : g.statusOf id with
    | none =>
        have hhas : g.nodes.has id = false := by
          rw [← Bool.not_eq_true, has_iff_statusOf, hs]
          simp
        simp [hhas]
    | some s =>
        have hhas : g.nodes.has id = true := has_iff_statusOf.mpr ⟨s, hs⟩
        simp [hhas]
  · simp [h]

/-- A change of statuses alone, which adds and removes no node. -/
structure SameShape (g g' : TaskGraph) : Prop where
  has : ∀ id, g'.nodes.has id = g.nodes.has id
  edges : g'.edges = g.edges
  rootNodes : g'.rootNodes = g.rootNodes

theorem SameShape.refl (g : TaskGraph) : SameShape g g := ⟨fun _ => rfl, rfl, rfl⟩

theorem SameShape.trans {g₁ g₂ g₃ : TaskGraph} (h : SameShape g₁ g₂) (h' : SameShape g₂ g₃) :
    SameShape g₁ g₃ :=
  ⟨fun id => (h'.has id).trans (h.has id), h'.edges.trans h.edges, h'.rootNodes.trans h.rootNodes⟩

theorem SameShape.getBlockers {g' : TaskGraph} (h : SameShape g g') :
    g'.getBlockers = g.getBlockers := by
  unfold TaskGraph.getBlockers
  rw [h.edges]

theorem sameShape_setStatus (g : TaskGraph) (id : TaskId) (status : TaskStatus) :
    SameShape g (g.setStatus id status) :=
  ⟨fun _ => has_setStatus status, rfl, rfl⟩

theorem sameShape_checkAndBlock (g : TaskGraph) (id : TaskId) :
    SameShape g (g.checkAndBlockIfNeeded id) := by
  unfold checkAndBlockIfNeeded
  split
  · exact sameShape_setStatus g id .blocked
  · exact SameShape.refl g

/-- A blocked dependent that can start becomes pending, which finishes no one. -/
theorem statusOf_foldl_unblock (l : List TaskId) (g : TaskGraph) :
    let g' := l.foldl (fun g depId =>
      if g.statusOf depId = some .blocked ∧ g.canStart depId = true then g.setStatus depId .pending
      else g) g
    SameShape g g' ∧ (∀ x, g'.finished x = g.finished x) ∧
      ∀ x, g'.statusOf x = if x ∈ l ∧ g.statusOf x = some .blocked ∧ g.canStart x = true
        then some .pending else g.statusOf x := by
  induction l generalizing g with
  | nil => exact ⟨SameShape.refl g, fun _ => rfl, by simp⟩
  | cons d l ih =>
      simp only [List.foldl_cons]
      split
      · rename_i hd
        obtain ⟨hshape, hfin, hstatus⟩ := ih (g.setStatus d .pending)
        have hfinished : ∀ x, (g.setStatus d .pending).finished x = g.finished x := by
          intro x
          rw [finished_setStatus]
          split
          · rename_i hx
            subst hx
            simp only [finished, hd.1]
            exact Bool.and_false _
          · rfl
        have hcan : ∀ x, (g.setStatus d .pending).canStart x = g.canStart x := by
          intro x
          unfold canStart
          rw [(sameShape_setStatus g d .pending).getBlockers]
          exact congrArg (fun f => (g.getBlockers x).all f) (funext hfinished)
        refine ⟨(sameShape_setStatus g d .pending).trans hshape,
          fun x => (hfin x).trans (hfinished x), fun x => ?_⟩
        rw [hstatus, hcan, statusOf_setStatus]
        by_cases hx : d = x
        · subst hx
          simp [hd.1, hd.2]
        · simp [hx, Ne.symm hx]
      · rename_i hd
        obtain ⟨hshape, hfin, hstatus⟩ := ih g
        refine ⟨hshape, hfin, fun x => ?_⟩
        rw [hstatus]
        by_cases hx : d = x
        · subst hx
          simp only [hd, and_false, ↓reduceIte]
        · simp [Ne.symm hx]

/-! ## Well-formed graphs -/

/-- What holds of the graph of a tracker after any calls. -/
structure Wf (t : TaskTracker) : Prop where
  ends : ∀ e ∈ t.graph.edges, t.graph.nodes.has e.src = true ∧ t.graph.nodes.has e.tgt = true
  kind : ∀ e ∈ t.graph.edges, e.type = .dependsOn
  acyclic : Acyclic t.graph.getBlockers
  roots : ∀ r ∈ t.graph.rootNodes, t.graph.nodes.has r = true
  fresh : ∀ id, t.graph.nodes.has id = true → id < t.nextId

theorem wf_init : Wf {} where
  ends := fun _ he => absurd he List.not_mem_nil
  kind := fun _ he => absurd he List.not_mem_nil
  acyclic := fun _ _ hb => absurd hb List.not_mem_nil
  roots := fun _ hr => absurd hr List.not_mem_nil
  fresh := fun id h => by
    have hget : (({} : TaskTracker).graph.nodes.get? id) = none := rfl
    simp [JsMap.has, hget] at h

theorem Wf.sameShape (h : Wf t) {t' : TaskTracker} (hs : SameShape t.graph t'.graph)
    (hn : t'.nextId = t.nextId) : Wf t' where
  ends := fun e he => by
    rw [hs.edges] at he
    exact ⟨(hs.has _).trans (h.ends e he).1, (hs.has _).trans (h.ends e he).2⟩
  kind := fun e he => h.kind e (hs.edges ▸ he)
  acyclic := by
    rw [hs.getBlockers]
    exact h.acyclic
  roots := fun r hr => (hs.has r).trans (h.roots r (hs.rootNodes ▸ hr))
  fresh := fun id hid => hn ▸ h.fresh id ((hs.has id).symm.trans hid)

theorem has_addNode (node : NodeSpec) :
    (t.addNode node).graph.nodes.has x = (decide (t.nextId = x) || t.graph.nodes.has x) := by
  simp only [TaskTracker.addNode, JsMap.has, JsMap.get?_set]
  by_cases h : t.nextId = x <;> simp [h]

theorem Wf.addNode (h : Wf t) (node : NodeSpec) : Wf (t.addNode node) where
  ends := fun e he => by
    simp only [has_addNode, (h.ends e he).1, (h.ends e he).2, Bool.or_true, and_self]
  kind := h.kind
  acyclic := h.acyclic
  roots := fun r hr => by
    rw [has_addNode]
    have hcases : r ∈ t.graph.rootNodes ∨ r = t.nextId := by
      simp only [TaskTracker.addNode] at hr
      split at hr
      · simpa using hr
      · exact Or.inl hr
    rcases hcases with hr | rfl
    · rw [h.roots r hr, Bool.or_true]
    · simp
  fresh := fun id hid => by
    rw [has_addNode] at hid
    simp only [Bool.or_eq_true, decide_eq_true_eq] at hid
    change id < t.nextId + 1
    rcases hid with rfl | hid
    · exact Nat.lt_succ_self _
    · exact Nat.lt_succ_of_lt (h.fresh id hid)

theorem addDependency_cases (g : TaskGraph) (dep task : TaskId) :
    ((g.addDependency dep task).1 = g ∧ (g.addDependency dep task).2 = false ∧
      (dep = task ∨ g.nodes.has dep = false ∨ g.nodes.has task = false ∨ dep ∉ g.getBlockers task)) ∨
    (dep ≠ task ∧ g.nodes.has dep = true ∧ g.nodes.has task = true ∧
      g.addDependency dep task = (g, true) ∧ dep ∈ g.getBlockers task) ∨
    (dep ≠ task ∧ g.nodes.has dep = true ∧ g.nodes.has task = true ∧
      g.addDependency dep task = (g.addEdge dep task .dependsOn, true) ∧
      ¬ Reaches g.getBlockers dep task) := by
  unfold addDependency
  split
  · rename_i hne
    exact Or.inl ⟨rfl, rfl, Or.inl hne⟩
  · rename_i hne
    split
    · rename_i hmissing
      simp only [Bool.or_eq_true, Bool.not_eq_eq_eq_not, Bool.not_true] at hmissing
      exact Or.inl ⟨rfl, rfl, Or.inr (by tauto)⟩
    · rename_i hpresent
      simp only [Bool.or_eq_true, Bool.not_eq_eq_eq_not, Bool.not_true, not_or, Bool.not_eq_false]
        at hpresent
      split
      · rename_i hmem
        exact Or.inr (Or.inl ⟨hne, hpresent.1, hpresent.2, rfl, hmem⟩)
      · rename_i hmem
        split
        · exact Or.inl ⟨rfl, rfl, Or.inr (Or.inr (Or.inr hmem))⟩
        · rename_i hdep
          exact Or.inr (Or.inr ⟨hne, hpresent.1, hpresent.2, rfl,
            fun hr => hdep (dependsOnTransitively_iff.mpr hr)⟩)

theorem Wf.addDependency (h : Wf t) (dep task : TaskId) :
    Wf { t with graph := (t.graph.addDependency dep task).1 } := by
  rcases addDependency_cases t.graph dep task with ⟨heq, -⟩ | ⟨-, -, -, heq, -⟩ |
    ⟨-, hdep, htask, heq, hr⟩
  · rw [heq]
    exact h
  · rw [heq]
    exact h
  · rw [heq]
    refine ⟨fun e he => ?_, fun e he => ?_, ?_, h.roots, h.fresh⟩
    · rcases List.mem_append.mp he with he | he
      · exact h.ends e he
      · obtain rfl := List.mem_singleton.mp he
        exact ⟨hdep, htask⟩
    · rcases List.mem_append.mp he with he | he
      · exact h.kind e he
      · obtain rfl := List.mem_singleton.mp he
        rfl
    · refine h.acyclic.add_edge (fun a b hb => ?_) hr
      change b ∈ (t.graph.addEdge dep task .dependsOn).getBlockers a at hb
      rw [getBlockers_addEdge] at hb
      split at hb
      · rename_i ha
        rcases List.mem_append.mp hb with hb | hb
        · exact Or.inl hb
        · exact Or.inr ⟨ha, List.mem_singleton.mp hb⟩
      · exact Or.inl hb

theorem statusOf_removeNode (hid : g.nodes.has id = true) :
    (g.removeNode id).1.statusOf x = if id = x then none else g.statusOf x := by
  unfold removeNode statusOf
  rw [if_pos hid]
  refine (JsMap.map_get?_foldl_modify ?_ _ _ _).trans ?_
  · exact fun _ => rfl
  · rw [JsMap.get?_delete]
    split <;> rfl

theorem has_removeNode (hid : g.nodes.has id = true) :
    (g.removeNode id).1.nodes.has x = (decide (id ≠ x) && g.nodes.has x) := by
  rw [Bool.eq_iff_iff, has_iff_statusOf, statusOf_removeNode hid, Bool.and_eq_true, has_iff_statusOf]
  by_cases h : id = x <;> simp [h]

theorem Wf.removeNode (h : Wf t) (id : TaskId) : Wf { t with graph := (t.graph.removeNode id).1 } := by
  by_cases hid : t.graph.nodes.has id = true
  · have hedges : (t.graph.removeNode id).1.edges =
        t.graph.edges.filter fun e => e.src != id && e.tgt != id := by
      simp [TaskGraph.removeNode, hid]
    have hroots : (t.graph.removeNode id).1.rootNodes = t.graph.rootNodes.filter fun r => r != id := by
      simp [TaskGraph.removeNode, hid]
    refine ⟨fun e he => ?_, fun e he => ?_, ?_, fun r hr => ?_, fun x hx => ?_⟩
    · simp only [hedges, List.mem_filter, Bool.and_eq_true, bne_iff_ne] at he
      simp only [has_removeNode hid, (h.ends e he.1).1, (h.ends e he.1).2, Bool.and_true,
        decide_eq_true_eq]
      exact ⟨Ne.symm he.2.1, Ne.symm he.2.2⟩
    · simp only [hedges, List.mem_filter] at he
      exact h.kind e he.1
    · exact h.acyclic.mono fun a b hb => (getBlockers_removeNode.mp hb).1
    · simp only [hroots, List.mem_filter, bne_iff_ne] at hr
      simp only [has_removeNode hid, h.roots r hr.1, Bool.and_true, decide_eq_true_eq]
      exact Ne.symm hr.2
    · simp only [has_removeNode hid, Bool.and_eq_true] at hx
      exact h.fresh x hx.2
  · have heq : (t.graph.removeNode id).1 = t.graph := by simp [TaskGraph.removeNode, hid]
    rw [heq]
    exact h

/-- A status update changes the node, then frees its dependents or blocks the node itself. -/
theorem step_updateNodeStatus (t : TaskTracker) (id : TaskId) (status : TaskStatus) (reason : Option String) :
    (t.graph.nodes.has id = false ∧ step t (.updateNodeStatus id status reason) = t) ∨
    (t.graph.nodes.has id = true ∧ ∃ transitions, step t (.updateNodeStatus id status reason) =
      { t with transitions, graph :=
          if status = .completed then (t.graph.setStatus id status).unblockDependents id
          else if status = .inProgress then (t.graph.setStatus id status).checkAndBlockIfNeeded id
          else t.graph.setStatus id status }) := by
  simp only [step, TaskTracker.updateNodeStatus]
  split
  · rename_i hget
    exact Or.inl ⟨JsMap.has_eq_false.mpr hget, rfl⟩
  · rename_i node hget
    refine Or.inr ⟨JsMap.has_iff.mpr ⟨node, hget⟩,
      t.transitions ++ [{ src := node.status, tgt := status, reason }], ?_⟩
    cases status <;> rfl

theorem sameShape_unblockDependents (g : TaskGraph) (id : TaskId) :
    SameShape g (g.unblockDependents id) :=
  (statusOf_foldl_unblock (g.getDependents id) g).1

theorem Wf.step (h : Wf t) (op : Op) : Wf (step t op) := by
  cases op with
  | addNode node => exact h.addNode node
  | addDependency dep task => exact h.addDependency dep task
  | updateNodeStatus id status reason =>
      rcases step_updateNodeStatus t id status reason with ⟨-, heq⟩ | ⟨-, _, heq⟩
      · rw [heq]
        exact h
      · rw [heq]
        have hset := sameShape_setStatus t.graph id status
        refine h.sameShape ?_ rfl
        split
        · exact hset.trans (sameShape_unblockDependents _ id)
        · split
          · exact hset.trans (sameShape_checkAndBlock _ id)
          · exact hset
  | removeNode id => exact h.removeNode id

end WrongStack.Sdd

/-!
# Who stays blocked

A history variable `moved` lists the nodes that the tracker itself has moved to `blocked` and whose
status nobody has written since.
-/

namespace WrongStack.Sdd

open Lib TaskGraph

variable {g : TaskGraph} {t : TaskTracker} {moved : List TaskId} {id x : TaskId}

def movedToBlocked (moved : List TaskId) (t : TaskTracker) (op : Op) : List TaskId :=
  match op with
  | .updateNodeStatus id status _ =>
      let others := moved.filter fun n => n != id
      if status = .inProgress ∧ (step t op).graph.statusOf id = some .blocked then id :: others
      else others
  | .removeNode id => moved.filter fun n => n != id
  | _ => moved

def NoneStranded (g : TaskGraph) (moved : List TaskId) : Prop :=
  ∀ n ∈ moved, g.statusOf n = some .blocked → g.canStart n = false

/-- Every node of `moved` that waits for `id` waits for another unfinished blocker too. -/
def NoneWaitsOnlyFor (g : TaskGraph) (moved : List TaskId) (id : TaskId) : Prop :=
  g.nodes.has id = true → ∀ n ∈ moved, n ≠ id → g.statusOf n = some .blocked →
    ∃ b ∈ g.getBlockers n, b ≠ id ∧ g.finished b = false

theorem canStart_eq_false : g.canStart x = false ↔ ∃ b ∈ g.getBlockers x, g.finished b = false := by
  simp [canStart]

/-- Nobody is stranded by a change that finishes no one and takes no blocker away. -/
theorem NoneStranded.mono {g' : TaskGraph} {moved' : List TaskId} (h : NoneStranded g moved)
    (hmoved : ∀ n ∈ moved', g'.statusOf n = some .blocked → n ∈ moved ∧ g.statusOf n = some .blocked)
    (hblockers : ∀ n, ∀ b ∈ g.getBlockers n, b ∈ g'.getBlockers n)
    (hfinished : ∀ n, ∀ b ∈ g.getBlockers n, g.finished b = false → g'.finished b = false) :
    NoneStranded g' moved' := by
  intro n hn hs
  obtain ⟨hm, hs'⟩ := hmoved n hn hs
  obtain ⟨b, hb, hf⟩ := canStart_eq_false.mp (h n hm hs')
  exact canStart_eq_false.mpr ⟨b, hblockers n b hb, hfinished n b hb hf⟩

theorem NoneStranded.addNode (h : NoneStranded t.graph moved) (hwf : Wf t)
    (hin : ∀ n ∈ moved, t.graph.nodes.has n = true) (node : NodeSpec) :
    NoneStranded (t.addNode node).graph moved := by
  have hold : ∀ n, t.graph.nodes.has n = true →
      (t.addNode node).graph.statusOf n = t.graph.statusOf n := by
    intro n hn
    have hne : ¬ t.nextId = n := (hwf.fresh n hn).ne'
    simp only [TaskTracker.addNode, statusOf, JsMap.get?_set, hne, ↓reduceIte]
  refine h.mono (fun n hn hs => ⟨hn, (hold n (hin n hn)).symm.trans hs⟩) (fun n b hb => hb) ?_
  intro n b hb hf
  obtain ⟨e, he, rfl, -, -⟩ := mem_getBlockers.mp hb
  unfold finished at hf ⊢
  rw [hold _ (hwf.ends e he).1]
  exact hf

theorem NoneStranded.addDependency (h : NoneStranded g moved) (dep task : TaskId) :
    NoneStranded (g.addDependency dep task).1 moved := by
  rcases addDependency_cases g dep task with ⟨heq, -⟩ | ⟨-, -, -, heq, -⟩ | ⟨-, -, -, heq, -⟩
  · rw [heq]
    exact h
  · rw [heq]
    exact h
  · rw [heq]
    refine h.mono (fun n hn hs => ⟨hn, hs⟩) (fun n b hb => ?_) fun n b hb hf => hf
    rw [getBlockers_addEdge]
    split
    · exact List.mem_append_left _ hb
    · exact hb

theorem removeNode_strands (hid : g.nodes.has id = true) :
    NoneStranded (g.removeNode id).1 (moved.filter fun n => n != id) ↔ NoneWaitsOnlyFor g moved id := by
  have hfinished : ∀ b, b ≠ id → (g.removeNode id).1.finished b = g.finished b := by
    intro b hb
    unfold finished
    rw [statusOf_removeNode hid, if_neg (Ne.symm hb)]
  constructor
  · intro hg _ n hn hne hs
    have hs' : (g.removeNode id).1.statusOf n = some .blocked := by
      rw [statusOf_removeNode hid, if_neg (Ne.symm hne), hs]
    obtain ⟨b, hb, hf⟩ := canStart_eq_false.mp (hg n (by simp [hn, hne]) hs')
    obtain ⟨hb, hbid⟩ := getBlockers_removeNode.mp hb
    exact ⟨b, hb, (hbid hid).1, (hfinished b (hbid hid).1).symm.trans hf⟩
  · intro hg n hn hs
    simp only [List.mem_filter, bne_iff_ne] at hn
    rw [statusOf_removeNode hid, if_neg (Ne.symm hn.2)] at hs
    obtain ⟨b, hb, hbid, hf⟩ := hg hid n hn.1 hn.2 hs
    exact canStart_eq_false.mpr ⟨b, getBlockers_removeNode.mpr ⟨hb, fun _ => ⟨hbid, hn.2⟩⟩,
      (hfinished b hbid).trans hf⟩

/-- The status of `id` is written: what that does to the others. -/
theorem noneStranded_setStatus (h : NoneStranded g moved) (status : TaskStatus)
    (hunfinished : status ≠ .completed ∧ status ≠ .failed) :
    NoneStranded (g.setStatus id status) (moved.filter fun n => n != id) := by
  refine h.mono (fun n hn hs => ?_) (fun n b hb => hb) fun n b _ hf => ?_
  · simp only [List.mem_filter, bne_iff_ne] at hn
    rw [statusOf_setStatus, if_neg (Ne.symm hn.2)] at hs
    exact ⟨hn.1, hs⟩
  · rw [finished_setStatus]
    split
    · simp [hunfinished]
    · exact hf

theorem setStatus_failed_strands (hid : g.nodes.has id = true) :
    NoneStranded (g.setStatus id .failed) (moved.filter fun n => n != id) ↔
      NoneWaitsOnlyFor g moved id := by
  constructor
  · intro hg _ n hn hne hs
    have hs' : (g.setStatus id .failed).statusOf n = some .blocked := by
      rw [statusOf_setStatus, if_neg (Ne.symm hne), hs]
    obtain ⟨b, hb, hf⟩ := canStart_eq_false.mp (hg n (by simp [hn, hne]) hs')
    rw [finished_setStatus] at hf
    split at hf
    · rename_i hb
      subst hb
      simp [hid] at hf
    · rename_i hne
      exact ⟨b, hb, Ne.symm hne, hf⟩
  · intro hg n hn hs
    simp only [List.mem_filter, bne_iff_ne] at hn
    rw [statusOf_setStatus, if_neg (Ne.symm hn.2)] at hs
    obtain ⟨b, hb, hbid, hf⟩ := hg hid n hn.1 hn.2 hs
    refine canStart_eq_false.mpr ⟨b, hb, ?_⟩
    rw [finished_setStatus, if_neg (Ne.symm hbid)]
    exact hf

/-- A completion goes over all who wait for the node. -/
theorem NoneStranded.unblockDependents (h : NoneStranded g moved) :
    NoneStranded ((g.setStatus id .completed).unblockDependents id)
      (moved.filter fun n => n != id) := by
  obtain ⟨hshape, hfin, hstatus⟩ := statusOf_foldl_unblock
    ((g.setStatus id .completed).getDependents id) (g.setStatus id .completed)
  intro n hn hs
  simp only [List.mem_filter, bne_iff_ne] at hn
  rw [TaskGraph.unblockDependents, hstatus] at hs
  split at hs
  · cases hs
  · rename_i hnot
    have hs' : g.statusOf n = some .blocked := by
      rw [← hs, statusOf_setStatus, if_neg (Ne.symm hn.2)]
    have hcan : (g.setStatus id .completed).canStart n = false := by
      by_cases hdep : id ∈ g.getBlockers n
      · rw [← Bool.not_eq_true]
        exact fun hc => hnot ⟨mem_getDependents.mpr hdep, hs, hc⟩
      · obtain ⟨b, hb, hf⟩ := canStart_eq_false.mp (h n hn.1 hs')
        have hbid : id ≠ b := fun e => hdep (e ▸ hb)
        exact canStart_eq_false.mpr ⟨b, hb, by rw [finished_setStatus, if_neg hbid, hf]⟩
    obtain ⟨b, hb, hf⟩ := canStart_eq_false.mp hcan
    exact canStart_eq_false.mpr ⟨b, hshape.getBlockers ▸ hb, (hfin b).trans hf⟩

/-- A node that is started too early is blocked by one that is still unfinished. -/
theorem NoneStranded.checkAndBlock (h : NoneStranded g moved) (hid : g.nodes.has id = true) :
    let g' := (g.setStatus id .inProgress).checkAndBlockIfNeeded id
    NoneStranded g' (if g'.statusOf id = some .blocked then id :: moved.filter fun n => n != id
      else moved.filter fun n => n != id) := by
  have hset : NoneStranded (g.setStatus id .inProgress) (moved.filter fun n => n != id) :=
    noneStranded_setStatus h .inProgress (by simp)
  obtain ⟨s, hs⟩ := has_iff_statusOf.mp hid
  intro g'
  have hg' : g' = (g.setStatus id .inProgress).checkAndBlockIfNeeded id := rfl
  unfold checkAndBlockIfNeeded at hg'
  split at hg'
  · rename_i hany
    simp only [List.any_eq_true, Bool.not_eq_eq_eq_not, Bool.not_true] at hany
    obtain ⟨b, hb, hf⟩ := hany
    have hblocked : g'.statusOf id = some .blocked := by
      rw [hg', statusOf_setStatus, statusOf_setStatus, hs]
      simp
    rw [if_pos hblocked]
    have hfinished : ∀ b, (g.setStatus id .inProgress).finished b = false → g'.finished b = false := by
      intro b hf
      rw [hg', finished_setStatus]
      split
      · simp
      · exact hf
    intro n hn hsn
    rcases List.mem_cons.mp hn with rfl | hn
    · exact canStart_eq_false.mpr ⟨b, hg' ▸ hb, hfinished b hf⟩
    · have hne : n ≠ id := by simpa using (List.mem_filter.mp hn).2
      have hsn' : (g.setStatus id .inProgress).statusOf n = some .blocked := by
        rw [hg', statusOf_setStatus, if_neg (Ne.symm hne)] at hsn
        exact hsn
      obtain ⟨b, hb, hf⟩ := canStart_eq_false.mp (hset n hn hsn')
      exact canStart_eq_false.mpr ⟨b, hg' ▸ hb, hfinished b hf⟩
  · have hnot : ¬ g'.statusOf id = some .blocked := by
      rw [hg', statusOf_setStatus, hs]
      simp
    rw [if_neg hnot, hg']
    exact hset

end WrongStack.Sdd

/-!
# What the analysis reads

The execution order is the post-order walk of `Lib.visit` along all edges from the roots; the ready
tasks are read off the map that `addBlockedBy` fills.
-/

namespace WrongStack.Sdd

open Lib TaskGraph

variable {g : TaskGraph} {t : TaskTracker} {id : TaskId}

/-! ## The walk -/

theorem foldl_visit_eq (fuel : Nat) (inStack xs : List TaskId)
    (hgo : ∀ x ∈ xs, ∀ st, inStack ⊆ st.1 → g.visit fuel inStack x st = Lib.visit g.successors fuel x st)
    {st : List TaskId × List TaskId} (hst : inStack ⊆ st.1) :
    xs.foldl (fun st x => g.visit fuel inStack x st) st =
      xs.foldl (fun st x => Lib.visit g.successors fuel x st) st := by
  induction xs generalizing st with
  | nil => rfl
  | cons x xs ih =>
      rw [List.foldl_cons, List.foldl_cons, hgo x List.mem_cons_self st hst]
      exact ih (fun y hy => hgo y (List.mem_cons_of_mem x hy))
        (List.Subset.trans hst (visit_mono fuel x st))

/-- Where the edges end in the graph, the tests on `inStack` and on the node never decide. -/
theorem visit_eq (hends : ∀ e ∈ g.edges, g.nodes.has e.tgt = true) {fuel : Nat} {inStack : List TaskId}
    {st : List TaskId × List TaskId} (hid : g.nodes.has id = true) (hst : inStack ⊆ st.1) :
    g.visit fuel inStack id st = Lib.visit g.successors fuel id st := by
  induction fuel generalizing inStack id st with
  | zero => rfl
  | succ fuel ih =>
      rw [TaskGraph.visit, Lib.visit]
      by_cases hv : id ∈ st.1
      · simp [hv]
      · have hs : id ∉ inStack := fun h => hv (hst h)
        have hstack : id :: inStack ⊆ (id :: st.1, st.2).1 := List.cons_subset_cons id hst
        have hfold := foldl_visit_eq fuel (id :: inStack) (g.successors id)
          (fun x hx st hst => by
            obtain ⟨e, he, -, rfl⟩ := mem_successors.mp hx
            exact ih (hends e he) hst) hstack
        simp only [hs, hv, hid, Bool.not_true, Bool.false_eq_true, ↓reduceIte, hfold]

theorem Wf.mem_topologicalSort (h : Wf t) :
    id ∈ t.graph.topologicalSort ↔ ∃ r ∈ t.graph.rootNodes, Reaches t.graph.successors r id := by
  have hkeys : ∀ x, t.graph.successors x ≠ [] → x ∈ t.graph.nodes.keys := by
    intro x hx
    obtain ⟨d, hd⟩ := List.exists_mem_of_ne_nil _ hx
    obtain ⟨e, he, rfl, -⟩ := mem_successors.mp hd
    exact JsMap.mem_keys_iff.mpr (JsMap.has_iff.mp (h.ends e he).1)
  have hfuel : t.graph.nodes.keys.length < t.graph.nodes.size + 1 := by
    simp [JsMap.keys, JsMap.size]
  have hwalk : ∀ (roots : List TaskId) (st : List TaskId × List TaskId),
      (∀ r ∈ roots, t.graph.nodes.has r = true) →
      roots.foldl (fun st rootId => t.graph.visit (t.graph.nodes.size + 1) [] rootId st) st =
        roots.foldl (fun st rootId => Lib.visit t.graph.successors (t.graph.nodes.size + 1) rootId st) st := by
    intro roots st hroots
    exact foldl_visit_eq _ [] roots
      (fun x hx st hst => visit_eq (fun e he => (h.ends e he).2) (hroots x hx) hst) (List.nil_subset _)
  rw [topologicalSort, hwalk _ _ h.roots]
  exact mem_foldl_visit_iff hkeys hfuel

/-! ## The map of the blockers -/

theorem mem_foldl_addBlockedBy (es : List TaskEdge) (m : JsMap TaskId (List TaskId)) (b : TaskId) :
    b ∈ ((es.foldl addBlockedBy m).get? id).getD [] ↔
      b ∈ (m.get? id).getD [] ∨ ∃ e ∈ es, e.src = id ∧ e.tgt = b ∧ e.type = .dependsOn := by
  induction es generalizing m with
  | nil => simp
  | cons e es ih =>
      rw [List.foldl_cons, ih]
      have hstep : b ∈ ((addBlockedBy m e).get? id).getD [] ↔
          b ∈ (m.get? id).getD [] ∨ (e.src = id ∧ e.tgt = b ∧ e.type = .dependsOn) := by
        unfold addBlockedBy
        by_cases hk : e.type = .dependsOn
        · simp only [hk, ↓reduceIte, JsMap.get?_set, and_true]
          by_cases hid : e.src = id
          · subst hid
            by_cases hm : e.tgt ∈ (m.get? e.src).getD []
            · simp only [hm, ↓reduceIte, Option.getD_some, true_and]
              constructor
              · exact Or.inl
              · rintro (hb | rfl)
                · exact hb
                · exact hm
            · simp [hm, eq_comm]
          · simp [hid]
        · simp [hk]
      rw [hstep]
      simp only [List.exists_mem_cons_iff, or_assoc]

/-- A task is ready when every task that its edges lead to is completed. -/
theorem isReady_iff :
    g.isReady id = true ↔ ∀ d ∈ g.getDependents id, g.statusOf d = some .completed := by
  have hmem : ∀ d, d ∈ g.getDependents id ↔ d ∈ (g.blockedByMap.get? id).getD [] := by
    intro d
    rw [blockedByMap, mem_foldl_addBlockedBy]
    simp only [JsMap.get?_empty, Option.getD_none, List.not_mem_nil, false_or, mem_getDependents,
      mem_getBlockers]
  simp only [hmem, isReady]
  cases g.blockedByMap.get? id with
  | none => simp
  | some blockers =>
      simp only [Bool.or_eq_true, List.isEmpty_iff, List.all_eq_true, beq_iff_eq, Option.getD_some,
        or_iff_right_iff_imp]
      rintro rfl
      simp

theorem isOpen_iff : g.isOpen id = true ↔ g.nodes.has id = true ∧ g.statusOf id ≠ some .completed := by
  rw [isOpen, has_iff_statusOf]
  cases g.statusOf id with
  | none => simp
  | some s => simp

theorem mem_readyTasks :
    id ∈ g.analyzeCriticalPath.readyTasks ↔
      g.isOpen id = true ∧ ∀ d ∈ g.getDependents id, g.statusOf d = some .completed := by
  simp only [analyzeCriticalPath, List.mem_filter, Bool.and_eq_true, isReady_iff, JsMap.mem_keys_iff]
  rw [← JsMap.has_iff, and_iff_right_iff_imp]
  exact fun h => (isOpen_iff.mp h.1).1

theorem mem_executionOrder :
    id ∈ g.analyzeCriticalPath.executionOrder ↔ id ∈ g.topologicalSort ∧ g.isOpen id = true := by
  simp only [analyzeCriticalPath, List.mem_filter]

end WrongStack.Sdd
