import WrongStack.Sdd.Lemmas.Path

/-!
# Tracker and analysis over whole runs

Runs are sequences of public calls of a tracker in any order, from the graph that `createGraph`
makes.
-/

namespace WrongStack.Sdd

open Lib TaskGraph

variable {t : TaskTracker}

theorem wf_run (ops : List Op) : Wf (run step {} ops) :=
  run_invariant (fun _ op h => h.step op) wf_init ops

/-! ## Blocked tasks -/

def AddDependencyReports (g : TaskGraph) : Prop :=
  ∀ dep task, (g.addDependency dep task).2 = true ↔
    g.nodes.has dep = true ∧ g.nodes.has task = true ∧ dep ≠ task ∧
      dep ∈ (g.addDependency dep task).1.getBlockers task

theorem addDependency_reports (g : TaskGraph) : AddDependencyReports g := by
  intro dep task
  rcases addDependency_cases g dep task with ⟨hg, hfalse, hwhy⟩ | ⟨hne, hdep, htask, heq, hmem⟩ |
    ⟨hne, hdep, htask, heq, -⟩
  · rw [hg, hfalse]
    refine iff_of_false Bool.false_ne_true ?_
    rintro ⟨hdep, htask, hne, hmem⟩
    rcases hwhy with h | h | h | h
    · exact hne h
    · rw [hdep] at h
      cases h
    · rw [htask] at h
      cases h
    · exact h hmem
  · simp [heq, hne, hdep, htask, hmem]
  · simp [heq, hne, hdep, htask, getBlockers_addEdge]

/-- A node that fails or is removed is not the last unfinished blocker of a node that the tracker
has blocked. -/
def FreesDependents (s : TaskTracker × List TaskId) : Op → Prop
  | .updateNodeStatus id .failed _ | .removeNode id => NoneWaitsOnlyFor s.1.graph s.2 id
  | _ => True

theorem noneWaitsOnlyFor_missing {g : TaskGraph} {moved : List TaskId} {id : TaskId}
    (hid : g.nodes.has id = false) : NoneWaitsOnlyFor g moved id := by
  intro h
  rw [hid] at h
  cases h

theorem updateNodeStatus_strands {moved : List TaskId} (h : NoneStranded t.graph moved) (id : TaskId)
    (status : TaskStatus) (reason : Option String) :
    NoneStranded (step t (.updateNodeStatus id status reason)).graph
        (movedToBlocked moved t (.updateNodeStatus id status reason)) ↔
      FreesDependents (t, moved) (.updateNodeStatus id status reason) := by
  rcases step_updateNodeStatus t id status reason with ⟨hid, heq⟩ | ⟨hid, _, heq⟩
  · have hstatus : t.graph.statusOf id = none := by
      rw [← Option.not_isSome_iff_eq_none, Option.isSome_iff_exists, ← has_iff_statusOf, hid]
      exact Bool.false_ne_true
    have hmoved : movedToBlocked moved t (.updateNodeStatus id status reason) =
        moved.filter fun n => n != id := by
      simp [movedToBlocked, heq, hstatus]
    rw [heq, hmoved]
    refine iff_of_true (fun n hn hs => h n (List.mem_of_mem_filter hn) hs) ?_
    cases status with
    | failed => exact noneWaitsOnlyFor_missing hid
    | _ => trivial
  · simp only [movedToBlocked]
    rw [heq]
    cases status with
    | completed => exact iff_of_true h.unblockDependents trivial
    | failed => exact setStatus_failed_strands hid
    | inProgress =>
        refine iff_of_true ?_ trivial
        simp only [reduceCtorEq, ↓reduceIte, true_and]
        exact h.checkAndBlock hid
    | pending => exact iff_of_true (noneStranded_setStatus h .pending (by simp)) trivial
    | blocked => exact iff_of_true (noneStranded_setStatus h .blocked (by simp)) trivial
    | review => exact iff_of_true (noneStranded_setStatus h .review (by simp)) trivial

theorem step_strands {moved : List TaskId} (hwf : Wf t)
    (hin : ∀ n ∈ moved, t.graph.nodes.has n = true) (h : NoneStranded t.graph moved) (op : Op) :
    NoneStranded (step t op).graph (movedToBlocked moved t op) ↔ FreesDependents (t, moved) op := by
  cases op with
  | addNode node => exact iff_of_true (h.addNode hwf hin node) trivial
  | addDependency dep task => exact iff_of_true (h.addDependency dep task) trivial
  | updateNodeStatus id status reason => exact updateNodeStatus_strands h id status reason
  | removeNode id =>
      by_cases hid : t.graph.nodes.has id = true
      · exact removeNode_strands hid
      · rw [Bool.not_eq_true] at hid
        have heq : (t.graph.removeNode id).1 = t.graph := by simp [TaskGraph.removeNode, hid]
        refine iff_of_true ?_ (noneWaitsOnlyFor_missing hid)
        intro n hn hs
        simp only [step, heq] at hs ⊢
        exact h n (List.mem_of_mem_filter hn) hs

theorem movedToBlocked_has {moved : List TaskId} (hin : ∀ n ∈ moved, t.graph.nodes.has n = true)
    (op : Op) : ∀ n ∈ movedToBlocked moved t op, (step t op).graph.nodes.has n = true := by
  cases op with
  | addNode node =>
      intro n hn
      simp only [step, has_addNode, hin n hn, Bool.or_true]
  | addDependency dep task =>
      intro n hn
      rcases addDependency_cases t.graph dep task with ⟨heq, -⟩ | ⟨-, -, -, heq, -⟩ |
        ⟨-, -, -, heq, -⟩
      all_goals
        simp only [step, heq]
        exact hin n hn
  | updateNodeStatus id status reason =>
      have hhas : ∀ n, (step t (.updateNodeStatus id status reason)).graph.nodes.has n =
          t.graph.nodes.has n := by
        intro n
        rcases step_updateNodeStatus t id status reason with ⟨-, heq⟩ | ⟨-, _, heq⟩
        · rw [heq]
        · rw [heq]
          have hset := sameShape_setStatus t.graph id status
          dsimp only
          split
          · exact (hset.trans (sameShape_unblockDependents _ id)).has n
          · split
            · exact (hset.trans (sameShape_checkAndBlock _ id)).has n
            · exact hset.has n
      intro n hn
      rw [hhas]
      simp only [movedToBlocked] at hn
      split at hn
      · rename_i hs
        rcases List.mem_cons.mp hn with rfl | hn
        · exact (hhas n).symm.trans (has_iff_statusOf.mpr ⟨_, hs.2⟩)
        · exact hin n (List.mem_of_mem_filter hn)
      · exact hin n (List.mem_of_mem_filter hn)
  | removeNode id =>
      intro n hn
      simp only [movedToBlocked, List.mem_filter, bne_iff_ne] at hn
      by_cases hid : t.graph.nodes.has id = true
      · simp [step, has_removeNode hid, hin n hn.1, Ne.symm hn.2]
      · simp [step, TaskGraph.removeNode, hid, hin n hn.1]

/-- Dependencies stay acyclic and `addDependency` reports what it did in every run; that moreover no
node stays blocked although it can start holds of exactly the runs in which no failure and no
removal takes the last unfinished blocker away. -/
theorem tracker_sound_iff (ops : List Op) :
    (∀ pre, pre <+: ops →
      let s := run (withHistory step movedToBlocked) ({}, []) pre
      Acyclic s.1.graph.getBlockers ∧ AddDependencyReports s.1.graph ∧ NoneStranded s.1.graph s.2) ↔
      Under (withHistory step movedToBlocked) FreesDependents ({}, []) ops := by
  have hiff : (∀ pre, pre <+: ops →
      NoneStranded (run (withHistory step movedToBlocked) ({}, []) pre).1.graph
        (run (withHistory step movedToBlocked) ({}, []) pre).2) ↔
      Under (withHistory step movedToBlocked) FreesDependents ({}, []) ops := forall_prefix_iff_under
    (I := fun s : TaskTracker × List TaskId => Wf s.1 ∧ ∀ n ∈ s.2, s.1.graph.nodes.has n = true)
    (J := fun s => NoneStranded s.1.graph s.2)
    (fun s op hs => ⟨hs.1.step op, movedToBlocked_has hs.2 op⟩)
    (fun s op hs hj => step_strands hs.1 hs.2 hj op)
    ⟨wf_init, fun _ hn => absurd hn List.not_mem_nil⟩ (fun _ hn => absurd hn List.not_mem_nil) ops
  rw [← hiff]
  refine forall₂_congr fun pre _ => ?_
  have hwf : Wf (run (withHistory step movedToBlocked) ({}, []) pre).1 := by
    rw [run_withHistory]
    exact wf_run pre
  exact ⟨fun h => h.2.2, fun h => ⟨hwf.acyclic, addDependency_reports _, h⟩⟩

/-- A task is started before its blocker has finished, and the blocker fails. -/
theorem stranded_by_failure :
    ¬ ∀ ops : List Op,
      let s := run (withHistory step movedToBlocked) ({}, []) ops
      Acyclic s.1.graph.getBlockers ∧ AddDependencyReports s.1.graph ∧ NoneStranded s.1.graph s.2 := by
  intro h
  have hs := (h [.addNode {}, .addNode {}, .addDependency 0 1, .updateNodeStatus 1 .inProgress none,
    .updateNodeStatus 0 .failed none]).2.2 1
  revert hs
  decide

/-! ## Tracker and analysis -/

/-- The analysis calls a task ready when the tracker's blockers are completed, and orders it after
those that are not. -/
def ReadsAlike (g : TaskGraph) : Prop :=
  (∀ id ∈ g.nodes.keys, g.isOpen id = true →
    (id ∈ g.analyzeCriticalPath.readyTasks ↔ ∀ b ∈ g.getBlockers id, g.statusOf b = some .completed)) ∧
  ∀ id ∈ g.nodes.keys, g.isOpen id = true →
    id ∈ g.analyzeCriticalPath.executionOrder ∧
      ∀ b ∈ g.getBlockers id, g.statusOf b ≠ some .completed →
        g.analyzeCriticalPath.executionOrder.idxOf b < g.analyzeCriticalPath.executionOrder.idxOf id

/-- No dependency has two open ends. -/
def NoOpenDependency (g : TaskGraph) : Prop :=
  ∀ e ∈ g.edges, g.statusOf e.src = some .completed ∨ g.statusOf e.tgt = some .completed

/-- Every open task is reached from a task without a parent. -/
def RootsReachOpen (g : TaskGraph) : Prop :=
  ∀ id ∈ g.nodes.keys, g.isOpen id = true → ∃ r ∈ g.rootNodes, Reaches g.successors r id

theorem noOpenDependency_of_ready (h : Wf t) (hready : ∀ id ∈ t.graph.nodes.keys,
    t.graph.isOpen id = true → (id ∈ t.graph.analyzeCriticalPath.readyTasks ↔
      ∀ b ∈ t.graph.getBlockers id, t.graph.statusOf b = some .completed)) :
    NoOpenDependency t.graph := by
  intro e he
  by_contra hopen
  rw [not_or] at hopen
  -- an open task with an open dependent is not ready, so it has an open blocker, and so on
  have hkeys : ∀ x, (∃ e ∈ t.graph.edges, e.src = x ∧ t.graph.statusOf e.src ≠ some .completed ∧
      t.graph.statusOf e.tgt ≠ some .completed) → x ∈ t.graph.nodes.keys := by
    rintro x ⟨e, he, rfl, -⟩
    exact JsMap.mem_keys_iff.mpr (JsMap.has_iff.mp (h.ends e he).1)
  obtain ⟨x, ⟨e, he, rfl, hs, ht⟩, hsink⟩ := h.acyclic.exists_sink hkeys
    ⟨e, he, rfl, hopen⟩
  have hsrc : t.graph.isOpen e.src = true := isOpen_iff.mpr ⟨(h.ends e he).1, hs⟩
  have hdep : e.tgt ∈ t.graph.getDependents e.src :=
    mem_getDependents.mpr (mem_getBlockers.mpr ⟨e, he, rfl, rfl, h.kind e he⟩)
  have hnot : e.src ∉ t.graph.analyzeCriticalPath.readyTasks :=
    fun hr => ht ((mem_readyTasks.mp hr).2 e.tgt hdep)
  rw [hready e.src (JsMap.mem_keys_iff.mpr (JsMap.has_iff.mp (h.ends e he).1)) hsrc] at hnot
  push Not at hnot
  obtain ⟨b, hb, hbs⟩ := hnot
  obtain ⟨e', he', rfl, htgt, -⟩ := mem_getBlockers.mp hb
  exact hsink e'.src hb ⟨e', he', rfl, hbs, htgt ▸ hs⟩

/-- The two modules read the edges in opposite directions, so they agree on exactly the graphs in
which no open task waits for an open one and a root leads to each. -/
theorem readsAlike_iff (ops : List Op) :
    ReadsAlike (run step {} ops).graph ↔
      NoOpenDependency (run step {} ops).graph ∧ RootsReachOpen (run step {} ops).graph := by
  have hwf := wf_run ops
  constructor
  · rintro ⟨hready, horder⟩
    refine ⟨noOpenDependency_of_ready hwf hready, fun id hid ho => ?_⟩
    exact hwf.mem_topologicalSort.mp (mem_executionOrder.mp (horder id hid ho).1).1
  · rintro ⟨hdep, hroots⟩
    have hblockers : ∀ id, (run step {} ops).graph.isOpen id = true →
        ∀ b ∈ (run step {} ops).graph.getBlockers id,
          (run step {} ops).graph.statusOf b = some .completed := by
      intro id ho b hb
      obtain ⟨e, he, rfl, rfl, -⟩ := mem_getBlockers.mp hb
      exact (hdep e he).resolve_right (isOpen_iff.mp ho).2
    refine ⟨fun id _ ho => iff_of_true (mem_readyTasks.mpr ⟨ho, fun d hd => ?_⟩) (hblockers id ho),
      fun id hid ho => ⟨?_, fun b hb hs => absurd (hblockers id ho b hb) hs⟩⟩
    · obtain ⟨e, he, rfl, rfl, -⟩ := mem_getBlockers.mp (mem_getDependents.mp hd)
      exact (hdep e he).resolve_left (isOpen_iff.mp ho).2
    · exact mem_executionOrder.mpr ⟨hwf.mem_topologicalSort.mpr (hroots id hid ho), ho⟩

/-- One pending task that waits for another. -/
theorem readsAlike_reversed : ¬ ∀ ops : List Op, ReadsAlike (run step {} ops).graph := by
  intro h
  have hready := ((h [.addNode {}, .addNode {}, .addDependency 0 1]).1 0 (by decide) (by decide)).mpr
  revert hready
  decide

/-! ## Parallel groups -/

/-- The groups of an acyclic graph are its levels exactly if the open tasks wait for nothing that is not in the graph,
and each that waits for a completed task is alone on its level and comes before the tasks of higher levels. -/
theorem parallelGroups_iff {g : TaskGraph} (h : Acyclic g.waitsFor) :
    Levelled g g.computeParallelGroups ↔ BlockersPresent g ∧ ∀ t, WaitsForCompleted g t → Alone g t := by
  obtain ⟨hpartition, hnonempty⟩ := groupsFrom_partition g []
    (g.nodes.nodup.filter g.isOpen) le_rfl
  have hstart : Peeled g 0 [] (g.nodes.keys.filter g.isOpen) := by
    refine ⟨fun b => by simp, ?_⟩
    simp only [Nat.zero_le, decide_true, Bool.and_true]
  constructor
  · intro hl
    have hpresent := hl.blockersPresent
    exact ⟨hpresent, fun t ht => (hstart.groupsFrom_iff h hpresent le_rfl).mp (hl.levelsFrom h) t ht (Nat.zero_le _)⟩
  · rintro ⟨hpresent, halone⟩
    have hl := (hstart.groupsFrom_iff h hpresent le_rfl).mpr fun t ht _ => halone t ht
    exact hl.levelled h hpresent hpartition hnonempty

/-- One pending task that waits for another. -/
def oneWaits : TaskGraph where
  nodes := (JsMap.empty.set 0 { status := .pending }).set 1 { status := .pending }
  edges := [{ src := 1, tgt := 0, type := .dependsOn }]

theorem waitsFor_oneWaits {a b : TaskId} (hb : b ∈ oneWaits.waitsFor a) : a = 1 ∧ b = 0 := by
  obtain ⟨e, he, rfl, rfl, -⟩ := mem_waitsFor.mp hb
  rw [List.mem_singleton.mp he]
  exact ⟨rfl, rfl⟩

theorem acyclic_oneWaits : Acyclic oneWaits.waitsFor := by
  refine acyclic_of_rank id fun a b hb => ?_
  obtain ⟨rfl, rfl⟩ := waitsFor_oneWaits hb
  exact Nat.one_pos

theorem parallelGroups_iff_waits : Levelled oneWaits oneWaits.computeParallelGroups := by
  refine (parallelGroups_iff acyclic_oneWaits).mpr ⟨fun a _ b hb => ?_, ?_⟩
  · rw [(waitsFor_oneWaits hb).2]
    decide
  · rintro a ⟨-, b, hb, hdone⟩
    rw [(waitsFor_oneWaits hb).2] at hdone
    exact absurd hdone (by decide)

/-- Two pending tasks, the first of which waits for a completed one, and both for nothing else. -/
def oneDone : TaskGraph where
  nodes := ((JsMap.empty.set 0 { status := .completed }).set 1 { status := .pending }).set 2 { status := .pending }
  edges := [{ src := 1, tgt := 0, type := .dependsOn }]

theorem acyclic_oneDone : Acyclic oneDone.waitsFor := by
  refine acyclic_of_rank id fun a b hb => ?_
  obtain ⟨e, he, rfl, rfl, -⟩ := mem_waitsFor.mp hb
  rw [List.mem_singleton.mp he]
  decide

/-- A task that is ready is put behind one that does not depend on it. -/
theorem parallelGroups_late : oneDone.computeParallelGroups = [[2], [1]] ∧
    1 ∈ oneDone.analyzeCriticalPath.readyTasks ∧ ¬ Levelled oneDone oneDone.computeParallelGroups := by
  refine ⟨by decide, by decide, fun hl => ?_⟩
  refine (hl.earliest 1 1 (by decide)).2 0 Nat.one_pos fun b hb => Or.inl ?_
  obtain ⟨e, he, -, rfl, -⟩ := mem_waitsFor.mp hb
  rw [List.mem_singleton.mp he]
  decide

/-! ## The critical path -/

section CriticalPath

variable {g : TaskGraph} {estimateHours : TaskId → Option ℚ}

theorem criticalPath_longest (h : Acyclic g.waitsFor) (hhours : ∀ id, ∀ hours ∈ estimateHours id, 0 ≤ hours) :
    LongestChain g estimateHours (g.computeCriticalPath estimateHours) := by
  by_cases hne : g.nodes.keys = []
  · have hpath : g.computeCriticalPath estimateHours = [] := by
      unfold TaskGraph.computeCriticalPath
      rw [hne]
    rw [hpath]
    refine ⟨⟨List.nil_subset _, List.isChain_nil⟩, fun d hd => ?_⟩
    have hsub := hd.1
    rw [hne, List.subset_nil] at hsub
    rw [hsub]
  · obtain ⟨c, -, hpath, hfirst⟩ := computeCriticalPath_eq h hhours hne
    rw [hpath]
    refine ⟨hfirst.chain, fun d hd => ?_⟩
    rw [weight_reverse]
    have hle := hfirst.longest d.reverse (by rwa [List.reverse_reverse])
    rwa [weight_reverse] at hle

end CriticalPath

end WrongStack.Sdd
