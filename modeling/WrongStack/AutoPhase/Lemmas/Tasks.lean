import WrongStack.AutoPhase.PhaseOrchestrator
import WrongStack.Sdd.Lemmas.Tracker

/-!
# The tasks of a phase

A batch puts its tasks, and no others, in progress; when it is over none is left there. In a graph that can be
worked off, a phase with no executable task has no open task.
-/

namespace WrongStack.AutoPhase

open Lib Sdd Sdd.TaskGraph

variable {p : PhaseNode} {g : TaskGraph} {t x : TaskId} {status : TaskStatus} {batch : List TaskId}

/-- No task is in progress. -/
def Idle (g : TaskGraph) : Prop := ∀ t, g.statusOf t ≠ some .inProgress

/-- No task is executable. -/
def Spent (g : TaskGraph) : Prop := ∀ t, g.statusOf t = some .pending → g.canStart t = false

/-- The dependencies are tasks of the graph and have no cycle, and no task is blocked or in review. -/
structure Workable (g : TaskGraph) : Prop where
  acyclic : Acyclic g.getBlockers
  blockers : ∀ t b, b ∈ g.getBlockers t → g.nodes.has b = true
  blocked : ∀ t, g.statusOf t ≠ some .blocked
  review : ∀ t, g.statusOf t ≠ some .review

theorem Workable.finished (h : Workable g) (hidle : Idle g) (hspent : Spent g) {s : TaskStatus}
    (ht : g.statusOf t = some s) : s = .completed ∨ s = .failed := by
  have hnone : ∀ t, g.statusOf t ≠ some .pending := by
    intro t ht
    have hkeys : ∀ x, g.statusOf x = some .pending → x ∈ g.nodes.keys := fun x hx =>
      JsMap.mem_keys_iff.mpr (JsMap.has_iff.mp (has_iff_statusOf.mpr ⟨_, hx⟩))
    obtain ⟨y, hy, hblockers⟩ := h.acyclic.exists_sink hkeys ht
    have hcan : g.canStart y = true := by
      refine List.all_eq_true.mpr fun b hb => ?_
      obtain ⟨s, hs⟩ := has_iff_statusOf.mp (h.blockers y b hb)
      have hpending := hblockers b hb
      have hblocked := h.blocked b
      have hreview := h.review b
      have hprogress := hidle b
      unfold TaskGraph.finished
      rw [hs] at hpending hblocked hreview hprogress ⊢
      cases s <;> simp_all
    rw [hspent y hy] at hcan
    cases hcan
  have hpending := hnone t
  have hblocked := h.blocked t
  have hreview := h.review t
  have hprogress := hidle t
  cases s <;> simp_all

/-! ## One update -/

theorem updateNodeStatus_none (h : p.taskGraph.nodes.has t = false) : p.updateNodeStatus t status = p := by
  unfold PhaseNode.updateNodeStatus TaskTracker.updateNodeStatus
  rw [JsMap.has_eq_false.mp h]

theorem updateNodeStatus_some (h : p.taskGraph.nodes.has t = true) : (p.updateNodeStatus t status).taskGraph =
    if status = .completed then (p.taskGraph.setStatus t status).unblockDependents t
    else if status = .inProgress then (p.taskGraph.setStatus t status).checkAndBlockIfNeeded t
    else p.taskGraph.setStatus t status := by
  obtain ⟨node, hnode⟩ := JsMap.has_iff.mp h
  unfold PhaseNode.updateNodeStatus TaskTracker.updateNodeStatus
  rw [hnode]
  cases status <;> rfl

theorem sameShape_updateNodeStatus (p : PhaseNode) (t : TaskId) (status : TaskStatus) :
    SameShape p.taskGraph (p.updateNodeStatus t status).taskGraph := by
  cases h : p.taskGraph.nodes.has t with
  | false =>
      rw [updateNodeStatus_none h]
      exact .refl _
  | true =>
      rw [updateNodeStatus_some h]
      have hset := sameShape_setStatus p.taskGraph t status
      split
      · exact hset.trans (sameShape_unblockDependents _ t)
      · split
        · exact hset.trans (sameShape_checkAndBlock _ t)
        · exact hset

theorem statusOf_setStatus_cases {s : TaskStatus} (h : (g.setStatus t status).statusOf x = some s) :
    (x = t ∧ s = status) ∨ (x ≠ t ∧ g.statusOf x = some s) := by
  rw [statusOf_setStatus] at h
  split at h
  · rename_i heq
    obtain ⟨_, -, rfl⟩ := Option.map_eq_some_iff.mp h
    exact .inl ⟨heq.symm, rfl⟩
  · rename_i hne
    exact .inr ⟨Ne.symm hne, h⟩

/-- A task gets the status it is given, or is blocked where it should have started; another one keeps its status,
or was blocked and is pending now. -/
theorem statusOf_updateNodeStatus {s : TaskStatus}
    (h : (p.updateNodeStatus t status).taskGraph.statusOf x = some s) :
    (x = t ∧ s = status) ∨ (x ≠ t ∧ p.taskGraph.statusOf x = some s) ∨
      (x ≠ t ∧ s = .pending ∧ p.taskGraph.statusOf x = some .blocked) ∨
      (x = t ∧ s = .blocked ∧ status = .inProgress ∧
        ∃ b ∈ p.taskGraph.getBlockers t, (p.taskGraph.setStatus t .inProgress).finished b = false) := by
  cases hhas : p.taskGraph.nodes.has t with
  | false =>
      rw [updateNodeStatus_none hhas] at h
      refine .inr (.inl ⟨?_, h⟩)
      rintro rfl
      rw [has_iff_statusOf.mpr ⟨s, h⟩] at hhas
      cases hhas
  | true =>
      rw [updateNodeStatus_some hhas] at h
      split at h
      · rename_i hcompleted
        have hunblock := (statusOf_foldl_unblock ((p.taskGraph.setStatus t status).getDependents t)
          (p.taskGraph.setStatus t status)).2.2 x
        rw [unblockDependents, hunblock] at h
        split at h
        · rename_i hblocked
          rcases statusOf_setStatus_cases hblocked.2.1 with ⟨-, heq⟩ | ⟨hne, hold⟩
          · rw [hcompleted] at heq
            cases heq
          · exact .inr (.inr (.inl ⟨hne, (Option.some.inj h).symm, hold⟩))
        · rcases statusOf_setStatus_cases h with hself | hother
          · exact .inl hself
          · exact .inr (.inl hother)
      · split at h
        · rename_i hstart
          subst hstart
          unfold checkAndBlockIfNeeded at h
          split at h
          · rename_i hblocks
            rcases statusOf_setStatus_cases h with ⟨hx, hs⟩ | ⟨hne, hset⟩
            · obtain ⟨b, hb, hfinished⟩ := List.any_eq_true.mp hblocks
              exact .inr (.inr (.inr ⟨hx, hs, rfl, b, hb, by simpa using hfinished⟩))
            · rcases statusOf_setStatus_cases hset with ⟨hx, -⟩ | hother
              · exact absurd hx hne
              · exact .inr (.inl hother)
          · rcases statusOf_setStatus_cases h with hself | hother
            · exact .inl hself
            · exact .inr (.inl hother)
        · rcases statusOf_setStatus_cases h with hself | hother
          · exact .inl hself
          · exact .inr (.inl hother)

/-! ## A batch -/

theorem inProgress_updateNodeStatus
    (h : (p.updateNodeStatus t status).taskGraph.statusOf x = some .inProgress) :
    (x = t ∧ status = .inProgress) ∨ (x ≠ t ∧ p.taskGraph.statusOf x = some .inProgress) := by
  rcases statusOf_updateNodeStatus h with ⟨hx, hs⟩ | hother | ⟨-, hs, -⟩ | ⟨-, hs, -⟩
  · exact .inl ⟨hx, hs.symm⟩
  · exact .inr hother
  · cases hs
  · cases hs

theorem inProgress_startTasks (batch : List TaskId) (p : PhaseNode)
    (h : (PhaseOrchestrator.startTasks p batch).taskGraph.statusOf x = some .inProgress) :
    x ∈ batch ∨ p.taskGraph.statusOf x = some .inProgress := by
  unfold PhaseOrchestrator.startTasks at h
  induction batch generalizing p with
  | nil => exact .inr h
  | cons t batch ih =>
      rcases ih _ h with hmem | hold
      · exact .inl (List.mem_cons_of_mem t hmem)
      · rcases inProgress_updateNodeStatus hold with ⟨rfl, -⟩ | ⟨-, hold⟩
        · exact .inl List.mem_cons_self
        · exact .inr hold

/-- A task that waits for no one can be started without being blocked. -/
theorem Workable.start (h : Workable p.taskGraph) (hopen : p.taskGraph.finished t = false)
    (hcan : p.taskGraph.canStart t = true) : Workable (p.updateNodeStatus t .inProgress).taskGraph ∧
      (p.updateNodeStatus t .inProgress).taskGraph.finished = p.taskGraph.finished := by
  have hshape := sameShape_updateNodeStatus p t .inProgress
  have hfinished : (p.taskGraph.setStatus t .inProgress).finished = p.taskGraph.finished := by
    funext b
    rw [finished_setStatus]
    split
    · rename_i heq
      subst heq
      rw [hopen]
      exact Bool.and_false _
    · rfl
  have hnot : ∀ b ∈ p.taskGraph.getBlockers t, (p.taskGraph.setStatus t .inProgress).finished b = true := by
    intro b hb
    rw [hfinished]
    exact List.all_eq_true.mp hcan b hb
  refine ⟨⟨hshape.getBlockers.symm ▸ h.acyclic, ?_, ?_, ?_⟩, ?_⟩
  · intro x b hb
    rw [hshape.getBlockers] at hb
    rw [hshape.has]
    exact h.blockers x b hb
  · intro x hx
    rcases statusOf_updateNodeStatus hx with ⟨-, hs⟩ | ⟨-, hold⟩ | ⟨-, hs, -⟩ | ⟨-, -, -, b, hb, hopen⟩
    · cases hs
    · exact h.blocked x hold
    · cases hs
    · rw [hnot b hb] at hopen
      cases hopen
  · intro x hx
    rcases statusOf_updateNodeStatus hx with ⟨-, hs⟩ | ⟨-, hold⟩ | ⟨-, hs, -⟩ | ⟨-, hs, -⟩
    · cases hs
    · exact h.review x hold
    · cases hs
    · cases hs
  · cases hhas : p.taskGraph.nodes.has t with
    | false => rw [updateNodeStatus_none hhas]
    | true =>
        rw [updateNodeStatus_some hhas, if_neg (by decide), if_pos rfl]
        unfold checkAndBlockIfNeeded
        rw [if_neg]
        · exact hfinished
        · intro hblocks
          obtain ⟨b, hb, hopen⟩ := List.any_eq_true.mp hblocks
          simp [hnot b hb] at hopen

theorem Workable.startTasks (h : Workable p.taskGraph)
    (hbatch : ∀ t ∈ batch, p.taskGraph.finished t = false ∧ p.taskGraph.canStart t = true) :
    Workable (PhaseOrchestrator.startTasks p batch).taskGraph := by
  unfold PhaseOrchestrator.startTasks
  induction batch generalizing p with
  | nil => exact h
  | cons t batch ih =>
      obtain ⟨hopen, hcan⟩ := hbatch t List.mem_cons_self
      obtain ⟨hwork, hsame⟩ := h.start hopen hcan
      refine ih hwork fun t' ht' => ?_
      unfold TaskGraph.canStart
      rw [hsame, (sameShape_updateNodeStatus p t .inProgress).getBlockers]
      exact hbatch t' (List.mem_cons_of_mem t ht')

theorem Workable.mark (h : Workable p.taskGraph) (hstatus : status = .completed ∨ status = .failed ∨ status = .pending) :
    Workable (p.updateNodeStatus t status).taskGraph := by
  have hshape := sameShape_updateNodeStatus p t status
  refine ⟨hshape.getBlockers.symm ▸ h.acyclic, ?_, ?_, ?_⟩
  · intro x b hb
    rw [hshape.getBlockers] at hb
    rw [hshape.has]
    exact h.blockers x b hb
  · intro x hx
    rcases statusOf_updateNodeStatus hx with ⟨-, hs⟩ | ⟨-, hold⟩ | ⟨-, hs, -⟩ | ⟨-, -, hs, -⟩
    · subst hs
      simp at hstatus
    · exact h.blocked x hold
    · cases hs
    · subst hs
      simp at hstatus
  · intro x hx
    rcases statusOf_updateNodeStatus hx with ⟨-, hs⟩ | ⟨-, hold⟩ | ⟨-, hs, -⟩ | ⟨-, hs, -⟩
    · subst hs
      simp at hstatus
    · exact h.review x hold
    · cases hs
    · cases hs

theorem mem_getExecutableTasks : t ∈ p.getExecutableTasks ↔
    p.taskGraph.statusOf t = some .pending ∧ p.taskGraph.canStart t = true := by
  unfold PhaseNode.getExecutableTasks
  simp only [List.mem_insertionSort, List.mem_filter, Bool.and_eq_true, beq_iff_eq]
  refine and_iff_right_of_imp fun h => ?_
  exact JsMap.mem_keys_iff.mpr (JsMap.has_iff.mp (has_iff_statusOf.mpr ⟨_, h.1⟩))

theorem spent_of_isEmpty (h : p.getExecutableTasks.isEmpty = true) : Spent p.taskGraph := by
  intro t ht
  by_contra hcan
  have hmem : t ∈ p.getExecutableTasks := mem_getExecutableTasks.mpr ⟨ht, by simpa using hcan⟩
  rw [List.isEmpty_iff.mp h] at hmem
  cases hmem

theorem finished_of_pending (h : g.statusOf t = some .pending) : g.finished t = false := by
  simp [TaskGraph.finished, h]

/-! ## A resumed graph -/

theorem statusOf_resetTasks (p : PhaseNode) (x : TaskId) : p.resetTasks.taskGraph.statusOf x =
    (p.taskGraph.statusOf x).map fun s => if s = .inProgress then .pending else s := by
  have hfold : ∀ (ts : List TaskId) (g : TaskGraph),
      (ts.foldl (fun g t => if g.statusOf t = some .inProgress then g.setStatus t .pending else g) g).statusOf x =
        if x ∈ ts then (g.statusOf x).map fun s => if s = .inProgress then .pending else s else g.statusOf x := by
    intro ts
    induction ts with
    | nil => simp
    | cons t ts ih =>
        intro g
        rw [List.foldl_cons, ih]
        by_cases hx : x = t
        · subst hx
          cases hs : g.statusOf x with
          | none => simp [hs]
          | some s =>
              by_cases hprogress : s = .inProgress
              · simp [statusOf_setStatus, hs, hprogress]
              · simp [hs, hprogress]
        · have hsame : ∀ g' : TaskGraph, (g' = g ∨ g' = g.setStatus t .pending) → g'.statusOf x = g.statusOf x := by
            rintro g' (rfl | rfl)
            · rfl
            · rw [statusOf_setStatus, if_neg (Ne.symm hx)]
          have hg : (if g.statusOf t = some .inProgress then g.setStatus t .pending else g).statusOf x =
              g.statusOf x := by
            split
            · exact hsame _ (.inr rfl)
            · rfl
          rw [hg]
          simp [hx]
  refine (hfold p.taskGraph.nodes.keys p.taskGraph).trans ?_
  split
  · rfl
  · rename_i hnot
    cases hs : p.taskGraph.statusOf x with
    | none => rfl
    | some s => exact absurd (JsMap.mem_keys_iff.mpr (JsMap.has_iff.mp (has_iff_statusOf.mpr ⟨s, hs⟩))) hnot

theorem sameShape_resetTasks (p : PhaseNode) : SameShape p.taskGraph p.resetTasks.taskGraph := by
  have hfold : ∀ (ts : List TaskId) (g : TaskGraph), SameShape g
      (ts.foldl (fun g t => if g.statusOf t = some .inProgress then g.setStatus t .pending else g) g) := by
    intro ts
    induction ts with
    | nil => exact fun g => .refl g
    | cons t ts ih =>
        intro g
        refine SameShape.trans ?_ (ih _)
        simp only
        split
        · exact sameShape_setStatus g t .pending
        · exact .refl g
  exact hfold _ _

theorem idle_resetTasks (p : PhaseNode) : Idle p.resetTasks.taskGraph := by
  intro t ht
  rw [statusOf_resetTasks] at ht
  obtain ⟨s, -, hs⟩ := Option.map_eq_some_iff.mp ht
  split at hs
  · cases hs
  · rename_i hne
    exact hne hs

theorem Workable.resetTasks (h : Workable p.taskGraph) : Workable p.resetTasks.taskGraph := by
  have hshape := sameShape_resetTasks p
  have hstatus : ∀ {t s}, p.resetTasks.taskGraph.statusOf t = some s → s ≠ .pending →
      p.taskGraph.statusOf t = some s := by
    intro t s ht hne
    rw [statusOf_resetTasks] at ht
    obtain ⟨s', hs', hs⟩ := Option.map_eq_some_iff.mp ht
    split at hs
    · exact absurd hs.symm hne
    · rw [hs', hs]
  refine ⟨hshape.getBlockers.symm ▸ h.acyclic, ?_, ?_, ?_⟩
  · intro x b hb
    rw [hshape.getBlockers] at hb
    rw [hshape.has]
    exact h.blockers x b hb
  · exact fun t ht => h.blocked t (hstatus ht (by decide))
  · exact fun t ht => h.review t (hstatus ht (by decide))

end WrongStack.AutoPhase
