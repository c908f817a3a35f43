import WrongStack.AutoPhase.PhaseOrchestrator

/-!
# The three lists of a phase graph

`Consistent` is what the lists promise. For each change of a phase's status together with what is done to the
lists, it says exactly when the promise is kept.
-/

namespace WrongStack.AutoPhase

open Lib Sdd

variable {g g' : PhaseGraph} {id : PhaseId} {ids : List PhaseId} {status t s : PhaseStatus}
  {statusOf : PhaseId → Option PhaseStatus}

/-- `ids` has the phases with this status, each once. -/
structure Lists (statusOf : PhaseId → Option PhaseStatus) (ids : List PhaseId) (status : PhaseStatus) : Prop where
  nodup : ids.Nodup
  mem : ∀ id, id ∈ ids ↔ statusOf id = some status

structure Consistent (g : PhaseGraph) : Prop where
  active : Lists g.statusOf g.activePhaseIds .running
  completed : Lists g.statusOf g.completedPhaseIds .completed
  failed : Lists g.statusOf g.failedPhaseIds .failed

/-- Nothing that `Consistent` is about has changed. -/
structure SameBook (g g' : PhaseGraph) : Prop where
  statusOf : g'.statusOf = g.statusOf
  active : g'.activePhaseIds = g.activePhaseIds
  completed : g'.completedPhaseIds = g.completedPhaseIds
  failed : g'.failedPhaseIds = g.failedPhaseIds

theorem SameBook.refl (g : PhaseGraph) : SameBook g g := ⟨rfl, rfl, rfl, rfl⟩

theorem SameBook.trans {g'' : PhaseGraph} (h : SameBook g g') (h' : SameBook g' g'') : SameBook g g'' :=
  ⟨h'.statusOf.trans h.statusOf, h'.active.trans h.active, h'.completed.trans h.completed,
    h'.failed.trans h.failed⟩

theorem SameBook.consistent_iff (h : SameBook g g') : Consistent g' ↔ Consistent g := by
  constructor
  · rintro ⟨hactive, hcompleted, hfailed⟩
    rw [h.statusOf, h.active] at hactive
    rw [h.statusOf, h.completed] at hcompleted
    rw [h.statusOf, h.failed] at hfailed
    exact ⟨hactive, hcompleted, hfailed⟩
  · rintro ⟨hactive, hcompleted, hfailed⟩
    refine ⟨?_, ?_, ?_⟩
    · rwa [h.statusOf, h.active]
    · rwa [h.statusOf, h.completed]
    · rwa [h.statusOf, h.failed]

theorem statusOf_modifyPhase (f : PhaseNode → PhaseNode) (id' : PhaseId) : (g.modifyPhase id f).statusOf id' =
    if id = id' then (g.phases.get? id').map fun p => (f p).status else g.statusOf id' := by
  unfold PhaseGraph.statusOf PhaseGraph.modifyPhase
  rw [JsMap.get?_modify]
  split
  · rw [Option.map_map]
    rfl
  · rfl

theorem sameBook_modifyPhase {f : PhaseNode → PhaseNode} (hf : ∀ p, (f p).status = p.status) :
    SameBook g (g.modifyPhase id f) := by
  refine ⟨funext fun id' => ?_, rfl, rfl, rfl⟩
  rw [statusOf_modifyPhase]
  split
  · simp only [hf]
    rfl
  · rfl

/-- The statuses after that of one phase has been set. -/
def setStatus (statusOf : PhaseId → Option PhaseStatus) (id : PhaseId) (status : PhaseStatus) (id' : PhaseId) :
    Option PhaseStatus :=
  if id = id' then (statusOf id).map fun _ => status else statusOf id'

theorem statusOf_updatePhaseStatus : (g.updatePhaseStatus id status).statusOf = setStatus g.statusOf id status := by
  funext id'
  refine (statusOf_modifyPhase _ id').trans ?_
  unfold setStatus
  split
  · rename_i heq
    rw [heq]
    unfold PhaseGraph.statusOf
    rw [Option.map_map]
    rfl
  · rfl

theorem setStatus_self (h : statusOf id = some s) : setStatus statusOf id status id = some status := by
  simp [setStatus, h]

theorem setStatus_of_ne {id' : PhaseId} (h : id ≠ id') : setStatus statusOf id status id' = statusOf id' := if_neg h

/-! ## One list -/

/-- The status of a phase changes, and neither the old one nor the new one is that of the list. -/
theorem Lists.other (h : Lists statusOf ids t) (hold : statusOf id ≠ some t) (hnew : status ≠ t) :
    Lists (setStatus statusOf id status) ids t := by
  refine ⟨h.nodup, fun id' => ?_⟩
  rw [h.mem]
  by_cases heq : id = id'
  · subst heq
    unfold setStatus
    cases hs : statusOf id <;> simp_all
  · rw [setStatus_of_ne heq]

theorem Lists.filter (h : Lists statusOf ids t) (hnew : status ≠ t) :
    Lists (setStatus statusOf id status) (ids.filter fun id' => id' != id) t := by
  refine ⟨h.nodup.filter _, fun id' => ?_⟩
  by_cases heq : id = id'
  · subst heq
    unfold setStatus
    cases hs : statusOf id <;> simp [hnew]
  · rw [setStatus_of_ne heq]
    simp [h.mem, Ne.symm heq]

theorem Lists.concat (h : Lists statusOf ids t) (hold : statusOf id = some s) (hne : s ≠ t) :
    Lists (setStatus statusOf id t) (ids ++ [id]) t := by
  have hnot : id ∉ ids := by
    rw [h.mem, hold]
    simpa using hne
  refine ⟨List.nodup_append.mpr ⟨h.nodup, List.nodup_singleton id, ?_⟩, fun id' => ?_⟩
  · rintro a ha b hb rfl
    exact hnot (List.mem_singleton.mp hb ▸ ha)
  by_cases heq : id = id'
  · subst heq
    simp [setStatus_self hold]
  · rw [setStatus_of_ne heq]
    simp [h.mem, Ne.symm heq]

/-- A list that is left as it is keeps its promise only for a phase that it does not have. -/
theorem Lists.not_other (h : Lists statusOf ids t) (h' : Lists (setStatus statusOf id status) ids t)
    (hnew : status ≠ t) : statusOf id ≠ some t := by
  intro hold
  have hmem := (h'.mem id).mp ((h.mem id).mpr hold)
  rw [setStatus_self hold] at hmem
  exact hnew (Option.some.inj hmem)

theorem Lists.not_concat (h : Lists statusOf ids t) (h' : Lists (setStatus statusOf id t) (ids ++ [id]) t) :
    ∃ s, statusOf id = some s ∧ s ≠ t := by
  have hmem : setStatus statusOf id t id = some t := (h'.mem id).mp (by simp)
  cases hold : statusOf id with
  | none => simp [setStatus, hold] at hmem
  | some s =>
      refine ⟨s, rfl, ?_⟩
      rintro rfl
      have hnodup := h'.nodup
      rw [List.nodup_append] at hnodup
      exact hnodup.2.2 id ((h.mem id).mpr hold) id (by simp) rfl

/-! ## Changes of a status -/

/-- The phase has not ended. -/
def Unended (g : PhaseGraph) (id : PhaseId) : Prop := ∃ s, g.statusOf id = some s ∧ s ≠ .completed ∧ s ≠ .failed

variable {w : PhaseOrchestrator}

theorem Consistent.begin (h : Consistent w.graph) (hs : w.graph.statusOf id = some .pending ∨
    w.graph.statusOf id = some .ready) : Consistent (w.beginPhase id).graph := by
  obtain ⟨s, hs, hne⟩ : ∃ s, w.graph.statusOf id = some s ∧ (s = .pending ∨ s = .ready) := by
    rcases hs with hs | hs
    · exact ⟨_, hs, .inl rfl⟩
    · exact ⟨_, hs, .inr rfl⟩
  have hstatus : (w.beginPhase id).graph.statusOf = setStatus w.graph.statusOf id .running :=
    statusOf_updatePhaseStatus
  refine ⟨?_, ?_, ?_⟩
  · rw [hstatus]
    exact h.active.concat hs (by rcases hne with rfl | rfl <;> decide)
  · rw [hstatus]
    exact h.completed.other (by rw [hs]; rcases hne with rfl | rfl <;> decide) (by decide)
  · rw [hstatus]
    exact h.failed.other (by rw [hs]; rcases hne with rfl | rfl <;> decide) (by decide)

theorem consistent_completePhase (h : Consistent w.graph) :
    Consistent (w.completePhase id).graph ↔ Unended w.graph id := by
  have hstatus : (w.completePhase id).graph.statusOf = setStatus w.graph.statusOf id .completed :=
    statusOf_updatePhaseStatus
  constructor
  · rintro ⟨-, hcompleted, hfailed⟩
    rw [hstatus] at hcompleted hfailed
    obtain ⟨s, hs, hne⟩ := h.completed.not_concat hcompleted
    refine ⟨s, hs, hne, ?_⟩
    rintro rfl
    exact h.failed.not_other hfailed (by decide) hs
  · rintro ⟨s, hs, hcompleted, hfailed⟩
    refine ⟨?_, ?_, ?_⟩
    · rw [hstatus]
      exact h.active.filter (by decide)
    · rw [hstatus]
      exact h.completed.concat hs hcompleted
    · rw [hstatus]
      exact h.failed.other (by rw [hs]; simpa using hfailed) (by decide)

theorem consistent_failPhase (h : Consistent w.graph) : Consistent (w.failPhase id).graph ↔ Unended w.graph id := by
  have hstatus : (w.failPhase id).graph.statusOf = setStatus w.graph.statusOf id .failed :=
    statusOf_updatePhaseStatus
  constructor
  · rintro ⟨-, hcompleted, hfailed⟩
    rw [hstatus] at hcompleted hfailed
    obtain ⟨s, hs, hne⟩ := h.failed.not_concat hfailed
    refine ⟨s, hs, ?_, hne⟩
    rintro rfl
    exact h.completed.not_other hcompleted (by decide) hs
  · rintro ⟨s, hs, hcompleted, hfailed⟩
    refine ⟨?_, ?_, ?_⟩
    · rw [hstatus]
      exact h.active.filter (by decide)
    · rw [hstatus]
      exact h.completed.other (by rw [hs]; simpa using hcompleted) (by decide)
    · rw [hstatus]
      exact h.failed.concat hs hfailed

theorem setStatus_same (h : ∀ s, statusOf id = some s → s = status) : setStatus statusOf id status = statusOf := by
  funext id'
  unfold setStatus
  split
  · rename_i heq
    subst heq
    cases hs : statusOf id with
    | none => rfl
    | some s => rw [h s hs, Option.map_some]
  · rfl

theorem setStatus_setStatus : setStatus (setStatus statusOf id s) id status = setStatus statusOf id status := by
  funext id'
  by_cases heq : id = id'
  · subst heq
    simp only [setStatus, ↓reduceIte, Option.map_map]
    rfl
  · rw [setStatus_of_ne heq, setStatus_of_ne heq, setStatus_of_ne heq]

theorem consistent_failTasks (h : Consistent w.graph) :
    Consistent (w.failTasks id).graph ↔ ∀ s, w.graph.statusOf id = some s → s = .failed := by
  have hstatus : (w.failTasks id).graph.statusOf = setStatus w.graph.statusOf id .failed :=
    statusOf_updatePhaseStatus
  constructor
  · rintro ⟨-, -, hfailed⟩ s hs
    rw [hstatus] at hfailed
    have hmem : id ∈ w.graph.failedPhaseIds := (hfailed.mem id).mpr (setStatus_self hs)
    exact Option.some.inj (hs.symm.trans ((h.failed.mem id).mp hmem))
  · intro hs
    refine ⟨?_, ?_, ?_⟩
    · rw [hstatus]
      exact h.active.filter (by decide)
    · rw [hstatus, setStatus_same hs]
      exact h.completed
    · rw [hstatus, setStatus_same hs]
      exact h.failed

/-- The handler makes up for what `failPhaseAfterTasks` forgets. -/
theorem sameBook_failPhase_failTasks (w : PhaseOrchestrator) (id : PhaseId) :
    SameBook (w.failPhase id).graph ((w.failTasks id).failPhase id).graph := by
  refine ⟨?_, ?_, rfl, rfl⟩
  · have htwice : ((w.failTasks id).failPhase id).graph.statusOf =
        setStatus (setStatus w.graph.statusOf id .failed) id .failed := by
      refine statusOf_updatePhaseStatus.trans ?_
      rw [show (w.failTasks id).graph.statusOf = _ from statusOf_updatePhaseStatus]
    rw [htwice, setStatus_setStatus]
    exact statusOf_updatePhaseStatus.symm
  · exact (List.filter_filter ..).trans (by simp; rfl)

theorem not_consistent_of_completed : ¬ Consistent ((w.completePhase id).failPhase id).graph := by
  intro h
  have hmem : id ∈ ((w.completePhase id).failPhase id).graph.completedPhaseIds :=
    List.mem_append_right _ (List.mem_singleton_self id)
  have hcompleted := (h.completed.mem id).mp hmem
  have hfailed := (h.failed.mem id).mp (List.mem_append_right _ (List.mem_singleton_self id))
  rw [hcompleted] at hfailed
  cases hfailed

theorem statusOf_markPhaseMergeFailed (w : PhaseOrchestrator) (id : PhaseId) :
    (w.markPhaseMergeFailed id).graph.statusOf = setStatus w.graph.statusOf id .failed := by
  unfold PhaseOrchestrator.markPhaseMergeFailed
  by_cases hfailed : w.graph.statusOf id = some .failed
  · have hsame : setStatus w.graph.statusOf id .failed = w.graph.statusOf :=
      setStatus_same fun s hs => Option.some.inj (hs.symm.trans hfailed)
    rw [hsame]
    simp only [hfailed, ↓reduceIte]
    split <;> rfl
  · simp only [hfailed, ↓reduceIte]
    split
    · exact statusOf_updatePhaseStatus
    · exact statusOf_updatePhaseStatus

theorem mem_markPhaseMergeFailed (w : PhaseOrchestrator) (id : PhaseId) :
    id ∈ (w.markPhaseMergeFailed id).graph.failedPhaseIds := by
  have hpush : ∀ g : PhaseGraph, id ∈ (if id ∈ g.failedPhaseIds then g
      else { g with failedPhaseIds := g.failedPhaseIds ++ [id] }).failedPhaseIds := by
    intro g
    split
    · assumption
    · exact List.mem_append_right _ (List.mem_singleton_self id)
  exact hpush _

theorem markPhaseMergeFailed_of_not (hfailed : w.graph.statusOf id ≠ some .failed)
    (hnot : id ∉ w.graph.failedPhaseIds) :
    (w.markPhaseMergeFailed id).graph.activePhaseIds = w.graph.activePhaseIds ∧
      (w.markPhaseMergeFailed id).graph.completedPhaseIds =
        w.graph.completedPhaseIds.filter (fun id' => id' != id) ∧
      (w.markPhaseMergeFailed id).graph.failedPhaseIds = w.graph.failedPhaseIds ++ [id] := by
  unfold PhaseOrchestrator.markPhaseMergeFailed
  rw [if_neg hfailed]
  simp only [PhaseGraph.updatePhaseStatus, PhaseGraph.modifyPhase, hnot, ↓reduceIte, and_self]

theorem markPhaseMergeFailed_of_failed (hfailed : w.graph.statusOf id = some .failed)
    (hmem : id ∈ w.graph.failedPhaseIds) : (w.markPhaseMergeFailed id).graph = w.graph := by
  unfold PhaseOrchestrator.markPhaseMergeFailed
  rw [if_pos hfailed]
  exact if_pos hmem

theorem consistent_markPhaseMergeFailed (h : Consistent w.graph) :
    Consistent (w.markPhaseMergeFailed id).graph ↔ ∃ s, w.graph.statusOf id = some s ∧ s ≠ .running := by
  by_cases hfailed : w.graph.statusOf id = some .failed
  · rw [markPhaseMergeFailed_of_failed hfailed ((h.failed.mem id).mpr hfailed)]
    exact ⟨fun _ => ⟨_, hfailed, by decide⟩, fun _ => h⟩
  · have hnot : id ∉ w.graph.failedPhaseIds := fun hmem => hfailed ((h.failed.mem id).mp hmem)
    obtain ⟨hactive, hcompleted, hlisted⟩ := markPhaseMergeFailed_of_not hfailed hnot
    have hstatus := statusOf_markPhaseMergeFailed w id
    constructor
    · rintro ⟨hrunning, -, hfail⟩
      rw [hstatus, hactive] at hrunning
      rw [hstatus, hlisted] at hfail
      obtain ⟨s, hs, -⟩ := h.failed.not_concat hfail
      refine ⟨s, hs, ?_⟩
      rintro rfl
      exact h.active.not_other hrunning (by decide) hs
    · rintro ⟨s, hs, hne⟩
      have hother : s ≠ .failed := fun heq => hfailed (heq ▸ hs)
      refine ⟨?_, ?_, ?_⟩
      · rw [hstatus, hactive]
        exact h.active.other (by rw [hs]; simpa using hne) (by decide)
      · rw [hstatus, hcompleted]
        exact h.completed.filter (by decide)
      · rw [hstatus, hlisted]
        exact h.failed.concat hs hother

theorem consistent_markPhaseMergeFailed_twice (h : Consistent w.graph) :
    Consistent ((w.markPhaseMergeFailed id).markPhaseMergeFailed id).graph ↔
      ∃ s, w.graph.statusOf id = some s ∧ s ≠ .running := by
  rw [← consistent_markPhaseMergeFailed h]
  by_cases hfailed : w.graph.statusOf id = some .failed
  · have hsame := markPhaseMergeFailed_of_failed hfailed ((h.failed.mem id).mpr hfailed)
    rw [markPhaseMergeFailed_of_failed (hsame ▸ hfailed) (hsame ▸ (h.failed.mem id).mpr hfailed)]
  · cases hs : w.graph.statusOf id with
    | some s =>
        have hstatus : (w.markPhaseMergeFailed id).graph.statusOf id = some .failed := by
          rw [statusOf_markPhaseMergeFailed, setStatus_self hs]
        rw [markPhaseMergeFailed_of_failed hstatus (mem_markPhaseMergeFailed w id)]
    | none =>
        -- the list has a phase that is not in the graph
        have hlie : ∀ w : PhaseOrchestrator, w.graph.statusOf id = none →
            ¬ Consistent (w.markPhaseMergeFailed id).graph := by
          intro w hnone hg
          have hmem := (hg.failed.mem id).mp (mem_markPhaseMergeFailed w id)
          rw [statusOf_markPhaseMergeFailed, setStatus, if_pos rfl, hnone] at hmem
          cases hmem
        refine iff_of_false (hlie _ ?_) (hlie w hs)
        rw [statusOf_markPhaseMergeFailed, setStatus, if_pos rfl, hs]
        rfl

/-! ## Several statuses at once -/

/-- `stop` pauses no phase that a list has. -/
def StopKeeps (w : PhaseOrchestrator) : Prop := ∀ id ∈ w.runningPhases, ∀ s, w.graph.statusOf id = some s →
  s ≠ .running ∧ s ≠ .completed ∧ s ≠ .failed

theorem foldl_pause (ids : List PhaseId) (g : PhaseGraph) :
    (ids.foldl (fun g id => g.updatePhaseStatus id .paused) g).statusOf = (fun id =>
        if id ∈ ids then (g.statusOf id).map fun _ => .paused else g.statusOf id) ∧
      (ids.foldl (fun g id => g.updatePhaseStatus id .paused) g).activePhaseIds = g.activePhaseIds ∧
      (ids.foldl (fun g id => g.updatePhaseStatus id .paused) g).completedPhaseIds = g.completedPhaseIds ∧
      (ids.foldl (fun g id => g.updatePhaseStatus id .paused) g).failedPhaseIds = g.failedPhaseIds := by
  induction ids generalizing g with
  | nil => simp
  | cons id ids ih =>
      obtain ⟨hstatus, hlists⟩ := ih (g.updatePhaseStatus id .paused)
      refine ⟨?_, hlists⟩
      rw [List.foldl_cons, hstatus, statusOf_updatePhaseStatus]
      funext id'
      by_cases heq : id = id'
      · subst heq
        simp only [setStatus, ↓reduceIte, Option.map_map, List.mem_cons, true_or]
        split <;> rfl
      · simp only [setStatus_of_ne heq, List.mem_cons, Ne.symm heq, false_or]

theorem consistent_stop (h : Consistent w.graph) : Consistent w.stop.graph ↔ StopKeeps w := by
  obtain ⟨hstatus, hactive, hcompleted, hfailed⟩ := foldl_pause w.runningPhases w.graph
  constructor
  · intro h' id hid s hs
    have hpaused : w.stop.graph.statusOf id = some .paused := by
      refine (congrFun hstatus id).trans ?_
      rw [if_pos hid, hs]
      rfl
    refine ⟨?_, ?_, ?_⟩
    · rintro rfl
      have hmem : id ∈ w.stop.graph.activePhaseIds := hactive.symm ▸ (h.active.mem id).mpr hs
      rw [h'.active.mem, hpaused] at hmem
      cases hmem
    · rintro rfl
      have hmem : id ∈ w.stop.graph.completedPhaseIds := hcompleted.symm ▸ (h.completed.mem id).mpr hs
      rw [h'.completed.mem, hpaused] at hmem
      cases hmem
    · rintro rfl
      have hmem : id ∈ w.stop.graph.failedPhaseIds := hfailed.symm ▸ (h.failed.mem id).mpr hs
      rw [h'.failed.mem, hpaused] at hmem
      cases hmem
  · intro hkeeps
    have hlists : ∀ {ids t}, Lists w.graph.statusOf ids t →
        (t = .running ∨ t = .completed ∨ t = .failed) → Lists w.stop.graph.statusOf ids t := by
      intro ids t hl ht
      refine ⟨hl.nodup, fun id => (hl.mem id).trans ?_⟩
      rw [show w.stop.graph.statusOf id = _ from congrFun hstatus id]
      split
      · rename_i hid
        cases hs : w.graph.statusOf id with
        | none => simp
        | some s =>
            have hne := hkeeps id hid s hs
            rcases ht with rfl | rfl | rfl <;> simp [hne]
      · rfl
    refine ⟨?_, ?_, ?_⟩
    · rw [show w.stop.graph.activePhaseIds = _ from hactive]
      exact hlists h.active (by simp)
    · rw [show w.stop.graph.completedPhaseIds = _ from hcompleted]
      exact hlists h.completed (by simp)
    · rw [show w.stop.graph.failedPhaseIds = _ from hfailed]
      exact hlists h.failed (by simp)

theorem resetTasks_status (p : PhaseNode) : p.resetTasks.status = p.status := rfl

theorem normalizePhase_status (p : PhaseNode) :
    (PhaseGraph.normalizePhase p).status = if p.status = .running then .pending else p.status := by
  unfold PhaseGraph.normalizePhase
  by_cases hrunning : p.status = .running
  · simp only [hrunning, ↓reduceIte]
    rfl
  · simp only [hrunning, ↓reduceIte]
    split
    · exact resetTasks_status p
    · rfl

theorem get?_foldl_modify {f : PhaseNode → PhaseNode} {ids : List PhaseId} (hnodup : ids.Nodup)
    (m : JsMap PhaseId PhaseNode) (id : PhaseId) :
    (ids.foldl (fun m id => m.modify id f) m).get? id =
      if id ∈ ids then (m.get? id).map f else m.get? id := by
  induction ids generalizing m with
  | nil => simp
  | cons id' ids ih =>
      obtain ⟨hnot, hnodup⟩ := List.nodup_cons.mp hnodup
      rw [List.foldl_cons, ih hnodup, JsMap.get?_modify]
      by_cases heq : id' = id
      · subst heq
        simp [hnot]
      · simp [heq, Ne.symm heq]

theorem get?_normalizeForResume (g : PhaseGraph) (id : PhaseId) :
    g.normalizeForResume.phases.get? id = (g.phases.get? id).map PhaseGraph.normalizePhase := by
  refine (get?_foldl_modify g.phases.nodup g.phases id).trans ?_
  split
  · rfl
  · rename_i hnot
    have hnone : g.phases.get? id = none := by
      by_contra hsome
      obtain ⟨p, hp⟩ := Option.ne_none_iff_exists'.mp hsome
      exact hnot (JsMap.mem_keys_iff.mpr ⟨p, hp⟩)
    rw [hnone]
    rfl

theorem Consistent.normalizeForResume (h : Consistent g) : Consistent g.normalizeForResume := by
  have hstatus : ∀ id, g.normalizeForResume.statusOf id =
      (g.statusOf id).map fun s => if s = .running then .pending else s := by
    intro id
    unfold PhaseGraph.statusOf
    rw [get?_normalizeForResume, Option.map_map, Option.map_map]
    exact congrArg (fun f => (g.phases.get? id).map f) (funext normalizePhase_status)
  have hlists : ∀ {ids t}, Lists g.statusOf ids t → t ≠ .running → t ≠ .pending →
      Lists g.normalizeForResume.statusOf ids t := by
    intro ids t hl hrunning hpending
    refine ⟨hl.nodup, fun id => (hl.mem id).trans ?_⟩
    rw [hstatus]
    cases g.statusOf id with
    | none => simp
    | some s =>
        by_cases hs : s = .running
        · simp [hs, Ne.symm hrunning, Ne.symm hpending]
        · simp [hs]
  refine ⟨⟨List.nodup_nil, fun id => ?_⟩, hlists h.completed (by decide) (by decide),
    hlists h.failed (by decide) (by decide)⟩
  rw [hstatus]
  cases g.statusOf id with
  | none => simp [PhaseGraph.normalizeForResume]
  | some s =>
      by_cases hs : s = .running
      · simp [hs, PhaseGraph.normalizeForResume]
      · simp [hs, PhaseGraph.normalizeForResume]

end WrongStack.AutoPhase
