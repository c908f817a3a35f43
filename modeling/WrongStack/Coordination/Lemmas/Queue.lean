import WrongStack.Coordination.Lemmas.Steps

/-!
# The queue

Conservation: every assigned task is completed, executing or pending, counted with multiplicity.
Work conservation: what `tryDispatchNext` leaves in the queue cannot run, and which operations let
a task get stuck behind it.
-/

namespace WrongStack.Coordination

open Lib State

variable {s s' : State}

/-! ## Conservation -/

def Event.completedId : Event → Option String
  | .taskCompleted _ result => some result.taskId
  | _ => none

namespace State

def completedIds (s : State) : List String := s.events.filterMap Event.completedId

def executingIds (s : State) : List String := s.runs.map fun r => r.task.id

def pendingIds (s : State) : List String := s.pendingTasks.map TaskSpec.id

def taskIds (s : State) : List String := s.completedIds ++ s.executingIds ++ s.pendingIds

end State

def Op.assignedIds : Op → List String
  | .assign task => [task.id]
  | _ => []

theorem count_taskIds (a : String) :
    s.taskIds.count a = s.completedIds.count a + s.executingIds.count a + s.pendingIds.count a := by
  simp [taskIds, Nat.add_assoc]

theorem completedIds_aborted (message : TaskSpec → String) (ts : List TaskSpec) :
    (ts.map fun t => Event.taskCompleted t (t.abortedResult (message t))).filterMap
      Event.completedId = ts.map TaskSpec.id := by
  induction ts with
  | nil => rfl
  | cons t ts ih => simpa [Event.completedId, TaskSpec.abortedResult] using ih

theorem drain_taskIds (message : String) :
    (s.drainPendingAsAborted message).taskIds.Perm s.taskIds := by
  rw [List.perm_iff_count]
  intro a
  simp only [count_taskIds, drainPendingAsAborted_eq, completedIds, executingIds, pendingIds,
    List.filterMap_append, completedIds_aborted (fun _ => message), List.count_append,
    List.map_nil, List.count_nil]
  omega

theorem startRun_taskIds (hr : s.config.runner = true) (id : String) (entry : SubagentEntry)
    {t : TaskSpec} {front back : List TaskSpec} (hq : s.pendingTasks = front ++ t :: back) :
    ({ s with pendingTasks := front ++ back }.startRun id entry t).taskIds.Perm s.taskIds := by
  rw [List.perm_iff_count]
  intro a
  simp only [count_taskIds, completedIds, executingIds, pendingIds, startRun, hr, emit, ↓reduceIte,
    List.filterMap_append, List.map_append, List.count_append, hq, List.map_cons, List.map_nil,
    List.count_cons, List.count_nil]
  simp only [List.filterMap_cons, Event.completedId, List.filterMap_nil, List.count_nil]
  omega

theorem tryDispatchNext_taskIds (h : Counted s) : s.tryDispatchNext.taskIds.Perm s.taskIds := by
  refine (tryDispatchNext_invariant (I := fun x => Counted x ∧ x.taskIds.Perm s.taskIds)
    ?_ ?_ ⟨h, .refl _⟩).2
  · intro x m hx
    exact ⟨hx.1.congr (drain_accounts m), (drain_taskIds m).trans hx.2⟩
  · intro x id entry t front back hx _ hq he _ ht
    have hx' : Counted { x with pendingTasks := front ++ back } := hx.1.congr rfl
    exact ⟨hx'.startRun he ht, (startRun_taskIds hx.1.runner id entry hq).trans hx.2⟩

theorem freed_taskIds (h : Counted s) {r : Run} (hr : r ∈ s.runs) (how : Settlement) :
    (s.freed r how).taskIds.Perm s.taskIds := by
  obtain ⟨-, -, hruns, -, -, hpend, -⟩ := freed_eq s r how
  obtain ⟨task, result, hev, hid⟩ := freed_events s r how
  have hp := ((perm_cons_filter_ne h.runIds hr).map fun x => x.task.id).count_eq
  rw [List.perm_iff_count]
  intro a
  have hpa := hp a
  simp only [count_taskIds, completedIds, executingIds, pendingIds, hruns, hpend, hev,
    List.filterMap_append, List.filterMap_cons, List.filterMap_nil, Event.completedId, hid,
    List.count_append, List.map_cons, List.count_cons, List.count_nil] at hpa ⊢
  omega

theorem stop_taskIds (id : String) : (s.stop id).taskIds = s.taskIds := by
  unfold stop
  split
  · rfl
  · simp [taskIds, completedIds, executingIds, pendingIds, Event.completedId]

theorem retargetIn_ids (taskId : String) (subagentId : Option String) (ts : List TaskSpec) :
    (retargetIn taskId subagentId ts).map TaskSpec.id = ts.map TaskSpec.id := by
  induction ts with
  | nil => rfl
  | cons t ts ih =>
      simp only [retargetIn]
      split <;> simp [ih]

theorem remove_taskIds (id : String) : (s.remove id).taskIds.Perm s.taskIds := by
  rcases remove_cases s id with ⟨heq, -⟩ | ⟨p, message, -, heq⟩
  · rw [heq]
  rw [List.perm_iff_count]
  intro a
  have hpart := ((List.filter_append_perm (fun t : TaskSpec => t.subagentId == some id)
    s.pendingTasks).map TaskSpec.id).count_eq a
  simp only [heq, count_taskIds, completedIds, executingIds, pendingIds, List.filterMap_append,
    completedIds_aborted, List.map_append, List.count_append] at hpart ⊢
  simp only [bne]
  omega

theorem step_taskIds (h : Counted s) (op : Op) :
    (step s op).taskIds.Perm (s.taskIds ++ op.assignedIds) := by
  cases op with
  | spawn requested randomUUID =>
      rcases spawn_cases s requested randomUUID with heq | ⟨id, -, -, -, heq⟩
      · simp [heq, Op.assignedIds]
      · rw [heq]
        simp [taskIds, completedIds, executingIds, pendingIds, List.filterMap_cons,
          Event.completedId, Op.assignedIds]
  | assign task =>
      refine (tryDispatchNext_taskIds
        (s := { s with pendingTasks := s.pendingTasks ++ [task] }) (h.congr rfl)).trans ?_
      simp [taskIds, completedIds, executingIds, pendingIds, Op.assignedIds]
  | retargetPendingTask taskId subagentId =>
      change (s.retargetPendingTask taskId subagentId).1.taskIds.Perm _
      rcases retargetPendingTask_cases s taskId subagentId with heq | ⟨-, heq⟩
      · simp [heq, Op.assignedIds]
      · rw [heq]
        refine (tryDispatchNext_taskIds
          (s := { s with pendingTasks := retargetIn taskId subagentId s.pendingTasks })
          (h.congr rfl)).trans ?_
        simp [taskIds, completedIds, executingIds, pendingIds, Op.assignedIds, retargetIn_ids]
  | stop id => simp [step, stop_taskIds, Op.assignedIds]
  | stopAll =>
      refine (stopAll_invariant (I := fun x => x.taskIds.Perm s.taskIds) ?_ ?_ (.refl _)).trans ?_
      · exact fun x m hx => (drain_taskIds m).trans hx
      · exact fun x id hx => by rw [stop_taskIds]; exact hx
      · simp [Op.assignedIds]
  | remove id =>
      simp only [Op.assignedIds, List.append_nil]
      exact remove_taskIds id
  | setMaxConcurrent n =>
      rcases setMaxConcurrent_cases s n with heq | ⟨m, heq⟩
      · simp [heq, Op.assignedIds]
      · rw [heq]
        refine (tryDispatchNext_taskIds
          (s := { s with config := { s.config with maxConcurrent := some m } })
          (h.congr rfl)).trans ?_
        simp [taskIds, completedIds, executingIds, pendingIds, Op.assignedIds]
  | settle runId how =>
      simp only [Op.assignedIds, List.append_nil]
      change (s.settle runId how).taskIds.Perm _
      rcases settle_cases h runId how with heq | ⟨r, hr, -, heq | ⟨e, he, heq⟩⟩
      · rw [heq]
      · rw [heq]
        exact (tryDispatchNext_taskIds (h.freed hr how)).trans (freed_taskIds h hr how)
      · rw [heq]
        have hnone : e.completedId = none := by
          cases e with
          | taskCompleted t r => exact absurd rfl (he t r)
          | _ => rfl
        have hsame : ((s.freed r how).tryDispatchNext.emit e).taskIds =
            (s.freed r how).tryDispatchNext.taskIds := by
          simp [taskIds, completedIds, executingIds, pendingIds, hnone]
        rw [hsame]
        exact (tryDispatchNext_taskIds (h.freed hr how)).trans (freed_taskIds h hr how)

theorem run_taskIds (h : Counted s) (ops : List Op) :
    (run step s ops).taskIds.Perm (s.taskIds ++ ops.flatMap Op.assignedIds) := by
  induction ops generalizing s with
  | nil => simp
  | cons op ops ih =>
      rw [run_cons, List.flatMap_cons, ← List.append_assoc]
      exact (ih (h.step op)).trans ((step_taskIds h op).append_right _)

/-! ## Work conservation -/

/-- `task` can be started as soon as there is a slot: the worker it is pinned to is idle, or it is
not pinned and some worker is idle. -/
def Runnable (s : State) (task : TaskSpec) : Prop :=
  match truthy task.subagentId with
  | some id => s.isIdleSubagent id = true
  | none => ∃ id ∈ s.subagents.keys, s.isIdleSubagent id = true

def PinnedToStopped (s : State) (task : TaskSpec) : Prop :=
  ∃ id ∈ task.subagentId, (s.view id).map Prod.snd = some .stopped

instance (s : State) (task : TaskSpec) : Decidable (Runnable s task) :=
  match h : truthy task.subagentId with
  | some id => decidable_of_iff (s.isIdleSubagent id = true) (by simp [Runnable, h])
  | none => decidable_of_iff (∃ id ∈ s.subagents.keys, s.isIdleSubagent id = true)
      (by simp [Runnable, h])

instance (s : State) (task : TaskSpec) : Decidable (PinnedToStopped s task) :=
  inferInstanceAs (Decidable (∃ id ∈ task.subagentId, _))

theorem pinnedToStopped_iff {t : TaskSpec} :
    PinnedToStopped s t ↔ ∃ id k, t.subagentId = some id ∧ s.view id = some (k, .stopped) := by
  simp only [PinnedToStopped, Option.mem_def, Option.map_eq_some_iff, Prod.exists,
    exists_eq_right]
  constructor
  · rintro ⟨id, hid, k, hv⟩
    exact ⟨id, k, hid, hv⟩
  · rintro ⟨id, k, hid, hv⟩
    exact ⟨id, hid, k, hv⟩

theorem isIdleSubagent_live {id : String} (h : s.isIdleSubagent id = true) :
    s.hasLiveSubagent = true := by
  obtain ⟨⟨k, hv⟩, ht⟩ := isIdleSubagent_view.mp h
  exact hasLiveSubagent_iff.mpr (.inr ⟨id, k, _, hv, by simp, ht⟩)

/-- No entry has the empty id, so a queued task without a target is not runnable. -/
theorem not_runnable_of_targetOf (h0 : s.view "" = none) {t : TaskSpec} (h : s.targetOf t = none) :
    ¬ Runnable s t := by
  have hempty : ∀ id, s.isIdleSubagent id = true → id ≠ "" := by
    rintro id hi rfl
    obtain ⟨⟨k, hv⟩, -⟩ := isIdleSubagent_view.mp hi
    simp [h0] at hv
  unfold Runnable
  unfold targetOf at h
  cases htr : truthy t.subagentId with
  | some id =>
      simp only [htr] at h ⊢
      intro hi
      simp [hi, truthy, hempty id hi] at h
  | none =>
      simp only [htr] at h ⊢
      rintro ⟨id, -, hi⟩
      cases hf : s.findIdleSubagent with
      | none => simp [findIdleSubagent_none hf id] at hi
      | some id' => simp [hf, truthy, hempty id' (findIdleSubagent_some hf)] at h

theorem hasSlot_congr (hc : s'.config = s.config) (hf : s'.inFlight = s.inFlight) :
    s'.hasSlot = s.hasSlot :=
  decide_eq_decide.mpr (by rw [maxConcurrent, maxConcurrent, hc, hf])

/-- With a free slot, nothing in the queue is runnable or pinned to a stopped subagent. -/
def QueueMoves (s : State) : Prop :=
  s.subagents.size ≠ 0 → s.hasSlot = true →
    ∀ t ∈ s.pendingTasks, ¬ Runnable s t ∧ ¬ PinnedToStopped s t

/-- With a free slot and a live subagent, nothing in the queue is pinned to a stopped one. -/
def NoDeadPin (s : State) : Prop :=
  s.hasSlot = true → s.hasLiveSubagent = true → ∀ t ∈ s.pendingTasks, ¬ PinnedToStopped s t

instance (s : State) : Decidable (QueueMoves s) := by
  unfold QueueMoves
  infer_instance

instance (s : State) : Decidable (NoDeadPin s) := by
  unfold NoDeadPin
  infer_instance

theorem startRun_view_empty (h0 : s.view "" = none) {id : String} {entry : SubagentEntry}
    (he : s.subagents.get? id = some entry) (t : TaskSpec) : (s.startRun id entry t).view "" = none := by
  rw [startRun_view, if_neg, h0]
  rintro rfl
  simp [view_of_get? he] at h0

theorem tryDispatchNext_view_empty (h0 : s.view "" = none) : s.tryDispatchNext.view "" = none := by
  refine tryDispatchNext_invariant (I := fun x => x.view "" = none) ?_ ?_ h0
  · intro x m hx
    rw [drainPendingAsAborted_eq]
    exact hx
  · intro x id entry t front back hx _ _ he _ _
    exact startRun_view_empty (s := { x with pendingTasks := front ++ back }) hx he t

/-- Starting a task leaves no dead pin: there was a live subagent and a slot before it, and no
other worker changes. -/
theorem NoDeadPin.startRun (h : NoDeadPin s) (hslot : s.hasSlot = true) {id : String}
    {entry : SubagentEntry} {t : TaskSpec} {front back : List TaskSpec}
    (hq : s.pendingTasks = front ++ t :: back) (he : s.subagents.get? id = some entry)
    (hi : entry.status = .idle) (ht : id ∉ s.terminating) :
    NoDeadPin ({ s with pendingTasks := front ++ back }.startRun id entry t) := by
  intro _ _ u hu hpin
  have hlive : s.hasLiveSubagent = true := isIdleSubagent_live (isIdleSubagent_iff.mpr ⟨_, he, hi, ht⟩)
  rw [startRun_pendingTasks] at hu
  have hu' : u ∈ s.pendingTasks := by
    rw [hq]
    rcases List.mem_append.mp hu with hu | hu <;> simp [hu]
  obtain ⟨id', k, hid, hv⟩ := pinnedToStopped_iff.mp hpin
  rw [startRun_view] at hv
  split at hv
  · simp at hv
  · exact h hslot hlive u hu' (pinnedToStopped_iff.mpr ⟨id', k, hid, hv⟩)

/-- What `tryDispatchNext` leaves in the queue while there is a slot cannot run. -/
theorem NoDeadPin.tryDispatchNext (h : NoDeadPin s) (h0 : s.view "" = none) :
    QueueMoves s.tryDispatchNext := by
  have hd := dispatch_tryDispatchNext s
  generalize s.tryDispatchNext = s' at hd
  induction hd with
  | full hslot => exact fun _ hs => absurd hs (by simp [hslot])
  | empty hq => exact fun _ _ t ht => by simp [hq] at ht
  | stuck hnone hlive =>
      exact fun _ hs t ht => ⟨not_runnable_of_targetOf h0 (hnone t ht), h hs hlive t ht⟩
  | drain message _ _ _ =>
      intro _ _ t ht
      rw [drainPendingAsAborted_eq] at ht
      cases ht
  | @start s s' id entry t front back hslot hq _ he hi ht _ ih =>
      exact ih (h.startRun hslot hq he hi ht)
        (startRun_view_empty (s := { s with pendingTasks := front ++ back }) h0 he t)

theorem Runnable.mono {t : TaskSpec} (h : ∀ id, s.isIdleSubagent id = true → s'.isIdleSubagent id = true)
    (ht : Runnable s t) : Runnable s' t := by
  unfold Runnable at ht ⊢
  split at ht
  · exact h _ ht
  · obtain ⟨id, -, hi⟩ := ht
    obtain ⟨e, he, -⟩ := isIdleSubagent_iff.mp (h id hi)
    exact ⟨id, JsMap.mem_keys_iff.mpr (by simp [he]), h id hi⟩

/-- Without entries nothing is idle or stopped, so the proviso of `QueueMoves` costs nothing. -/
theorem QueueMoves.of_slot (h : QueueMoves s) (hslot : s.hasSlot = true) :
    ∀ t ∈ s.pendingTasks, ¬ Runnable s t ∧ ¬ PinnedToStopped s t := by
  intro t ht
  by_cases hsize : s.subagents.size = 0
  · have hnone := JsMap.size_eq_zero.mp hsize
    constructor
    · unfold Runnable
      split
      · simp [isIdleSubagent, hnone]
      · simp [isIdleSubagent, hnone]
    · rw [pinnedToStopped_iff]
      rintro ⟨id, k, -, hv⟩
      simp [view, hnone] at hv
  · exact h hsize hslot t ht

theorem PinnedToStopped.of_view {t : TaskSpec} (h : PinnedToStopped s' t)
    (hv : ∀ id k, t.subagentId = some id → s'.view id = some (k, .stopped) →
      ∃ k', s.view id = some (k', .stopped)) : PinnedToStopped s t := by
  obtain ⟨id, k, hid, hk⟩ := pinnedToStopped_iff.mp h
  obtain ⟨k', hk'⟩ := hv id k hid hk
  exact pinnedToStopped_iff.mpr ⟨id, k', hid, hk'⟩

theorem QueueMoves.remove (h : QueueMoves s) (id : String) : QueueMoves (s.remove id) := by
  rcases remove_cases s id with ⟨heq, -⟩ | ⟨p, message, -, heq⟩
  · rw [heq]
    exact h
  have hview := view_of_delete (s := s) (t := s.remove id) (by rw [heq])
  intro _ hslot t ht
  have hslot' : s.hasSlot = true := by rw [heq] at hslot; exact hslot
  have ht' : t ∈ s.pendingTasks := by
    rw [heq] at ht
    exact List.mem_of_mem_filter ht
  have hs := h.of_slot hslot' t ht'
  have hsome : ∀ x p, (s.remove id).view x = some p → id ≠ x ∧ s.view x = some p := by
    intro x p hv
    rw [hview] at hv
    split at hv
    · cases hv
    · rename_i hne
      exact ⟨hne, hv⟩
  constructor
  · refine fun hr => hs.1 (hr.mono fun x hi => ?_)
    obtain ⟨⟨k, hv⟩, hterm⟩ := isIdleSubagent_view.mp hi
    obtain ⟨hne, hv⟩ := hsome x _ hv
    refine isIdleSubagent_view.mpr ⟨⟨k, hv⟩, fun hx => hterm ?_⟩
    rw [heq]
    exact List.mem_filter.mpr ⟨hx, by simpa using Ne.symm hne⟩
  · exact fun hp => hs.2 (hp.of_view fun x k _ hv => ⟨k, (hsome x _ hv).2⟩)

theorem QueueMoves.stop (h : QueueMoves s) {id : String}
    (hid : s.hasSlot = true → s.subagents.has id = true → ∀ t ∈ s.pendingTasks, t.subagentId ≠ some id) :
    QueueMoves (s.stop id) := by
  cases hhas : s.subagents.has id with
  | false =>
      have hnone := JsMap.has_eq_false.mp hhas
      have heq : s.stop id = s := by simp [State.stop, hnone]
      rw [heq]
      exact h
  | true =>
      obtain ⟨hc, hf, -, -, -, hpend⟩ := stop_eq s id
      intro _ hslot t ht
      have hslot' : s.hasSlot = true := hasSlot_congr hc hf ▸ hslot
      rw [hpend] at ht
      have hs := h.of_slot hslot' t ht
      have hview := stop_view s id
      constructor
      · refine fun hr => hs.1 (hr.mono fun x hi => ?_)
        obtain ⟨⟨k, hv⟩, hterm⟩ := isIdleSubagent_view.mp hi
        rw [hview] at hv
        split at hv
        · obtain ⟨p, -, heq⟩ := Option.map_eq_some_iff.mp hv
          simp at heq
        · exact isIdleSubagent_view.mpr ⟨⟨k, hv⟩, fun hx => hterm (stop_terminating_mono id hx)⟩
      · refine fun hp => hs.2 (hp.of_view fun x k hx hv => ?_)
        rw [hview, if_neg fun e : id = x => hid hslot' hhas t ht (e ▸ hx)] at hv
        exact ⟨k, hv⟩

/-- A settlement gives back no stopped worker and takes none away. -/
theorem NoDeadPin.freed (hc : Counted s) (r : Run) (how : Settlement)
    (h : NoDeadPin { s with inFlight := s.inFlight - 1 }) : NoDeadPin (s.freed r how) := by
  obtain ⟨hconf, hf, -, -, -, hpend, hterm⟩ := freed_eq s r how
  have hview := freed_view s r how
  have hstop : ∀ id k, (s.freed r how).view id = some (k, .stopped) → s.view id = some (k, .stopped) := by
    intro id k hv
    rw [hview] at hv
    split at hv
    · obtain ⟨⟨k', st⟩, hv', heq⟩ := Option.map_eq_some_iff.mp hv
      simp only [Prod.mk.injEq, released] at heq
      obtain ⟨rfl, hst⟩ := heq
      split at hst
      · rename_i hstopped
        exact hstopped ▸ hv'
      · cases hst
    · exact hv
  intro hslot hlive t ht hpin
  rw [hpend] at ht
  refine h ?_ ?_ t ht (hpin.of_view fun x k _ hv => ⟨k, hstop x k hv⟩)
  · rw [← hslot]
    exact (hasSlot_congr (s := { s with inFlight := s.inFlight - 1 }) hconf hf).symm
  · change s.hasLiveSubagent = true
    rw [hasLiveSubagent_iff] at hlive ⊢
    rcases hlive with hnone | ⟨id, k, st, hv, hne, hnt⟩
    · refine .inl fun id => ?_
      have := hnone id
      rw [hview] at this
      split at this
      · exact Option.map_eq_none_iff.mp this
      · exact this
    · right
      have hs : ∃ st', s.view id = some (k, st') ∧ st' ≠ .stopped := by
        rw [hview] at hv
        split at hv
        · obtain ⟨⟨k', st'⟩, hv', heq⟩ := Option.map_eq_some_iff.mp hv
          simp only [Prod.mk.injEq] at heq
          obtain ⟨rfl, hst⟩ := heq
          refine ⟨st', hv', ?_⟩
          rintro rfl
          simp only [released, ↓reduceIte] at hst
          exact hne hst.symm
        · exact ⟨st, hv, hne⟩
      obtain ⟨st', hv', hne'⟩ := hs
      refine ⟨id, k, st', hv', hne', fun hx => ?_⟩
      obtain ⟨k', hk'⟩ := hc.terminating id hx
      rw [hv'] at hk'
      cases hk'
      exact hne' rfl

theorem QueueMoves.spawn (h : QueueMoves s) (requested : Option String) (randomUUID : Uuid)
    (hid : s.hasSlot = true → s.subagents.has ((truthy requested).getD randomUUID) = false →
      ∀ t ∈ s.pendingTasks, truthy t.subagentId ≠ none ∧
        truthy t.subagentId ≠ some ((truthy requested).getD randomUUID)) :
    QueueMoves (step s (.spawn requested randomUUID)) := by
  rcases spawn_cases s requested randomUUID with heq | ⟨id, -, hnone, hreq, heq⟩
  · rw [heq]
    exact h
  have hview := view_of_set (s := s) (t := step s (.spawn requested randomUUID)) (by rw [heq]; rfl)
  rw [heq] at hview ⊢
  rw [hreq] at hid
  intro _ hslot t ht
  have hslot' : s.hasSlot = true := hslot
  have hs := h.of_slot hslot' t ht
  obtain ⟨hpinned, hne⟩ := hid hslot' (JsMap.has_eq_false.mpr (view_eq_none.mp hnone)) t ht
  constructor
  · intro hr
    obtain ⟨x, hx⟩ := Option.ne_none_iff_exists'.mp hpinned
    refine hs.1 ?_
    simp only [Runnable, hx] at hr ⊢
    obtain ⟨⟨k, hv⟩, hterm⟩ := isIdleSubagent_view.mp hr
    rw [hview, if_neg fun e : id = x => hne (e ▸ hx)] at hv
    exact isIdleSubagent_view.mpr ⟨⟨k, hv⟩, hterm⟩
  · refine fun hp => hs.2 (hp.of_view fun x k _ hv => ?_)
    rw [hview] at hv
    split at hv
    · simp at hv
    · exact ⟨k, hv⟩

theorem step_view_empty (hc : Counted s) (h0 : s.view "" = none) (op : Op) :
    (step s op).view "" = none := by
  have hstop : ∀ x : State, ∀ id, x.view "" = none → (x.stop id).view "" = none := by
    intro x id hx
    rw [stop_view]
    split <;> simp [hx]
  have hfreed : ∀ r how, (s.freed r how).view "" = none := by
    intro r how
    rw [freed_view]
    split <;> simp [h0]
  cases op with
  | spawn requested randomUUID =>
      rcases spawn_cases s requested randomUUID with heq | ⟨id, hid, -, -, heq⟩
      · rw [heq, h0]
      · have hview := view_of_set (s := s) (t := step s (.spawn requested randomUUID))
          (by rw [heq]; rfl)
        rw [hview, if_neg hid, h0]
  | assign task => exact tryDispatchNext_view_empty h0
  | retargetPendingTask taskId subagentId =>
      change (s.retargetPendingTask taskId subagentId).1.view "" = none
      rcases retargetPendingTask_cases s taskId subagentId with heq | ⟨-, heq⟩
      · rw [heq, h0]
      · rw [heq]
        exact tryDispatchNext_view_empty h0
  | stop id => exact hstop s id h0
  | stopAll =>
      refine stopAll_invariant (I := fun x => x.view "" = none) ?_ hstop h0
      intro x m hx
      rw [drainPendingAsAborted_eq]
      exact hx
  | remove id =>
      rcases remove_cases s id with ⟨heq, -⟩ | ⟨p, message, -, heq⟩
      · change (s.remove id).view "" = none
        rw [heq, h0]
      · have hview := view_of_delete (s := s) (t := s.remove id) (by rw [heq])
        change (s.remove id).view "" = none
        rw [hview]
        split <;> simp [h0]
  | setMaxConcurrent n =>
      rcases setMaxConcurrent_cases s n with heq | ⟨m, heq⟩
      · rw [heq, h0]
      · rw [heq]
        exact tryDispatchNext_view_empty h0
  | settle runId how =>
      change (s.settle runId how).view "" = none
      rcases settle_cases hc runId how with heq | ⟨r, -, -, heq | ⟨e, -, heq⟩⟩
      · rw [heq, h0]
      · rw [heq]
        exact tryDispatchNext_view_empty (hfreed r how)
      · rw [heq]
        exact tryDispatchNext_view_empty (hfreed r how)

end WrongStack.Coordination

/-!
# The event log

Events are only added, and no result is stored without the event that carries it.
-/

namespace WrongStack.Coordination

open Lib State

variable {s s' s₁ : State}

/-- `s'` has the events of `s` and more, and every result that it stores anew is among these. -/
structure Logs (s s' : State) : Prop where
  completed : s.completedIds ⊆ s'.completedIds
  results : ∀ r ∈ s'.completedResults, r ∈ s.completedResults ∨ r.taskId ∈ s'.completedIds

theorem Logs.refl (s : State) : Logs s s := ⟨fun _ h => h, fun _ h => .inl h⟩

theorem Logs.trans (h : Logs s s₁) (h' : Logs s₁ s') : Logs s s' :=
  ⟨fun _ hx => h'.completed (h.completed hx), fun r hr => (h'.results r hr).elim
    (fun hr => (h.results r hr).imp_right fun hx => h'.completed hx) .inr⟩

theorem Logs.of_events {m : List Event} (he : s'.events = s.events ++ m)
    (hr : s'.completedResults = s.completedResults) : Logs s s' := by
  refine ⟨fun x hx => ?_, fun r h => .inl (hr ▸ h)⟩
  rw [completedIds, he, List.filterMap_append]
  exact List.mem_append_left _ hx

theorem logs_aborted (message : TaskSpec → String) (ts : List TaskSpec)
    (he : s'.events = s.events ++ ts.map fun t => .taskCompleted t (t.abortedResult (message t)))
    (hr : s'.completedResults = s.completedResults ++ ts.map fun t => t.abortedResult (message t)) :
    Logs s s' := by
  have hids : s'.completedIds = s.completedIds ++ ts.map TaskSpec.id := by
    rw [completedIds, he, List.filterMap_append, completedIds_aborted, completedIds]
  refine ⟨fun x hx => hids ▸ List.mem_append_left _ hx, fun r h => ?_⟩
  rw [hr, List.mem_append] at h
  refine h.imp_right fun h => ?_
  obtain ⟨t, ht, rfl⟩ := List.mem_map.mp h
  rw [hids]
  exact List.mem_append_right _ (List.mem_map.mpr ⟨t, ht, rfl⟩)

theorem logs_drain (s : State) (message : String) : Logs s (s.drainPendingAsAborted message) := by
  rw [drainPendingAsAborted_eq]
  exact logs_aborted (fun _ => message) s.pendingTasks rfl rfl

theorem logs_tryDispatchNext (s : State) : Logs s s.tryDispatchNext := by
  refine tryDispatchNext_invariant (I := Logs s) ?_ ?_ (.refl s)
  · exact fun x message hx => hx.trans (logs_drain x message)
  · intro x id entry t front back hx _ _ _ _ _
    have he : ∃ e, ({ x with pendingTasks := front ++ back }.startRun id entry t).events =
        x.events ++ [e] ∧ ({ x with pendingTasks := front ++ back }.startRun id entry t).completedResults =
          x.completedResults := by
      simp only [startRun]
      split <;> exact ⟨_, rfl, rfl⟩
    obtain ⟨e, he, hr⟩ := he
    exact hx.trans (.of_events he hr)

theorem logs_stop (s : State) (id : String) : Logs s (s.stop id) := by
  unfold State.stop
  split
  · exact .refl s
  · exact .of_events rfl rfl

theorem logs_settleSlot (s : State) (task : TaskSpec) (result : TaskResult) :
    Logs s ((s.settleSlot result).emit (.taskCompleted task result)) := by
  have hids : ((s.settleSlot result).emit (.taskCompleted task result)).completedIds =
      s.completedIds ++ [result.taskId] := by
    simp [completedIds, emit, settleSlot, Event.completedId]
  refine ⟨fun x hx => ?_, fun r hr => ?_⟩
  · rw [hids]
    exact List.mem_append_left _ hx
  · have hmem : r ∈ s.completedResults ++ [result] := by
      simp only [emit, settleSlot, trimCompleted] at hr
      exact List.mem_of_mem_drop hr
    refine (List.mem_append.mp hmem).imp_right fun h => ?_
    rw [hids, List.mem_singleton.mp h]
    exact List.mem_append_right _ (List.mem_singleton.mpr rfl)

theorem logs_freed (s : State) (r : Run) (how : Settlement) : Logs s (s.freed r how) := by
  obtain ⟨subagents, h⟩ := abortByWatchdog_eq
    { s with runs := s.runs.filter fun x => decide (x.runId ≠ r.runId) } r how
  have hfree : Logs s { s with runs := s.runs.filter (fun x => decide (x.runId ≠ r.runId)), subagents } :=
    .of_events (m := []) (List.append_nil s.events).symm rfl
  simp only [freed, h]
  exact hfree.trans (logs_settleSlot _ _ _)

theorem logs_settle (h : Counted s) (runId : Nat) (how : Settlement) :
    Logs s (s.settle runId how) := by
  rcases settle_cases h runId how with heq | ⟨r, -, -, heq | ⟨e, -, heq⟩⟩
  · rw [heq]
    exact .refl s
  · rw [heq]
    exact (logs_freed s r how).trans (logs_tryDispatchNext _)
  · rw [heq]
    exact ((logs_freed s r how).trans (logs_tryDispatchNext _)).trans (.of_events rfl rfl)

theorem logs_step (h : Counted s) (op : Op) : Logs s (step s op) := by
  cases op with
  | spawn requested randomUUID =>
      rcases spawn_cases s requested randomUUID with heq | ⟨id, -, -, -, heq⟩
      · rw [heq]
        exact .refl s
      · rw [heq]
        exact .of_events rfl rfl
  | assign task =>
      have hq : Logs s { s with pendingTasks := s.pendingTasks ++ [task] } :=
        .of_events (List.append_nil _).symm rfl
      exact hq.trans (logs_tryDispatchNext _)
  | retargetPendingTask taskId subagentId =>
      change Logs s (s.retargetPendingTask taskId subagentId).1
      rcases retargetPendingTask_cases s taskId subagentId with heq | ⟨-, heq⟩
      · rw [heq]
        exact .refl s
      · rw [heq]
        have hq : Logs s { s with pendingTasks := retargetIn taskId subagentId s.pendingTasks } :=
          .of_events (List.append_nil _).symm rfl
        exact hq.trans (logs_tryDispatchNext _)
  | stop id => exact logs_stop s id
  | stopAll =>
      refine stopAll_invariant (I := Logs s) ?_ ?_ (.refl s)
      · exact fun x m hx => hx.trans (logs_drain x m)
      · exact fun x id hx => hx.trans (logs_stop x id)
  | remove id =>
      change Logs s (s.remove id)
      rcases remove_cases s id with ⟨heq, -⟩ | ⟨p, message, -, heq⟩
      · rw [heq]
        exact .refl s
      · rw [heq]
        exact logs_aborted message _ rfl rfl
  | setMaxConcurrent n =>
      rcases setMaxConcurrent_cases s n with heq | ⟨m, heq⟩
      · rw [heq]
        exact .refl s
      · rw [heq]
        have hq : Logs s { s with config := { s.config with maxConcurrent := some m } } :=
          .of_events (List.append_nil _).symm rfl
        exact hq.trans (logs_tryDispatchNext _)
  | settle runId how => exact logs_settle h runId how

end WrongStack.Coordination
