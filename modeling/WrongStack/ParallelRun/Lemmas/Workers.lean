import WrongStack.Coordination.Lemmas.Queue
import WrongStack.ParallelRun.Lemmas.Progress

/-!
# The workers of a task

The calls of `executeOne` and the coordinator keep their books apart. `Tracked` relates them: a worker
that has not settled is awaited by the call that assigned it, as long as no timer of `awaitTasks` fires.
-/

namespace WrongStack.ParallelRun

open Lib Sdd

namespace State

open Board

variable {s s' : State} {t : TaskId} {a : Await} {op : Op} {e : Nat}

/-- The timer of `awaitTasks` fires on no worker that has not settled. -/
def NoTimeout (s : State) : Op → Prop
  | .awaitTimeout t => ∀ id cached since, s.running.get? t = some (.awaitTasks id cached since) →
      (s.awaited id cached since).isSome = true
  | _ => True

/-- What a call waits for has been assigned, and everything that was assigned is awaited or settled. -/
structure Tracked (s : State) : Prop where
  counted : Coordination.Counted s.coordinator
  ids : s.coordinator.taskIds.Perm (s.assigned.map Prod.snd)
  nodup : (s.assigned.map Prod.snd).Nodup
  recorded : ∀ r ∈ s.coordinator.completedResults, r.taskId ∈ s.coordinator.completedIds
  cached : ∀ t id cached since, s.running.get? t = some (.awaitTasks id cached since) →
    cached.isSome = true → id ∈ s.coordinator.completedIds
  settled : ∀ p ∈ s.assigned, p.2 ∈ s.coordinator.completedIds ∨
    ∃ cached since, s.running.get? p.1 = some (.awaitTasks p.2 cached since)

theorem tracked_init (config : Config) (board : Board) : Tracked (init config board) where
  counted := Coordination.counted_init rfl
  ids := .refl _
  nodup := List.nodup_nil
  recorded := by simp [init, Coordination.init]
  cached := fun t id cached since h => by simp [init] at h
  settled := by simp [init]

theorem Tracked.not_live (h : Tracked s) {id : String} (hid : id ∈ s.coordinator.completedIds) :
    id ∉ s.coordinator.executingIds ∧ id ∉ s.coordinator.pendingIds := by
  have hcount := h.ids.count_eq id
  rw [Coordination.count_taskIds] at hcount
  have hle : (s.assigned.map Prod.snd).count id ≤ 1 := List.nodup_iff_count_le_one.mp h.nodup id
  have hpos := List.count_pos_iff.mpr hid
  constructor
  · intro hm
    have := List.count_pos_iff.mpr hm
    omega
  · intro hm
    have := List.count_pos_iff.mpr hm
    omega

theorem Tracked.awaited_completed (h : Tracked s) {id : String} {cached : Option Coordination.TaskResult}
    {since : Nat} (hget : s.running.get? t = some (.awaitTasks id cached since))
    (hw : (s.awaited id cached since).isSome = true) : id ∈ s.coordinator.completedIds := by
  cases cached with
  | some r => exact h.cached t id (some r) since hget rfl
  | none =>
      obtain ⟨result, hresult⟩ := Option.isSome_iff_exists.mp hw
      have hfind : (s.coordinator.events.drop since).findSome? (completedResult id) = some result := hresult
      obtain ⟨l, ev, l', hev, hone, -⟩ := List.findSome?_eq_some_iff.mp hfind
      have hmem : ev ∈ s.coordinator.events :=
        List.mem_of_mem_drop (hev ▸ List.mem_append_right l List.mem_cons_self)
      refine List.mem_filterMap.mpr ⟨ev, hmem, ?_⟩
      cases ev with
      | taskCompleted task r =>
          simp only [completedResult, Option.ite_none_right_eq_some] at hone
          rw [Coordination.Event.completedId, hone.1]
      | _ => simp [completedResult] at hone

/-- A step of the coordinator alone that assigns nothing. -/
theorem Tracked.coordinator (h : Tracked s) (cop : Coordination.Op) (hop : cop.assignedIds = [])
    (hc : s'.coordinator = Coordination.step s.coordinator cop) (hr : s'.running = s.running)
    (ha : s'.assigned = s.assigned) : Tracked s' := by
  have hlog := Coordination.logs_step h.counted cop
  have hperm := Coordination.step_taskIds h.counted cop
  rw [hop, List.append_nil] at hperm
  rw [← hc] at hlog hperm
  refine ⟨hc ▸ h.counted.step cop, ha ▸ hperm.trans h.ids, ha ▸ h.nodup, fun r hr => ?_, ?_, ?_⟩
  · exact (hlog.results r hr).elim (fun hr => hlog.completed (h.recorded r hr)) id
  · rw [hr]
    exact fun t id cached since hget hc => hlog.completed (h.cached t id cached since hget hc)
  · rw [hr, ha]
    exact fun p hp => (h.settled p hp).imp_left fun hx => hlog.completed hx

theorem Tracked.grow (h : Tracked s) (hc : s'.coordinator = s.coordinator)
    (ha : s'.assigned = s.assigned)
    (hr : ∀ t a, s.running.get? t = some a → s'.running.get? t = some a)
    (hnew : ∀ t id cached since, s'.running.get? t = some (.awaitTasks id cached since) →
      s.running.get? t = some (.awaitTasks id cached since)) : Tracked s' := by
  refine ⟨hc ▸ h.counted, by rw [hc, ha]; exact h.ids, ha ▸ h.nodup, by rw [hc]; exact h.recorded, ?_, ?_⟩
  · rw [hc]
    exact fun t id cached since hget => h.cached t id cached since (hnew t id cached since hget)
  · rw [hc, ha]
    exact fun p hp => (h.settled p hp).imp_right fun ⟨cached, since, hget⟩ =>
      ⟨cached, since, hr _ _ hget⟩

theorem Tracked.congr (h : Tracked s) (hc : s'.coordinator = s.coordinator)
    (ha : s'.assigned = s.assigned) (hr : s'.running = s.running) : Tracked s' :=
  h.grow hc ha (fun _ _ hx => hr ▸ hx) fun _ _ _ _ hx => hr ▸ hx

theorem head_workers (s : State) (e : Nat) : (s.head e).coordinator = s.coordinator ∧
    (s.head e).assigned = s.assigned := by
  rcases head_cases s e with heq | ⟨heq, -⟩ <;>
    · rw [heq]
      exact ⟨rfl, rfl⟩

theorem Tracked.head (h : Tracked s) (e : Nat) : Tracked (s.head e) :=
  h.congr (head_workers s e).1 (head_workers s e).2 (head_fields s e).2.2.1

theorem Tracked.fill (h : Tracked s) : Tracked s.fill := by
  refine fill_induction h (fun s' t h hready _ => ?_) fun s' h _ => h.congr rfl rfl rfl
  obtain ⟨-, -, hnone⟩ := mem_ready.mp hready
  have hget : ∀ x, (s'.dispatch t).running.get? x =
      if t = x then some .allocateWorktrees else s'.running.get? x := fun x => JsMap.get?_set ..
  refine h.grow rfl rfl (fun x a hx => ?_) fun x id cached since hx => ?_
  · rw [hget, if_neg, hx]
    rintro rfl
    simp [hnone] at hx
  · rw [hget] at hx
    split at hx
    · simp at hx
    · exact hx

theorem Tracked.turn (h : Tracked s) (e : Nat) : Tracked (s.turn e) := by
  have hf := h.fill
  rcases turn_cases s e with ⟨-, heq⟩ | ⟨-, ⟨-, heq⟩ | ⟨-, ⟨-, heq⟩ | heq⟩⟩
  · rw [heq]
    exact h.congr rfl rfl rfl
  · rw [heq]
    rcases quiesce_cases s.fill e with ⟨d, hq⟩ | ⟨s₁, hsw, hq⟩
    · rw [hq]
      exact hf.congr rfl rfl rfl
    · rw [hq]
      exact (hf.congr hsw.coordinator hsw.assigned hsw.running).head e
  · rw [heq]
    exact hf.head e
  · rw [heq]
    exact hf.congr rfl rfl rfl

/-! ## The calls -/

/-- Only a call whose worktree is allocated comes to wait for a worker. -/
theorem weight_le (ha : a ≠ .allocateWorktrees) : a.weight ≤ 29 := by
  have hm : ∀ m : Worktree.MergeStage, m.weight ≤ 8 := fun m => by
    cases m <;> simp [Worktree.MergeStage.weight]
  cases a with
  | allocateWorktrees => exact absurd rfl ha
  | integrateWorktree stage =>
      cases stage with
      | merging before m =>
          have := hm m
          simp only [Await.weight, Worktree.Stage.weight]
          omega
      | _ => simp [Await.weight, Worktree.Stage.weight]
  | resolveWorktrees stage =>
      cases stage with
      | merging m =>
          have := hm m
          simp only [Await.weight, ResolveStage.weight]
          omega
      | _ => simp [Await.weight, ResolveStage.weight]
  | _ => simp [Await.weight]

/-- A call goes on that waits for no worker, or no longer has to. -/
theorem Tracked.leaves (h : Tracked s) (hc : s'.coordinator = s.coordinator)
    (ha : s'.assigned = s.assigned) (hoff : ∀ x, x ≠ t → s'.running.get? x = s.running.get? x)
    (hown : ∀ id cached since, s'.running.get? t ≠ some (.awaitTasks id cached since))
    (hdone : ∀ id cached since, s.running.get? t = some (.awaitTasks id cached since) →
      id ∈ s.coordinator.completedIds) : Tracked s' := by
  refine ⟨hc ▸ h.counted, by rw [hc, ha]; exact h.ids, ha ▸ h.nodup, by rw [hc]; exact h.recorded,
    fun x id cached since hx => ?_, fun p hp => ?_⟩
  · by_cases hxt : x = t
    · subst hxt
      exact absurd hx (hown id cached since)
    · rw [hc]
      exact h.cached x id cached since (hoff x hxt ▸ hx)
  · rw [hc]
    rcases h.settled p (ha ▸ hp) with hx | ⟨cached, since, hx⟩
    · exact .inl hx
    · by_cases hpt : p.1 = t
      · exact .inl (hdone p.2 cached since (hpt ▸ hx))
      · exact .inr ⟨cached, since, (hoff _ hpt).trans hx⟩

/-- A call that has waited for its worker goes on when the worker has settled. -/
theorem Tracked.resumed (h : Tracked s) (hget : s.running.get? t = some a) (hr : Resumed t a s s')
    (ha : a ≠ .allocateWorktrees) (hdone : ∀ id cached since, a = .awaitTasks id cached since →
      id ∈ s.coordinator.completedIds) : Tracked s' := by
  obtain ⟨hc, hassign⟩ := hr.workers ha
  refine h.leaves hc hassign (fun x hx => running_off hr hx) (fun id cached since hx => ?_)
    fun id cached since hx => hdone id cached since (Option.some.inj (hget.symm.trans hx))
  rcases hr.ends with ⟨a', hrun, -, hlt, -⟩ | ⟨ok, hrun, -⟩
  · rw [hrun, JsMap.get?_set_self] at hx
    obtain rfl := Option.some.inj hx
    have hlt' : 29 < a.weight := hlt
    have hle := weight_le ha
    omega
  · rw [hrun, JsMap.get?_delete, if_pos rfl] at hx
    simp at hx

theorem Tracked.threw (h : Tracked s) (hget : s.running.get? t = some .allocateWorktrees)
    (err : String) : Tracked (s.goOn t (.threw err)) := by
  have hgone : ∀ s' : State, s'.coordinator = s.coordinator → s'.assigned = s.assigned →
      s'.running = s.running.delete t → Tracked s' := by
    intro s' hc ha hrun
    refine h.leaves (t := t) hc ha (fun x hx => ?_) (fun id cached since hx => ?_)
      fun id cached since hx => ?_
    · rw [hrun, JsMap.get?_delete, if_neg (Ne.symm hx)]
    · simp [hrun, JsMap.get?_delete] at hx
    · exact absurd (hget.symm.trans hx) (by simp)
  rcases goOn_cases s t (.threw err) with ⟨a', hn, -⟩ | ⟨hn, -⟩ | ⟨e, -, ⟨board, -, heq⟩ | ⟨-, heq⟩⟩
  · simp at hn
  · simp at hn
  · rw [heq]
    exact hgone _ rfl rfl rfl
  · rw [heq]
    exact hgone _ rfl rfl rfl

theorem Tracked.assign (h : Tracked s) (hget : s.running.get? t = some .allocateWorktrees)
    {requested subagentId : Option String} {randomUUID : Coordination.Uuid} {since : Nat}
    {c : Coordination.State} (hnew : randomUUID.1 ∉ s.assigned.map Prod.snd)
    (hspawn : Coordination.step s.coordinator (.spawn requested randomUUID) = c)
    (hc : s'.coordinator = c.assign { id := randomUUID, subagentId })
    (ha : s'.assigned = s.assigned ++ [(t, randomUUID.1)])
    (hrun : s'.running = s.running.set t (.awaitTasks randomUUID
      (s'.coordinator.completedResults.find? (·.taskId == randomUUID.1)) since)) : Tracked s' := by
  have hcount : Coordination.Counted c := hspawn ▸ h.counted.step _
  have hstep : Coordination.step c (.assign { id := randomUUID, subagentId }) = s'.coordinator := hc.symm
  have hlog : Coordination.Logs s.coordinator s'.coordinator := by
    refine Coordination.Logs.trans (hspawn ▸ Coordination.logs_step h.counted _) ?_
    exact hstep ▸ Coordination.logs_step hcount _
  have hperm : s'.coordinator.taskIds.Perm (s.coordinator.taskIds ++ [randomUUID.1]) := by
    have h1 := Coordination.step_taskIds h.counted (.spawn requested randomUUID)
    have h2 := Coordination.step_taskIds hcount (.assign { id := randomUUID, subagentId })
    rw [hspawn] at h1
    rw [hstep] at h2
    simp only [Coordination.Op.assignedIds, List.append_nil] at h1 h2
    exact h2.trans (h1.append_right _)
  have hrec : ∀ r ∈ s'.coordinator.completedResults, r.taskId ∈ s'.coordinator.completedIds :=
    fun r hr => (hlog.results r hr).elim (fun hr => hlog.completed (h.recorded r hr)) id
  have hoff : ∀ x, x ≠ t → s'.running.get? x = s.running.get? x := fun x hx => by
    rw [hrun, JsMap.get?_set, if_neg (Ne.symm hx)]
  have hown := JsMap.get?_set_self s.running t (.awaitTasks randomUUID
    (s'.coordinator.completedResults.find? (·.taskId == randomUUID.1)) since)
  rw [← hrun] at hown
  refine ⟨hstep ▸ hcount.step _, ?_, ?_, hrec, fun x id cached since hx hcached => ?_, fun p hp => ?_⟩
  · rw [ha, List.map_append]
    exact hperm.trans (h.ids.append_right _)
  · rw [ha, List.map_append, List.nodup_append]
    refine ⟨h.nodup, List.nodup_singleton _, fun x hx y hy => ?_⟩
    obtain rfl := List.mem_singleton.mp hy
    rintro rfl
    exact hnew hx
  · by_cases hxt : x = t
    · subst hxt
      obtain ⟨rfl, rfl, rfl⟩ := Await.awaitTasks.inj (Option.some.inj (hown.symm.trans hx))
      obtain ⟨r, hr⟩ := Option.isSome_iff_exists.mp hcached
      have hid := List.find?_some hr
      exact beq_iff_eq.mp hid ▸ hrec r (List.mem_of_find?_eq_some hr)
    · exact hlog.completed (h.cached x id cached since (hoff x hxt ▸ hx) hcached)
  · rw [ha, List.mem_append] at hp
    rcases hp with hp | hp
    · rcases h.settled p hp with hx | ⟨cached, since', hx⟩
      · exact .inl (hlog.completed hx)
      · refine .inr ⟨cached, since', (hoff _ ?_).trans hx⟩
        rintro rfl
        exact absurd (hget.symm.trans hx) (by simp)
    · obtain rfl := List.mem_singleton.mp hp
      exact .inr ⟨_, _, hown⟩

theorem Tracked.allocated (h : Tracked s) (hget : s.running.get? t = some .allocateWorktrees)
    (active : Bool) (randomUUID : Coordination.Uuid) (hnew : randomUUID.1 ∉ s.assigned.map Prod.snd) :
    Tracked (s.allocated t active randomUUID) := by
  simp only [State.allocated]
  split
  · have h' : Tracked { s with
        taskWorktrees := if s.config.worktrees && active then s.taskWorktrees.insert t else s.taskWorktrees
        dispatchSeq := s.dispatchSeq + 1 } := h.congr rfl rfl rfl
    exact h'.threw hget _
  · rename_i c hok
    have hspawn : Coordination.step s.coordinator
        (.spawn (some s!"sdd-d{s.dispatchSeq}") randomUUID) = c := by
      simp only [Coordination.step]
      rw [hok]
      rfl
    exact h.assign hget hnew hspawn rfl rfl rfl

/-! ## Steps -/

theorem Tracked.resumeOne (h : Tracked s) (hget : s.running.get? t = some a)
    (hno : NoTimeout s op) (hone : s.resumeOne t a op = some s')
    (htask : ∀ t', op = .awaitTimeout t' → t' = t) : Tracked s' := by
  by_cases ha : a = .allocateWorktrees
  · subst ha
    cases op <;> simp only [State.resumeOne, reduceCtorEq] at hone
    rename_i active randomUUID
    simp only [Option.ite_none_left_eq_some, Bool.not_eq_true, List.any_eq_false, beq_iff_eq] at hone
    obtain ⟨hnew, hsome⟩ := hone
    obtain rfl := Option.some.inj hsome
    refine h.allocated hget active randomUUID fun hmem => ?_
    obtain ⟨p, hp, heq⟩ := List.mem_map.mp hmem
    exact hnew p hp heq
  · refine h.resumed hget (resumeOne_resumed hone) ha fun id cached since haw => ?_
    subst haw
    refine h.awaited_completed hget ?_
    cases op <;> simp only [State.resumeOne, reduceCtorEq] at hone
    · obtain ⟨result, hw, -⟩ := Option.map_eq_some_iff.mp hone
      simp [hw]
    · obtain rfl := htask _ rfl
      exact hno id cached since hget

theorem Tracked.step? (h : Tracked s) (hno : NoTimeout s op) (hs : s.step? op = some s') : Tracked s' := by
  cases op with
  | start e =>
      simp only [State.step?, Option.ite_none_right_eq_some] at hs
      obtain rfl := Option.some.inj hs.2
      have h' : Tracked { s with board := s.board.restoreRetryMap, stopRequested := false } :=
        h.congr rfl rfl rfl
      exact h'.head e
  | turn e =>
      simp only [State.step?, Option.ite_none_right_eq_some] at hs
      obtain rfl := Option.some.inj hs.2
      exact h.turn e
  | wake e =>
      simp only [State.step?] at hs
      split at hs
      · obtain rfl := Option.some.inj hs
        exact h.head e
      · simp only [Option.ite_none_right_eq_some] at hs
        obtain rfl := Option.some.inj hs.2
        exact h.congr rfl rfl rfl
  | drained =>
      simp only [State.step?] at hs
      split at hs
      · simp only [Option.ite_none_right_eq_some] at hs
        obtain rfl := Option.some.inj hs.2
        unfold finish
        split <;> exact h.congr rfl rfl rfl
      · simp at hs
  | settle runId how =>
      obtain rfl := Option.some.inj hs
      exact h.coordinator (.settle runId how) rfl rfl rfl rfl
  | cancelTask t =>
      obtain rfl := Option.some.inj hs
      simp only [State.cancelTask]
      split
      · rename_i subagentId _
        split
        · exact h.coordinator (.stop subagentId) rfl rfl rfl rfl
        · exact h.congr rfl rfl rfl
      · exact h.congr rfl rfl rfl
  | stop =>
      obtain rfl := Option.some.inj hs
      exact h.coordinator .stopAll rfl rfl rfl rfl
  | retryTask _ | retryAllFailed | deleteTask _ | splitTask _ _ _ | pause | resume =>
      obtain rfl := Option.some.inj hs
      exact h.congr rfl rfl rfl
  | allocated t _ _ | awaitTasks t | verified t _ | git t _ | supervised t _ _ =>
      obtain ⟨a, hget, hone⟩ := Option.bind_eq_some_iff.mp hs
      exact h.resumeOne hget hno hone (by simp)
  | awaitTimeout t =>
      obtain ⟨a, hget, hone⟩ := Option.bind_eq_some_iff.mp hs
      exact h.resumeOne hget hno hone fun t' heq => (Op.awaitTimeout.inj heq).symm

theorem Tracked.step (h : Tracked s) (hno : NoTimeout s op) : Tracked (step s op) := by
  rcases step_eq s op with heq | hs
  · rw [heq]
    exact h
  · exact h.step? hno hs

end State

end WrongStack.ParallelRun
