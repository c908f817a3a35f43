import WrongStack.ParallelRun.Lemmas.Calls

/-!
# What a turn of the run loop does

`fill` dispatches ready tasks one after the other, and none makes another one unready. What comes after
it writes no status but `pending`.
-/

namespace WrongStack.ParallelRun

open Lib Sdd

namespace State

open Board

variable {s s' : State} {t x : TaskId} {e : Nat}

/-! ## Dispatching -/

theorem mem_ready : t ∈ s.ready ↔
    s.board.statusOf t = some .pending ∧ s.board.graph.canStart t = true ∧ s.running.get? t = none := by
  simp only [ready, readyNodes, List.mem_filter, List.mem_insertionSort, mem_allNodes,
    Bool.not_eq_eq_eq_not, Bool.not_true, JsMap.has_eq_false, and_assoc]

theorem nodup_ready : s.ready.Nodup := by
  refine List.Nodup.filter _ ((List.perm_insertionSort _ _).nodup_iff.mpr (List.Nodup.filter _ ?_))
  exact s.board.graph.nodes.nodup.sublist (List.filter_sublist.map Prod.fst)

/-- A task that is dispatched is in progress, or blocked when it should not have been. -/
theorem wrote_dispatch (h : s.board.statusOf t = some .pending) :
    Wrote t .inProgress s.board (s.dispatch t).board :=
  ((setStatus_cases s.board t .inProgress none).resolve_left fun hn => by simp [h] at hn).2

theorem finished_dispatch (h : s.board.statusOf t = some .pending) :
    (s.dispatch t).board.graph.finished x = s.board.graph.finished x := by
  have hw := wrote_dispatch h
  by_cases hx : x = t
  · subst hx
    have hold : s.board.graph.statusOf x = some .pending := h
    have hnew : (s.dispatch x).board.graph.statusOf x = some .inProgress ∨
        (s.dispatch x).board.graph.statusOf x = some .blocked := hw.own.imp_right And.right
    rcases hnew with hnew | hnew <;>
      · rw [TaskGraph.finished, TaskGraph.finished, hold, hnew]
        rfl
  · have hsame : (s.dispatch t).board.graph.statusOf x = s.board.graph.statusOf x :=
      hw.others (by simp) x hx
    rw [TaskGraph.finished, TaskGraph.finished, hsame]

theorem canStart_dispatch (h : s.board.statusOf t = some .pending) :
    (s.dispatch t).board.graph.canStart x = s.board.graph.canStart x := by
  have hfin : (s.dispatch t).board.graph.finished = s.board.graph.finished :=
    funext fun y => finished_dispatch h
  rw [TaskGraph.canStart, TaskGraph.canStart, (wrote_dispatch h).shape.getBlockers, hfin]

/-- What `fill` keeps is what each dispatch of a ready task into a free slot keeps. -/
theorem fill_induction {I : State → Prop} (hI : I s)
    (hstep : ∀ s' t, I s' → t ∈ s'.ready → s'.running.size < s'.config.slots → I (s'.dispatch t))
    (hround : ∀ s', I s' → s'.dispatched.length ≠ s.dispatched.length →
      I { s' with round := s'.round + 1 }) : I s.fill := by
  have key : ∀ (l : List TaskId) (s' : State), l.Nodup → (∀ t ∈ l, t ∈ s'.ready) → I s' →
      I (l.foldl (fun s t => if s.running.size < s.config.slots then s.dispatch t else s) s') := by
    intro l
    induction l with
    | nil => exact fun s' _ _ h => h
    | cons t l ih =>
        intro s' hnd hready h
        obtain ⟨hnot, hnd⟩ := List.nodup_cons.mp hnd
        have hmem := hready t List.mem_cons_self
        obtain ⟨hpend, -, -⟩ := mem_ready.mp hmem
        simp only [List.foldl_cons]
        split
        · rename_i hslot
          refine ih _ hnd (fun x hx => ?_) (hstep s' t h hmem hslot)
          -- the tasks still to come are as ready as before
          obtain ⟨hxp, hxs, hxr⟩ := mem_ready.mp (hready x (List.mem_cons_of_mem t hx))
          have hne : x ≠ t := fun heq => hnot (heq ▸ hx)
          refine mem_ready.mpr ⟨?_, (canStart_dispatch hpend).trans hxs, ?_⟩
          · exact ((wrote_dispatch hpend).others (by simp) x hne).trans hxp
          · exact (JsMap.get?_set ..).trans ((if_neg (Ne.symm hne)).trans hxr)
        · exact ih s' hnd (fun x hx => hready x (List.mem_cons_of_mem t hx)) h
  have hfold := key s.ready s nodup_ready (fun _ h => h) hI
  simp only [fill]
  split
  · exact hfold
  · rename_i hne
    exact hround _ hfold hne

/-- All that `fill` dispatches was ready when it began. -/
theorem dispatched_fill (s : State) : ∃ l, s.fill.dispatched = s.dispatched ++ l ∧ ∀ t ∈ l, t ∈ s.ready := by
  have key : ∀ (ts : List TaskId) (s' : State), ∃ l,
      (ts.foldl (fun s t => if s.running.size < s.config.slots then s.dispatch t else s) s').dispatched =
        s'.dispatched ++ l ∧ ∀ t ∈ l, t ∈ ts := by
    intro ts
    induction ts with
    | nil => exact fun s' => ⟨[], (List.append_nil _).symm, by simp⟩
    | cons t ts ih =>
        intro s'
        simp only [List.foldl_cons]
        split
        · obtain ⟨l, hl, hmem⟩ := ih (s'.dispatch t)
          refine ⟨t :: l, by rw [hl]; simp [dispatch], fun x hx => ?_⟩
          exact (List.mem_cons.mp hx).elim (fun h => h ▸ List.mem_cons_self)
            fun h => List.mem_cons_of_mem t (hmem x h)
        · obtain ⟨l, hl, hmem⟩ := ih s'
          exact ⟨l, hl, fun x hx => List.mem_cons_of_mem t (hmem x hx)⟩
  obtain ⟨l, hl, hmem⟩ := key s.ready s
  refine ⟨l, ?_, hmem⟩
  simp only [fill]
  split <;> exact hl

/-- What `fill` leaves alone, and what each dispatch adds. -/
structure Filled (s s' : State) : Prop where
  config : s'.config = s.config
  coordinator : s'.coordinator = s.coordinator
  base : s'.base = s.base
  assigned : s'.assigned = s.assigned
  recoveryRounds : s'.recoveryRounds = s.recoveryRounds
  failedSweeps : s'.failedSweeps = s.failedSweeps
  loop : s'.loop = s.loop
  size : s'.dispatched.length + s.running.size = s.dispatched.length + s'.running.size
  weigh : s'.running.weigh Await.weight + 30 * s.dispatched.length =
    s.running.weigh Await.weight + 30 * s'.dispatched.length
  grows : s' = s ∨ s.dispatched.length < s'.dispatched.length ∧ s'.running.size ≤ s.config.slots

theorem filled_fill (s : State) : Filled s s.fill := by
  refine fill_induction (I := Filled s) ?_ ?_ ?_
  · exact ⟨rfl, rfl, rfl, rfl, rfl, rfl, rfl, rfl, rfl, .inl rfl⟩
  · intro s' t h hready hslot
    obtain ⟨-, -, hnone⟩ := mem_ready.mp hready
    have hsize : (s'.dispatch t).running.size = s'.running.size + 1 := JsMap.size_set_new hnone
    have hweigh : (s'.dispatch t).running.weigh Await.weight = s'.running.weigh Await.weight + 30 :=
      JsMap.weigh_set_new hnone
    have hlen : (s'.dispatch t).dispatched.length = s'.dispatched.length + 1 := by simp [dispatch]
    refine ⟨h.config, h.coordinator, h.base, h.assigned, h.recoveryRounds, h.failedSweeps, h.loop, ?_, ?_,
      .inr ⟨?_, ?_⟩⟩
    · have := h.size
      omega
    · have := h.weigh
      omega
    · rcases h.grows with rfl | ⟨hlt, -⟩ <;> omega
    · rw [h.config] at hslot
      omega
  · intro s' h hne
    refine ⟨h.config, h.coordinator, h.base, h.assigned, h.recoveryRounds, h.failedSweeps, h.loop, h.size,
      h.weigh, .inr (h.grows.resolve_left ?_)⟩
    rintro rfl
    exact hne rfl

/-- A ready task and a free slot lead to a dispatch. -/
theorem fill_grows (h : s.moreReadyNow = true) : s.dispatched.length < s.fill.dispatched.length := by
  have key : ∀ (l : List TaskId) (s' : State), s'.dispatched.length ≤
      (l.foldl (fun s t => if s.running.size < s.config.slots then s.dispatch t else s)
        s').dispatched.length := by
    intro l
    induction l with
    | nil => exact fun _ => le_refl _
    | cons t l ih =>
        intro s'
        simp only [List.foldl_cons]
        split
        · exact le_trans (by simp [dispatch]) (ih (s'.dispatch t))
        · exact ih s'
  simp only [moreReadyNow, Bool.and_eq_true, decide_eq_true_eq, Bool.not_eq_eq_eq_not, Bool.not_true] at h
  obtain ⟨hslot, hready⟩ := h
  obtain ⟨t, l, heq⟩ : ∃ t l, s.ready = t :: l := by
    cases hr : s.ready with
    | nil => simp [hr] at hready
    | cons t l => exact ⟨t, l, rfl⟩
  have hlt : s.dispatched.length < (s.ready.foldl (fun s t =>
      if s.running.size < s.config.slots then s.dispatch t else s) s).dispatched.length := by
    rw [heq, List.foldl_cons, if_pos hslot]
    exact lt_of_lt_of_le (by simp [dispatch]) (key l (s.dispatch t))
  simp only [fill]
  split <;> exact hlt

/-! ## The rest of a turn -/

theorem head_cases (s : State) (e : Nat) :
    s.head e = { s with loop := .draining false } ∨
      s.head e = { s with loop := .top } ∧ s.dispatched.length < s.config.maxTotalWaves := by
  unfold head
  split
  · exact .inl rfl
  · rename_i h
    simp only [Bool.or_eq_true, decide_eq_true_eq, not_or, Nat.not_le] at h
    exact .inr ⟨rfl, h.1.2⟩

/-- Tasks are requeued, and a sweep or a round of recovery is used up. -/
structure Swept (s s' : State) : Prop where
  config : s'.config = s.config
  coordinator : s'.coordinator = s.coordinator
  base : s'.base = s.base
  running : s'.running = s.running
  dispatched : s'.dispatched = s.dispatched
  assigned : s'.assigned = s.assigned
  loop : s'.loop = s.loop
  requeued : (s.failedSweeps < s.config.maxFailedSweeps ∧ s'.failedSweeps = s.failedSweeps + 1 ∧
      s'.recoveryRounds = s.recoveryRounds ∧
      s'.board = (s.board.requeueFailedTasks "retry failed sweep").1) ∨
    s.recoveryRounds < s.config.maxRecoveryRounds ∧ s'.recoveryRounds = s.recoveryRounds + 1 ∧
      s'.failedSweeps = s.failedSweeps ∧ s.board.isSettled = false ∧
      s'.board = s.board.recoverFailedBlockers.1

theorem quiesce_cases (s : State) (e : Nat) :
    (∃ d, s.quiesce e = { s with loop := .draining d }) ∨
      ∃ s₁, Swept s s₁ ∧ s.quiesce e = s₁.head e := by
  unfold quiesce
  split
  · split
    · rename_i s₁ hs
      simp only [sweep, Option.ite_none_right_eq_some, Bool.and_eq_true, decide_eq_true_eq] at hs
      obtain ⟨⟨⟨hlt, -⟩, -⟩, heq⟩ := hs
      obtain rfl := Option.some.inj heq
      refine .inr ⟨_, ?_, rfl⟩
      exact ⟨rfl, rfl, rfl, rfl, rfl, rfl, rfl, .inl ⟨hlt, rfl, rfl, rfl⟩⟩
    · exact .inl ⟨_, rfl⟩
  · rename_i hset
    split
    · exact .inl ⟨_, rfl⟩
    · split
      · rename_i s₁ hs
        simp only [recover, Option.ite_none_right_eq_some, Bool.and_eq_true, decide_eq_true_eq] at hs
        obtain ⟨⟨hlt, -⟩, heq⟩ := hs
        obtain rfl := Option.some.inj heq
        refine .inr ⟨_, ?_, rfl⟩
        exact ⟨rfl, rfl, rfl, rfl, rfl, rfl, rfl, .inr ⟨hlt, rfl, rfl, by simpa using hset, rfl⟩⟩
      · exact .inl ⟨_, rfl⟩

theorem turn_cases (s : State) (e : Nat) :
    (s.stopRequested = true ∧ s.turn e = { s with loop := .draining false }) ∨
    s.stopRequested = false ∧
      ((s.fill.running.size = 0 ∧ s.turn e = s.fill.quiesce e) ∨
        s.fill.running.size ≠ 0 ∧
          ((s.fill.moreReadyNow = true ∧ s.turn e = s.fill.head e) ∨
            s.turn e = { s.fill with loop := .racing })) := by
  simp only [turn]
  split
  · rename_i h
    exact .inl ⟨h, rfl⟩
  · rename_i h
    refine .inr ⟨by simpa using h, ?_⟩
    split
    · rename_i hz
      exact .inl ⟨hz, rfl⟩
    · rename_i hz
      refine .inr ⟨hz, ?_⟩
      split
      · rename_i hm
        exact .inl ⟨hm, rfl⟩
      · exact .inr rfl

/-! ## The kinds of steps -/

end State

/-- A step that the run takes, or what it waits for; the others are the user's and the workers'. -/
def Op.system : Op → Bool
  | .start _ | .turn _ | .wake _ | .drained | .allocated _ _ _ | .awaitTasks _ | .awaitTimeout _
  | .verified _ _ | .git _ _ | .supervised _ _ _ => true
  | _ => false

/-- The task whose call goes on. -/
def Op.call : Op → Option TaskId
  | .allocated t _ _ | .awaitTasks t | .awaitTimeout t | .verified t _ | .git t _ | .supervised t _ _ =>
      some t
  | _ => none

namespace State

variable {op : Op}

/-- The controls leave the loop, the calls and their number alone. -/
structure Controlled (s s' : State) : Prop where
  config : s'.config = s.config
  base : s'.base = s.base
  running : s'.running = s.running
  dispatched : s'.dispatched = s.dispatched
  assigned : s'.assigned = s.assigned
  recoveryRounds : s'.recoveryRounds = s.recoveryRounds
  failedSweeps : s'.failedSweeps = s.failedSweeps
  loop : s'.loop = s.loop

theorem board_cancelTask (s : State) (t : TaskId) : (s.cancelTask t).board = (s.board.cancelTask t).1 := by
  simp only [cancelTask]
  split
  · split <;> rfl
  · rfl

theorem controlled_cancelTask (s : State) (t : TaskId) : Controlled s (s.cancelTask t) := by
  simp only [cancelTask]
  split
  · split <;> exact ⟨rfl, rfl, rfl, rfl, rfl, rfl, rfl, rfl⟩
  · exact ⟨rfl, rfl, rfl, rfl, rfl, rfl, rfl, rfl⟩

theorem step?_cases (h : s.step? op = some s') :
    (op.system = true ∧ ∃ t a, op.call = some t ∧ s.running.get? t = some a ∧
      s.resumeOne t a op = some s') ∨
    (∃ e, op = .start e ∧ s.loop = .idle ∧ s' = s.start e) ∨
    (∃ e, op = .turn e ∧ s.loop = .top ∧ s' = s.turn e) ∨
    (∃ e, op = .wake e ∧ ((s.loop = .woken ∧ s' = s.head e) ∨
      s.loop = .broken ∧ s' = { s with loop := .rejected })) ∨
    (∃ d, op = .drained ∧ s.loop = .draining d ∧ s.running.size = 0 ∧ s' = s.finish d) ∨
    op.system = false ∧ Controlled s s' := by
  cases op with
  | start e =>
      simp only [step?, Option.ite_none_right_eq_some] at h
      exact .inr (.inl ⟨e, rfl, h.1, (Option.some.inj h.2).symm⟩)
  | turn e =>
      simp only [step?, Option.ite_none_right_eq_some, Bool.and_eq_true, decide_eq_true_eq] at h
      exact .inr (.inr (.inl ⟨e, rfl, h.1.1, (Option.some.inj h.2).symm⟩))
  | wake e =>
      refine .inr (.inr (.inr (.inl ⟨e, rfl, ?_⟩)))
      simp only [step?] at h
      split at h
      · rename_i hl
        exact .inl ⟨hl, (Option.some.inj h).symm⟩
      · simp only [Option.ite_none_right_eq_some] at h
        exact .inr ⟨h.1, (Option.some.inj h.2).symm⟩
  | drained =>
      simp only [step?] at h
      split at h
      · rename_i d hl
        simp only [Option.ite_none_right_eq_some] at h
        exact .inr (.inr (.inr (.inr (.inl ⟨d, rfl, hl, h.1, (Option.some.inj h.2).symm⟩))))
      · simp at h
  | allocated t _ _ | awaitTasks t | awaitTimeout t | verified t _ | git t _ | supervised t _ _ =>
      obtain ⟨a, hget, hone⟩ := Option.bind_eq_some_iff.mp h
      exact .inl ⟨rfl, t, a, rfl, hget, hone⟩
  | cancelTask t =>
      obtain rfl := Option.some.inj h
      exact .inr (.inr (.inr (.inr (.inr ⟨rfl, controlled_cancelTask s t⟩))))
  | settle _ _ | retryTask _ | retryAllFailed | deleteTask _ | splitTask _ _ _ | stop | pause | resume =>
      obtain rfl := Option.some.inj h
      exact .inr (.inr (.inr (.inr (.inr ⟨rfl, rfl, rfl, rfl, rfl, rfl, rfl, rfl, rfl⟩))))

end State

theorem step_eq (s : State) (op : Op) : step s op = s ∨ s.step? op = some (step s op) := by
  unfold step
  cases s.step? op with
  | none => exact .inl rfl
  | some s' => exact .inr rfl

namespace State

end State

end WrongStack.ParallelRun
