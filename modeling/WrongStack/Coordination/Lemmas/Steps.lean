import WrongStack.Coordination.Lemmas.Dispatch

/-!
# What each operation preserves

One lemma per operation for `Counted`, and one for `Exclusive`.
-/

namespace WrongStack.Coordination

open Lib State

variable {s : State}

/-! ## Settlement -/

/-- The state in which `recordCompletion` has given back the slot and the worker of `r` and has
emitted the result, just before it calls `tryDispatchNext`. -/
def State.freed (s : State) (r : Run) (how : Settlement) : State :=
  let s := { s with runs := s.runs.filter fun x => decide (x.runId ≠ r.runId) }.abortByWatchdog r how
  let result := s.resultOf r how
  let s := s.settleSlot result
  s.emit (.taskCompleted (s.completedTask result) result)

theorem resultOf_ids (s : State) (r : Run) (how : Settlement) :
    (s.resultOf r how).subagentId = r.subagentId ∧ (s.resultOf r how).taskId = r.task.id := by
  cases how <;> exact ⟨rfl, rfl⟩

theorem abortByWatchdog_eq (s : State) (r : Run) (how : Settlement) :
    ∃ subagents, s.abortByWatchdog r how = { s with subagents } := by
  unfold abortByWatchdog
  split
  · exact ⟨_, rfl⟩
  · exact ⟨s.subagents, rfl⟩

theorem freed_eq (s : State) (r : Run) (how : Settlement) :
    (s.freed r how).config = s.config ∧
      (s.freed r how).inFlight = s.inFlight - 1 ∧
      (s.freed r how).runs = s.runs.filter (fun x => decide (x.runId ≠ r.runId)) ∧
      (s.freed r how).nextRun = s.nextRun ∧
      (s.freed r how).nextKey = s.nextKey ∧
      (s.freed r how).pendingTasks = s.pendingTasks ∧
      (s.freed r how).terminating = s.terminating.filter (fun x => decide (x ≠ r.subagentId)) := by
  obtain ⟨subagents, h⟩ := abortByWatchdog_eq
    { s with runs := s.runs.filter fun x => decide (x.runId ≠ r.runId) } r how
  simp only [freed, h, settleSlot, emit, (resultOf_ids _ r how).1, and_self]

theorem freed_events (s : State) (r : Run) (how : Settlement) :
    ∃ task result, (s.freed r how).events = s.events ++ [.taskCompleted task result] ∧
      result.taskId = r.task.id := by
  obtain ⟨subagents, h⟩ := abortByWatchdog_eq
    { s with runs := s.runs.filter fun x => decide (x.runId ≠ r.runId) } r how
  exact ⟨_, _, by simp only [freed, h, settleSlot, emit]; rfl, (resultOf_ids _ r how).2⟩

theorem freed_view (s : State) (r : Run) (how : Settlement) (id : String) :
    (s.freed r how).view id =
      if r.subagentId = id then (s.view id).map fun p => (p.1, released p.2) else s.view id := by
  simp only [freed, emit_view, settleSlot_view, abortByWatchdog_view, (resultOf_ids _ r how).1]
  rfl

/-- With a slot outstanding, `recordCompletion` gives it back and dispatches; it may then emit
`done`. -/
theorem recordCompletion_of_slot (next : State → State) (h : s.inFlight ≠ 0) (result : TaskResult)
    {freed : State} (hf : freed = (s.settleSlot result).emit
      (.taskCompleted ((s.settleSlot result).completedTask result) result)) :
    s.recordCompletion next result = next freed ∨
      ∃ results n, s.recordCompletion next result = (next freed).emit (.done results n) := by
  subst hf
  simp only [recordCompletion, h, decide_false, Bool.false_and, Bool.false_eq_true, ↓reduceIte]
  split
  · exact .inr ⟨_, _, rfl⟩
  · exact .inl rfl

theorem settle_cases (h : Counted s) (runId : Nat) (how : Settlement) :
    s.settle runId how = s ∨ ∃ r ∈ s.runs, r.runId = runId ∧
      (s.settle runId how = (s.freed r how).tryDispatchNext ∨
        ∃ e, (∀ t r, e ≠ .taskCompleted t r) ∧
          s.settle runId how = (s.freed r how).tryDispatchNext.emit e) := by
  unfold settle
  split
  · exact .inl rfl
  · rename_i r hfind
    have hr := List.mem_of_find?_eq_some hfind
    have hid : r.runId = runId := by simpa using List.find?_some hfind
    subst hid
    refine .inr ⟨r, hr, rfl, ?_⟩
    have hpos : s.inFlight ≠ 0 := by
      rw [h.inFlight]
      exact (List.length_pos_of_mem hr).ne'
    obtain ⟨subagents, ha⟩ := abortByWatchdog_eq
      { s with runs := s.runs.filter fun x => decide (x.runId ≠ r.runId) } r how
    rcases recordCompletion_of_slot tryDispatchNext (by rw [ha]; exact hpos) _
      (rfl : s.freed r how = _) with hrec | ⟨results, n, hrec⟩
    · exact .inl hrec
    · exact .inr ⟨.done results n, by simp, hrec⟩

theorem Counted.freed (h : Counted s) {r : Run} (hr : r ∈ s.runs) (how : Settlement) :
    Counted (s.freed r how) := by
  obtain ⟨hc, hf, hruns, hn, hk, -, hterm⟩ := freed_eq s r how
  have hview := freed_view s r how
  have hsub : ∀ x ∈ s.runs.filter (fun x => decide (x.runId ≠ r.runId)), x ∈ s.runs :=
    fun x hx => List.mem_of_mem_filter hx
  have hsome : ∀ id k st, (s.freed r how).view id = some (k, st) → ∃ st', s.view id = some (k, st') :=
    fun _ _ _ hv => view_some_of_update hview hv
  refine ⟨hc ▸ h.runner, ?_, ?_, ?_, ?_, ?_, ?_, ?_, ?_⟩
  · rw [hf, hruns, length_filter_ne h.runIds hr, h.inFlight]
  · rw [hruns]
    exact h.runIds.sublist (List.filter_sublist.map _)
  · rw [hruns, hn]
    exact fun x hx => h.runIds_lt x (hsub x hx)
  · rw [hruns, hk]
    exact fun x hx => h.entries_lt x (hsub x hx)
  · intro id k st hv
    obtain ⟨st', hv'⟩ := hsome id k st hv
    exact hk ▸ h.keys_lt id k st' hv'
  · intro i j k st st' hi hj
    obtain ⟨_, hi'⟩ := hsome i k st hi
    obtain ⟨_, hj'⟩ := hsome j k st' hj
    exact h.keys_inj i j k _ _ hi' hj'
  · rw [hterm]
    intro id hid
    obtain ⟨hid, hne⟩ := List.mem_filter.mp hid
    obtain ⟨k, hk'⟩ := h.terminating id hid
    have hne' : ¬ r.subagentId = id := fun e => by simp [e] at hne
    exact ⟨k, by rw [hview, if_neg hne', hk']⟩
  · intro id k hv
    rw [hview] at hv
    split at hv
    · obtain ⟨⟨k', st⟩, -, heq⟩ := Option.map_eq_some_iff.mp hv
      simp only [Prod.mk.injEq, released] at heq
      split at heq <;> simp at heq
    · exact h.noError id k hv

/-- The runs left after `r` settles are on other entry objects, and the worker given back is either
the entry object of `r` or is not busy. -/
theorem Exclusive.freed (h : Exclusive s) (hc : Counted s) {r : Run} (hr : r ∈ s.runs)
    (hstale : ¬ StaleOn s r) (how : Settlement) : Exclusive (s.freed r how) := by
  obtain ⟨-, -, hruns, -, -, -, -⟩ := freed_eq s r how
  have hview := freed_view s r how
  refine ⟨?_, ?_, ?_⟩
  · rw [hruns]
    exact h.distinct.sublist (List.filter_sublist.map _)
  · rw [hruns]
    intro x hx id st hv
    have hx := List.mem_of_mem_filter hx
    rw [hview] at hv
    split at hv
    · obtain ⟨⟨k, st'⟩, hv', heq⟩ := Option.map_eq_some_iff.mp hv
      simp only [Prod.mk.injEq] at heq
      exact h.own x hx id st' (heq.1 ▸ hv')
    · exact h.own x hx id st hv
  · rw [hruns]
    intro x hx id hv
    obtain ⟨hx, hne⟩ := List.mem_filter.mp hx
    rw [hview] at hv
    split at hv
    · rename_i hid
      obtain ⟨⟨k, st⟩, hv', heq⟩ := Option.map_eq_some_iff.mp hv
      simp only [Prod.mk.injEq] at heq
      obtain ⟨hk, hst⟩ := heq
      subst hid
      rw [hk] at hv'
      -- `x` is on the entry object that `r` gives back, so that object is not the one of `r`
      have hxr : r.entry ≠ x.entry := by
        intro e
        have heq := List.inj_on_of_nodup_map h.distinct hr hx e
        simp [heq] at hne
      cases st with
      | running => exact hstale ⟨x.entry, hv', hxr.symm⟩
      | idle => exact h.idle x hx _ hv'
      | stopped => simp [released] at hst
      | error => exact hc.noError _ _ hv'
    · exact h.idle x hx id hv

/-! ## Spawning, stopping and removing -/

theorem spawn_cases (s : State) (requested : Option String) (randomUUID : Uuid) :
    step s (.spawn requested randomUUID) = s ∨
      ∃ id, id ≠ "" ∧ s.view id = none ∧ (truthy requested).getD randomUUID = id ∧
        step s (.spawn requested randomUUID) =
          { s with
            subagents := s.subagents.set id { key := s.nextKey, status := .idle }
            nextKey := s.nextKey + 1 }.emit (.subagentStarted id) := by
  simp only [step, spawn]
  split
  · exact .inl rfl
  · rename_i hhas
    refine .inr ⟨_, ?_, view_eq_none.mpr (JsMap.has_eq_false.mp (by simpa using hhas)), rfl, rfl⟩
    cases htr : truthy requested with
    | none => exact randomUUID.2
    | some id => exact (truthy_eq_some.mp htr).2

theorem Counted.spawn (h : Counted s) (requested : Option String) (randomUUID : Uuid) :
    Counted (step s (.spawn requested randomUUID)) := by
  rcases spawn_cases s requested randomUUID with heq | ⟨id, -, hnone, -, heq⟩
  · rw [heq]
    exact h
  rw [heq]
  have hview := view_of_set (s := s) (t := step s (.spawn requested randomUUID)) (by rw [heq]; rfl)
  rw [heq] at hview
  refine ⟨h.runner, h.inFlight, h.runIds, h.runIds_lt, ?_, ?_, ?_, ?_, ?_⟩
  · exact fun r hr => Nat.lt_succ_of_lt (h.entries_lt r hr)
  · intro id' k st hv
    rw [hview] at hv
    split at hv
    · cases hv
      exact Nat.lt_succ_self _
    · exact Nat.lt_succ_of_lt (h.keys_lt id' k st hv)
  · intro i j k st st' hi hj
    rw [hview] at hi hj
    split at hi <;> split at hj
    · rename_i h1 h2
      rw [← h1, ← h2]
    · cases hi
      exact absurd (h.keys_lt j _ _ hj) (Nat.lt_irrefl _)
    · cases hj
      exact absurd (h.keys_lt i _ _ hi) (Nat.lt_irrefl _)
    · exact h.keys_inj i j k st st' hi hj
  · intro id' hid'
    obtain ⟨k, hk⟩ := h.terminating id' hid'
    have hne : ¬ id = id' := fun e => by simp [← e, hnone] at hk
    exact ⟨k, by rw [hview, if_neg hne, hk]⟩
  · intro id' k hv
    rw [hview] at hv
    split at hv
    · simp at hv
    · exact h.noError id' k hv

theorem Exclusive.spawn (h : Exclusive s) (hc : Counted s) (requested : Option String)
    (randomUUID : Uuid) : Exclusive (step s (.spawn requested randomUUID)) := by
  rcases spawn_cases s requested randomUUID with heq | ⟨id, -, -, -, heq⟩
  · rw [heq]
    exact h
  rw [heq]
  have hview := view_of_set (s := s) (t := step s (.spawn requested randomUUID)) (by rw [heq]; rfl)
  rw [heq] at hview
  refine ⟨h.distinct, ?_, ?_⟩
  · intro r hr id' st hv
    rw [hview] at hv
    split at hv
    · simp only [Option.some.injEq, Prod.mk.injEq] at hv
      exact absurd (hc.entries_lt r hr) (by omega)
    · exact h.own r hr id' st hv
  · intro r hr id' hv
    rw [hview] at hv
    split at hv
    · simp only [Option.some.injEq, Prod.mk.injEq] at hv
      exact absurd (hc.entries_lt r hr) (by omega)
    · exact h.idle r hr id' hv

theorem stop_eq (s : State) (id : String) :
    (s.stop id).config = s.config ∧ (s.stop id).inFlight = s.inFlight ∧
      (s.stop id).runs = s.runs ∧ (s.stop id).nextRun = s.nextRun ∧
      (s.stop id).nextKey = s.nextKey ∧ (s.stop id).pendingTasks = s.pendingTasks := by
  unfold stop
  split <;> exact ⟨rfl, rfl, rfl, rfl, rfl, rfl⟩

theorem stop_terminating {id x : String} (h : x ∈ (s.stop id).terminating) :
    x ∈ s.terminating ∨ x = id ∧ ∃ p, s.view id = some p := by
  unfold stop at h
  split at h
  · exact .inl h
  · rename_i e he
    rcases List.mem_insert_iff.mp h with rfl | h
    · exact .inr ⟨rfl, _, view_of_get? he⟩
    · exact .inl h

theorem stop_terminating_mono (id : String) {x : String} (h : x ∈ s.terminating) :
    x ∈ (s.stop id).terminating := by
  unfold stop
  split
  · exact h
  · exact List.mem_insert_of_mem h

theorem Counted.stop (h : Counted s) (id : String) : Counted (s.stop id) := by
  obtain ⟨hc, hf, hruns, hn, hk, -⟩ := stop_eq s id
  have hview := stop_view s id
  have hsome : ∀ x k st, (s.stop id).view x = some (k, st) → ∃ st', s.view x = some (k, st') :=
    fun _ _ _ hv => view_some_of_update (f := fun _ => .stopped) hview hv
  refine ⟨hc ▸ h.runner, by rw [hf, hruns, h.inFlight], hruns ▸ h.runIds, hruns ▸ hn ▸ h.runIds_lt,
    hruns ▸ hk ▸ h.entries_lt, ?_, ?_, ?_, ?_⟩
  · intro x k st hv
    obtain ⟨st', hv'⟩ := hsome x k st hv
    exact hk ▸ h.keys_lt x k st' hv'
  · intro i j k st st' hi hj
    obtain ⟨_, hi'⟩ := hsome i k st hi
    obtain ⟨_, hj'⟩ := hsome j k st' hj
    exact h.keys_inj i j k _ _ hi' hj'
  · intro x hx
    rcases stop_terminating hx with hx | ⟨rfl, p, hp⟩
    · obtain ⟨k, hk'⟩ := h.terminating x hx
      exact ⟨k, by rw [hview]; split <;> simp [hk']⟩
    · exact ⟨p.1, by rw [hview, if_pos rfl, hp]; rfl⟩
  · intro x k hv
    rw [hview] at hv
    split at hv
    · obtain ⟨p, -, heq⟩ := Option.map_eq_some_iff.mp hv
      simp at heq
    · exact h.noError x k hv

theorem Exclusive.stop (h : Exclusive s) (id : String) : Exclusive (s.stop id) := by
  obtain ⟨-, -, hruns, -, -, -⟩ := stop_eq s id
  have hview := stop_view s id
  refine ⟨hruns ▸ h.distinct, ?_, ?_⟩
  · rw [hruns]
    intro r hr x st hv
    rw [hview] at hv
    split at hv
    · obtain ⟨⟨k, st'⟩, hv', heq⟩ := Option.map_eq_some_iff.mp hv
      simp only [Prod.mk.injEq] at heq
      exact h.own r hr x st' (heq.1 ▸ hv')
    · exact h.own r hr x st hv
  · rw [hruns]
    intro r hr x hv
    rw [hview] at hv
    split at hv
    · obtain ⟨p, -, heq⟩ := Option.map_eq_some_iff.mp hv
      simp at heq
    · exact h.idle r hr x hv

theorem stopAll_invariant {I : State → Prop} (hdrain : ∀ s m, I s → I (s.drainPendingAsAborted m))
    (hstop : ∀ s id, I s → I (s.stop id)) (h : I s) : I s.stopAll := by
  unfold stopAll
  exact List.foldlRecOn _ _ (hdrain s _ h) fun s hs id _ => hstop s id hs

theorem remove_cases (s : State) (id : String) :
    s.remove id = s ∧ s.view id = none ∨
      ∃ (p : Nat × SubagentStatus) (message : TaskSpec → String), s.view id = some p ∧ s.remove id =
        { s with
          subagents := s.subagents.delete id
          terminating := s.terminating.filter fun x => decide (x ≠ id)
          pendingTasks := s.pendingTasks.filter (·.subagentId != some id)
          completedResults := s.completedResults ++
            (s.pendingTasks.filter (·.subagentId == some id)).map fun t => t.abortedResult (message t)
          events := s.events ++ (s.pendingTasks.filter (·.subagentId == some id)).map
            fun t => .taskCompleted t (t.abortedResult (message t)) } := by
  unfold remove
  split
  · rename_i hnone
    exact .inl ⟨rfl, view_eq_none.mpr hnone⟩
  · rename_i e he
    exact .inr ⟨_, _, view_of_get? he, foldl_emitPendingAborted _ _ _⟩

theorem Counted.remove (h : Counted s) (id : String) : Counted (s.remove id) := by
  rcases remove_cases s id with ⟨heq, -⟩ | ⟨p, message, -, heq⟩
  · rw [heq]
    exact h
  have hview := view_of_delete (s := s) (t := s.remove id) (by rw [heq])
  have hsome : ∀ x p, (s.remove id).view x = some p → s.view x = some p :=
    fun _ _ hv => view_some_of_delete (by rw [heq]) hv
  rw [heq] at hsome hview ⊢
  refine ⟨h.runner, h.inFlight, h.runIds, h.runIds_lt, h.entries_lt, ?_, ?_, ?_, ?_⟩
  · exact fun x k st hv => h.keys_lt x k st (hsome _ _ hv)
  · exact fun i j k st st' hi hj => h.keys_inj i j k st st' (hsome _ _ hi) (hsome _ _ hj)
  · intro x hx
    obtain ⟨hx, hne⟩ := List.mem_filter.mp hx
    obtain ⟨k, hk⟩ := h.terminating x hx
    have hne' : ¬ id = x := fun e => by simp [e] at hne
    exact ⟨k, by rw [hview, if_neg hne', hk]⟩
  · exact fun x k hv => h.noError x k (hsome _ _ hv)

theorem Exclusive.remove (h : Exclusive s) (id : String) : Exclusive (s.remove id) := by
  rcases remove_cases s id with ⟨heq, -⟩ | ⟨p, message, -, heq⟩
  · rw [heq]
    exact h
  have hsome : ∀ x p, (s.remove id).view x = some p → s.view x = some p :=
    fun _ _ hv => view_some_of_delete (by rw [heq]) hv
  rw [heq] at hsome ⊢
  exact ⟨h.distinct, fun r hr x st hv => h.own r hr x st (hsome _ _ hv),
    fun r hr x hv => h.idle r hr x (hsome _ _ hv)⟩

/-! ## Every step -/

theorem Counted.settle (h : Counted s) (runId : Nat) (how : Settlement) :
    Counted (s.settle runId how) := by
  rcases settle_cases h runId how with heq | ⟨r, hr, -, heq | ⟨e, -, heq⟩⟩
  · rw [heq]
    exact h
  · rw [heq]
    exact (h.freed hr how).tryDispatchNext
  · rw [heq]
    exact (h.freed hr how).tryDispatchNext.congr rfl

theorem Exclusive.settle (h : Exclusive s) (hc : Counted s) (runId : Nat) (how : Settlement)
    (hstale : ∀ r ∈ s.runs, r.runId = runId → ¬ StaleOn s r) : Exclusive (s.settle runId how) := by
  rcases settle_cases hc runId how with heq | ⟨r, hr, hid, heq | ⟨e, -, heq⟩⟩
  · rw [heq]
    exact h
  · rw [heq]
    exact (h.freed hc hr (hstale r hr hid) how).tryDispatchNext (hc.freed hr how)
  · rw [heq]
    exact ((h.freed hc hr (hstale r hr hid) how).tryDispatchNext (hc.freed hr how)).congr rfl

theorem setMaxConcurrent_cases (s : State) (n : Option ℚ) :
    step s (.setMaxConcurrent n) = s ∨ ∃ m : Int, step s (.setMaxConcurrent n) =
      { s with config := { s.config with maxConcurrent := some m } }.tryDispatchNext := by
  cases n with
  | none => exact .inl rfl
  | some n =>
      by_cases h : n < 1
      · exact .inl (by simp [step, setMaxConcurrent, h]; rfl)
      · exact .inr ⟨⌊n⌋, by simp [step, setMaxConcurrent, h]; rfl⟩

theorem retargetPendingTask_cases (s : State) (taskId : String) (subagentId : Option String) :
    (s.retargetPendingTask taskId subagentId).1 = s ∨
      (∃ t ∈ s.pendingTasks, t.id = taskId) ∧
      (s.retargetPendingTask taskId subagentId).1 =
        { s with pendingTasks := retargetIn taskId subagentId s.pendingTasks }.tryDispatchNext := by
  unfold retargetPendingTask
  split
  · exact .inl rfl
  · split
    · exact .inl rfl
    · rename_i hany _
      simp only [Bool.not_eq_true', Bool.not_eq_false, List.any_eq_true, beq_iff_eq] at hany
      exact .inr ⟨hany, rfl⟩

theorem Counted.step (h : Counted s) (op : Op) : Counted (step s op) := by
  cases op with
  | spawn requested randomUUID => exact h.spawn requested randomUUID
  | assign task => exact Counted.tryDispatchNext (h.congr rfl)
  | retargetPendingTask taskId subagentId =>
      change Counted (s.retargetPendingTask taskId subagentId).1
      rcases retargetPendingTask_cases s taskId subagentId with heq | ⟨-, heq⟩
      · rw [heq]
        exact h
      · rw [heq]
        exact Counted.tryDispatchNext (h.congr rfl)
  | stop id => exact h.stop id
  | stopAll =>
      exact stopAll_invariant (fun s m hs => hs.congr (drain_accounts m)) (fun _ id hs => hs.stop id) h
  | remove id => exact h.remove id
  | setMaxConcurrent n =>
      rcases setMaxConcurrent_cases s n with heq | ⟨m, heq⟩
      · rw [heq]
        exact h
      · rw [heq]
        exact Counted.tryDispatchNext (h.congr rfl)
  | settle runId how => exact h.settle runId how

end WrongStack.Coordination
