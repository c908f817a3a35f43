import WrongStack.Coordination.Coordinator
import WrongStack.Lib.ListFacts

/-!
# What `tryDispatchNext` does

`Dispatch s s'` lists the ways in which one call of `tryDispatchNext` takes `s` to `s'`. Every
property of dispatching is an induction on it.
-/

namespace WrongStack.Coordination

open Lib

namespace State

variable {s : State}

/-! ## Emitting -/

@[simp] theorem emit_config (e : Event) : (s.emit e).config = s.config := rfl
@[simp] theorem emit_subagents (e : Event) : (s.emit e).subagents = s.subagents := rfl
@[simp] theorem emit_pendingTasks (e : Event) : (s.emit e).pendingTasks = s.pendingTasks := rfl
@[simp] theorem emit_inFlight (e : Event) : (s.emit e).inFlight = s.inFlight := rfl
@[simp] theorem emit_terminating (e : Event) : (s.emit e).terminating = s.terminating := rfl
@[simp] theorem emit_runs (e : Event) : (s.emit e).runs = s.runs := rfl
@[simp] theorem emit_nextKey (e : Event) : (s.emit e).nextKey = s.nextKey := rfl
@[simp] theorem emit_nextRun (e : Event) : (s.emit e).nextRun = s.nextRun := rfl
@[simp] theorem emit_events (e : Event) : (s.emit e).events = s.events ++ [e] := rfl

theorem foldl_emitPendingAborted (message : TaskSpec → String) (ts : List TaskSpec) (s : State) :
    ts.foldl (fun s t => s.emitPendingAborted (message t) t) s =
      { s with
        completedResults := s.completedResults ++ ts.map fun t => t.abortedResult (message t)
        events := s.events ++ ts.map fun t => .taskCompleted t (t.abortedResult (message t)) } := by
  induction ts generalizing s with
  | nil => simp
  | cons t ts ih =>
      rw [List.foldl_cons, ih]
      simp [emitPendingAborted, emit]

theorem drainPendingAsAborted_eq (message : String) :
    s.drainPendingAsAborted message =
      { s with
        pendingTasks := []
        completedResults := s.completedResults ++ s.pendingTasks.map (·.abortedResult message)
        events := s.events ++
          s.pendingTasks.map fun t => .taskCompleted t (t.abortedResult message) } := by
  simp only [drainPendingAsAborted, foldl_emitPendingAborted (fun _ => message)]

/-! ## Picking a task -/

theorem isIdleSubagent_iff {id : String} :
    s.isIdleSubagent id = true ↔
      ∃ e, s.subagents.get? id = some e ∧ e.status = .idle ∧ id ∉ s.terminating := by
  unfold isIdleSubagent
  cases h : s.subagents.get? id with
  | none => simp
  | some e => simp [isTerminating]

theorem findIdleSubagent_some {id : String} (h : s.findIdleSubagent = some id) :
    s.isIdleSubagent id = true := by
  obtain ⟨⟨k, e⟩, hf, rfl⟩ := Option.map_eq_some_iff.mp h
  have hm := JsMap.mem_entries_iff.mp (List.mem_of_find?_eq_some hf)
  have hp := List.find?_some hf
  simp only [Bool.and_eq_true, beq_iff_eq, Bool.not_eq_true', isTerminating, List.contains_eq_mem,
    decide_eq_false_iff_not] at hp
  exact isIdleSubagent_iff.mpr ⟨e, hm, hp.1, hp.2⟩

theorem findIdleSubagent_none (h : s.findIdleSubagent = none) (id : String) :
    s.isIdleSubagent id = false := by
  rw [Bool.eq_false_iff]
  intro hi
  obtain ⟨e, he, hidle, ht⟩ := isIdleSubagent_iff.mp hi
  have hn := List.find?_eq_none.mp (Option.map_eq_none_iff.mp h) _ (JsMap.mem_entries_iff.mpr he)
  simp [hidle, isTerminating, ht] at hn

theorem truthy_eq_some {o : Option String} {id : String} :
    truthy o = some id ↔ o = some id ∧ id ≠ "" := by
  cases o with
  | none => simp [truthy]
  | some i =>
      by_cases h : i = ""
      · simp only [truthy, h, ↓reduceIte, Option.some.injEq, false_iff, reduceCtorEq]
        rintro ⟨rfl, hne⟩
        exact hne rfl
      · simp only [truthy, h, ↓reduceIte, Option.some.injEq]
        exact ⟨fun e => ⟨e, e ▸ h⟩, And.left⟩

theorem targetOf_idle {task : TaskSpec} {id : String} (h : s.targetOf task = some id) :
    s.isIdleSubagent id = true := by
  obtain ⟨h, -⟩ := truthy_eq_some.mp h
  split at h
  · split at h
    · rename_i hi
      cases h
      exact hi
    · cases h
  · exact findIdleSubagent_some h

/-- What the scan of the queue returns: the first task with a target. -/
theorem takeFrom_some {ts : List TaskSpec} {id : String} {t : TaskSpec} {rest : List TaskSpec}
    (h : s.takeFrom ts = some (id, t, rest)) :
    s.targetOf t = some id ∧ ∃ front back, ts = front ++ t :: back ∧ rest = front ++ back := by
  induction ts generalizing rest with
  | nil => cases h
  | cons task ts ih =>
      simp only [takeFrom] at h
      split at h
      · rename_i target ht
        cases h
        exact ⟨ht, [], _, rfl, rfl⟩
      · obtain ⟨⟨id', t', rest'⟩, hr, heq⟩ := Option.map_eq_some_iff.mp h
        cases heq
        obtain ⟨ht, front, back, rfl, rfl⟩ := ih hr
        exact ⟨ht, task :: front, back, rfl, rfl⟩

theorem takeFrom_none {ts : List TaskSpec} :
    s.takeFrom ts = none ↔ ∀ t ∈ ts, s.targetOf t = none := by
  induction ts with
  | nil => simp [takeFrom]
  | cons task ts ih =>
      cases h : s.targetOf task with
      | none => simp [takeFrom, h, ih]
      | some id => simp [takeFrom, h]

end State

open State

/-! ## The loop -/

/-- One call of `tryDispatchNext`. -/
inductive Dispatch : State → State → Prop
  | full {s} : s.hasSlot = false → Dispatch s s
  | empty {s} : s.pendingTasks = [] → Dispatch s s
  | stuck {s} : (∀ t ∈ s.pendingTasks, s.targetOf t = none) → s.hasLiveSubagent = true → Dispatch s s
  | drain {s} (message : String) : s.hasSlot = true → (∀ t ∈ s.pendingTasks, s.targetOf t = none) →
      s.hasLiveSubagent = false → Dispatch s (s.drainPendingAsAborted message)
  | start {s s'} {id : String} {entry : SubagentEntry} {t : TaskSpec} {front back : List TaskSpec} :
      s.hasSlot = true → s.pendingTasks = front ++ t :: back → s.targetOf t = some id →
      s.subagents.get? id = some entry → entry.status = .idle → id ∉ s.terminating →
      Dispatch ({ s with pendingTasks := front ++ back }.startRun id entry t) s' → Dispatch s s'

theorem runDispatched_idle {s : State} {id : String} {entry : SubagentEntry} {t : TaskSpec}
    (next : State → State) (he : s.subagents.get? id = some entry) (hi : entry.status = .idle)
    (ht : id ∉ s.terminating) : s.runDispatched next id t = s.startRun id entry t := by
  simp [runDispatched, he, hi, isTerminating, ht]

theorem startRun_pendingTasks (s : State) (id : String) (entry : SubagentEntry) (t : TaskSpec) :
    (s.startRun id entry t).pendingTasks = s.pendingTasks := by
  simp only [startRun]
  split <;> rfl

theorem dispatch_dispatchLoop (fuel : Nat) (s : State) (hf : s.pendingTasks.length ≤ fuel) :
    Dispatch s (dispatchLoop fuel s) := by
  induction fuel generalizing s with
  | zero => exact .empty (List.length_eq_zero_iff.mp (Nat.le_zero.mp hf))
  | succ fuel ih =>
      unfold dispatchLoop
      by_cases hc : s.canDispatch = true
      · rw [if_pos hc]
        simp only [canDispatch, Bool.and_eq_true, Bool.not_eq_true', List.isEmpty_eq_false_iff] at hc
        obtain ⟨hslot, hne⟩ := hc
        cases htake : s.takeFrom s.pendingTasks with
        | none =>
            have hnone := takeFrom_none.mp htake
            simp only [takeNextDispatchableTask, htake, Option.map_none, Bool.and_eq_true,
              Bool.not_eq_true', List.isEmpty_eq_false_iff, hne, ne_eq, not_false_eq_true, true_and]
            cases hlive : s.hasLiveSubagent with
            | true => simpa using Dispatch.stuck hnone hlive
            | false => simpa using Dispatch.drain _ hslot hnone hlive
        | some p =>
            obtain ⟨id, t, rest⟩ := p
            obtain ⟨htarget, front, back, hq, rfl⟩ := takeFrom_some htake
            obtain ⟨entry, he, hi, ht⟩ := isIdleSubagent_iff.mp (targetOf_idle htarget)
            simp only [takeNextDispatchableTask, htake, Option.map_some]
            rw [runDispatched_idle (s := { s with pendingTasks := front ++ back }) _ he hi ht]
            refine .start hslot hq htarget he hi ht (ih _ ?_)
            rw [startRun_pendingTasks]
            simp only [hq, List.length_append, List.length_cons] at hf ⊢
            omega
      · rw [if_neg hc]
        simp only [canDispatch, Bool.and_eq_true, Bool.not_eq_true', List.isEmpty_eq_false_iff,
          not_and_or, ne_eq, not_not, Bool.not_eq_true] at hc
        exact hc.elim .full .empty

theorem dispatch_tryDispatchNext (s : State) : Dispatch s s.tryDispatchNext :=
  dispatch_dispatchLoop _ s (Nat.le_refl _)

/-- What starting one task and draining the queue preserve, `tryDispatchNext` preserves. -/
theorem tryDispatchNext_invariant {I : State → Prop}
    (hdrain : ∀ s message, I s → I (s.drainPendingAsAborted message))
    (hstart : ∀ (s : State) id entry t front back, I s → s.hasSlot = true →
      s.pendingTasks = front ++ t :: back → s.subagents.get? id = some entry →
      entry.status = .idle → id ∉ s.terminating →
      I ({ s with pendingTasks := front ++ back }.startRun id entry t))
    {s : State} (h : I s) : I s.tryDispatchNext := by
  have hd := dispatch_tryDispatchNext s
  generalize s.tryDispatchNext = s' at hd
  induction hd with
  | full _ | empty _ | stuck _ _ => exact h
  | drain message _ _ _ => exact hdrain _ message h
  | start hslot hq _ he hi ht _ ih => exact ih (hstart _ _ _ _ _ _ h hslot hq he hi ht)

end WrongStack.Coordination

/-!
# Entries seen from outside

The invariants read two things of an entry: which object it is and its status. `view` is that pair,
and each operation on the map of subagents has one lemma saying what it does to the view.
-/

namespace WrongStack.Coordination

open Lib

namespace State

/-- The entry object under `id` and its status. -/
def view (s : State) (id : String) : Option (Nat × SubagentStatus) :=
  (s.subagents.get? id).map fun e => (e.key, e.status)

def released (st : SubagentStatus) : SubagentStatus := if st = .stopped then .stopped else .idle

variable {s : State}

theorem view_eq_some {id : String} {k : Nat} {st : SubagentStatus} :
    s.view id = some (k, st) ↔ ∃ e, s.subagents.get? id = some e ∧ e.key = k ∧ e.status = st := by
  simp [view, Option.map_eq_some_iff]

theorem view_of_get? {id : String} {e : SubagentEntry} (h : s.subagents.get? id = some e) :
    s.view id = some (e.key, e.status) :=
  view_eq_some.mpr ⟨e, h, rfl, rfl⟩

theorem view_eq_none {id : String} : s.view id = none ↔ s.subagents.get? id = none := by
  simp [view]

@[simp] theorem emit_view (e : Event) : (s.emit e).view = s.view := rfl

theorem isIdleSubagent_view {id : String} :
    s.isIdleSubagent id = true ↔ (∃ k, s.view id = some (k, .idle)) ∧ id ∉ s.terminating := by
  simp only [isIdleSubagent_iff, view_eq_some]
  constructor
  · rintro ⟨e, he, hi, ht⟩
    exact ⟨⟨e.key, e, he, rfl, hi⟩, ht⟩
  · rintro ⟨⟨_, e, he, _, hi⟩, ht⟩
    exact ⟨e, he, hi, ht⟩

theorem hasLiveSubagent_iff :
    s.hasLiveSubagent = true ↔ (∀ id, s.view id = none) ∨
      ∃ id k st, s.view id = some (k, st) ∧ st ≠ .stopped ∧ id ∉ s.terminating := by
  simp only [hasLiveSubagent, Bool.or_eq_true, beq_iff_eq, JsMap.size_eq_zero, List.any_eq_true,
    Bool.and_eq_true, bne_iff_ne, Bool.not_eq_true', isTerminating, List.contains_eq_mem,
    decide_eq_false_iff_not, Prod.exists, JsMap.mem_entries_iff, view_eq_none]
  refine or_congr Iff.rfl ⟨?_, ?_⟩
  · rintro ⟨id, e, he, hs, ht⟩
    exact ⟨id, e.key, e.status, view_of_get? he, hs, ht⟩
  · rintro ⟨id, k, st, hv, hs, ht⟩
    obtain ⟨e, he, _, rfl⟩ := view_eq_some.mp hv
    exact ⟨id, e, he, hs, ht⟩

/-! ## Operations -/

theorem view_of_set {t : State} {id : String} {e : SubagentEntry}
    (h : t.subagents = s.subagents.set id e) (id' : String) :
    t.view id' = if id = id' then some (e.key, e.status) else s.view id' := by
  by_cases hid : id = id' <;> simp [view, h, JsMap.get?_set, hid]

theorem view_of_delete {t : State} {id : String} (h : t.subagents = s.subagents.delete id)
    (id' : String) : t.view id' = if id = id' then none else s.view id' := by
  by_cases hid : id = id' <;> simp [view, h, JsMap.get?_delete, hid]

/-- An update of the status under one id adds no entry and keeps the keys. -/
theorem view_some_of_update {t : State} {id : String} {f : SubagentStatus → SubagentStatus}
    (h : ∀ x, t.view x = if id = x then (s.view x).map fun p => (p.1, f p.2) else s.view x) {x : String}
    {k : Nat} {st : SubagentStatus} (hv : t.view x = some (k, st)) : ∃ st', s.view x = some (k, st') := by
  rw [h] at hv
  split at hv
  · obtain ⟨⟨k', st'⟩, hv', heq⟩ := Option.map_eq_some_iff.mp hv
    cases heq
    exact ⟨st', hv'⟩
  · exact ⟨st, hv⟩

theorem view_some_of_delete {t : State} {id : String} (h : t.subagents = s.subagents.delete id) {x : String}
    {p : Nat × SubagentStatus} (hv : t.view x = some p) : s.view x = some p := by
  rw [view_of_delete h] at hv
  split at hv
  · cases hv
  · exact hv

theorem startRun_subagents (s : State) (id : String) (entry : SubagentEntry) (t : TaskSpec) :
    (s.startRun id entry t).subagents = s.subagents.set id
      { entry with
        status := .running, currentTask := some t.id
        tasks := entry.tasks ++ [{ t with subagentId := some id }] } := by
  simp only [startRun]
  split <;> rfl

theorem startRun_view (s : State) (id id' : String) (entry : SubagentEntry) (t : TaskSpec) :
    (s.startRun id entry t).view id' =
      if id = id' then some (entry.key, .running) else s.view id' :=
  view_of_set (startRun_subagents s id entry t) id'

theorem settleSlot_view (s : State) (result : TaskResult) (id : String) :
    (s.settleSlot result).view id =
      if result.subagentId = id then (s.view id).map fun p => (p.1, released p.2) else s.view id := by
  by_cases h : result.subagentId = id
  · subst h
    simp only [view, settleSlot, JsMap.get?_modify, ↓reduceIte, Option.map_map]
    congr 1
    funext e
    simp only [Function.comp_apply, SubagentEntry.release, released]
    split <;> simp_all
  · simp [view, settleSlot, JsMap.get?_modify, h]

theorem abortByWatchdog_view (s : State) (r : Run) (how : Settlement) :
    (s.abortByWatchdog r how).view = s.view := by
  unfold abortByWatchdog
  split
  · funext id
    by_cases h : r.subagentId = id
    · subst h
      simp only [view, JsMap.get?_modify, ↓reduceIte, Option.map_map]
      rfl
    · simp [view, JsMap.get?_modify, h]
  · rfl

theorem stop_view (s : State) (id id' : String) :
    (s.stop id).view id' =
      if id = id' then (s.view id').map fun p => (p.1, .stopped) else s.view id' := by
  unfold stop
  cases he : s.subagents.get? id with
  | none =>
      by_cases h : id = id'
      · subst h
        simp [view, he]
      · simp [h]
  | some e =>
      have hv := view_of_set (s := s) (t := s.stop id) (by simp only [stop, he]; rfl) id'
      simp only [stop, he] at hv
      by_cases h : id = id'
      · subst h
        simp [view, he]
      · simp [hv, h]

end State

end WrongStack.Coordination

/-!
# Slots and executions

`Counted`: every slot of `inFlight` is an unsettled run. `Exclusive`: the runs are on distinct entry
objects and none of them is on an idle one. Every operation keeps the first. The second is lost
exactly where a run gives back a worker that is busy with a run of another entry object (`StaleOn`).
-/

namespace WrongStack.Coordination

open Lib State

/-! ## The invariants -/

/-- Slots are runs, run ids and entry objects are fresh when they are made, and only stopped
subagents are terminating. -/
structure Counted (s : State) : Prop where
  runner : s.config.runner = true
  inFlight : s.inFlight = s.runs.length
  runIds : (s.runs.map Run.runId).Nodup
  runIds_lt : ∀ r ∈ s.runs, r.runId < s.nextRun
  entries_lt : ∀ r ∈ s.runs, r.entry < s.nextKey
  keys_lt : ∀ id k st, s.view id = some (k, st) → k < s.nextKey
  keys_inj : ∀ id id' k st st', s.view id = some (k, st) → s.view id' = some (k, st') → id = id'
  terminating : ∀ id ∈ s.terminating, ∃ k, s.view id = some (k, .stopped)
  noError : ∀ id k, s.view id ≠ some (k, .error)

/-- No entry object executes two tasks, and an idle one executes none. -/
structure Exclusive (s : State) : Prop where
  distinct : (s.runs.map Run.entry).Nodup
  own : ∀ r ∈ s.runs, ∀ id st, s.view id = some (r.entry, st) → id = r.subagentId
  idle : ∀ r ∈ s.runs, ∀ id, s.view id ≠ some (r.entry, .idle)

/-- `r` was started on an entry object that is gone, and the entry that now has its id is busy. -/
def StaleOn (s : State) (r : Run) : Prop :=
  ∃ k, s.view r.subagentId = some (k, .running) ∧ k ≠ r.entry

instance (s : State) (r : Run) : Decidable (StaleOn s r) :=
  decidable_of_iff ((s.view r.subagentId).any fun p => p.1 != r.entry && p.2 == .running) (by
    simp only [Option.any_eq_true, Bool.and_eq_true, bne_iff_ne, beq_iff_eq, Prod.exists, StaleOn]
    constructor
    · rintro ⟨k, st, hv, hne, rfl⟩
      exact ⟨k, hv, hne⟩
    · rintro ⟨k, hv, hne⟩
      exact ⟨k, _, hv, hne, rfl⟩)

/-- The part of the state that the two invariants are about. -/
def State.accounts (s : State) :=
  (s.config.runner, s.inFlight, s.runs, s.nextRun, s.nextKey, s.terminating, s.view)

variable {s s' : State}

theorem Counted.congr (h : Counted s) (he : s'.accounts = s.accounts) : Counted s' := by
  simp only [accounts, Prod.mk.injEq] at he
  obtain ⟨h1, h2, h3, h4, h5, h6, h7⟩ := he
  exact ⟨h1 ▸ h.runner, by rw [h2, h3]; exact h.inFlight, h3 ▸ h.runIds, h3 ▸ h4 ▸ h.runIds_lt,
    h3 ▸ h5 ▸ h.entries_lt, h7 ▸ h5 ▸ h.keys_lt, h7 ▸ h.keys_inj, h6 ▸ h7 ▸ h.terminating,
    h7 ▸ h.noError⟩

theorem Exclusive.congr (h : Exclusive s) (he : s'.accounts = s.accounts) : Exclusive s' := by
  simp only [accounts, Prod.mk.injEq] at he
  obtain ⟨-, -, h3, -, -, -, h7⟩ := he
  exact ⟨h3 ▸ h.distinct, h3 ▸ h7 ▸ h.own, h3 ▸ h7 ▸ h.idle⟩

theorem counted_init {config : Config} (hr : config.runner = true) : Counted (init config) :=
  ⟨hr, rfl, List.nodup_nil, by simp [init], by simp [init], by simp [init, view],
    by simp [init, view], by simp [init], by simp [init, view]⟩

theorem exclusive_init (config : Config) : Exclusive (init config) :=
  ⟨List.nodup_nil, by simp [init], by simp [init]⟩

/-! ## Starting a run -/

theorem startRun_eq (hr : s.config.runner = true) (id : String) (entry : SubagentEntry)
    (t : TaskSpec) :
    (s.startRun id entry t).config = s.config ∧
      (s.startRun id entry t).inFlight = s.inFlight + 1 ∧
      (s.startRun id entry t).runs = s.runs ++
        [{ runId := s.nextRun, subagentId := id, entry := entry.key
           task := { t with subagentId := some id } }] ∧
      (s.startRun id entry t).nextRun = s.nextRun + 1 ∧
      (s.startRun id entry t).nextKey = s.nextKey ∧
      (s.startRun id entry t).terminating = s.terminating := by
  simp [startRun, hr, emit]

theorem Counted.startRun (h : Counted s) {id : String} {entry : SubagentEntry} {t : TaskSpec}
    (he : s.subagents.get? id = some entry) (ht : id ∉ s.terminating) :
    Counted (s.startRun id entry t) := by
  obtain ⟨hc, hf, hruns, hn, hk, hterm⟩ := startRun_eq h.runner id entry t
  have hv := view_of_get? he
  have hview := fun id' => startRun_view s id id' entry t
  refine ⟨hc ▸ h.runner, ?_, ?_, ?_, ?_, ?_, ?_, ?_, ?_⟩
  · rw [hf, hruns, h.inFlight, List.length_append, List.length_singleton]
  · rw [hruns, List.map_append, List.nodup_append]
    refine ⟨h.runIds, List.nodup_singleton _, ?_⟩
    intro a ha b hb
    obtain ⟨r, hr, rfl⟩ := List.mem_map.mp ha
    have := h.runIds_lt r hr
    simp only [List.map_cons, List.map_nil, List.mem_singleton] at hb
    omega
  · rw [hruns, hn]
    intro r hr
    rcases List.mem_append.mp hr with hr | hr
    · exact Nat.lt_succ_of_lt (h.runIds_lt r hr)
    · simp only [List.mem_singleton] at hr
      subst hr
      exact Nat.lt_succ_self _
  · rw [hruns, hk]
    intro r hr
    rcases List.mem_append.mp hr with hr | hr
    · exact h.entries_lt r hr
    · simp only [List.mem_singleton] at hr
      subst hr
      exact h.keys_lt id _ _ hv
  · intro id' k st hv'
    rw [hk]
    rw [hview] at hv'
    split at hv'
    · cases hv'
      exact h.keys_lt id _ _ hv
    · exact h.keys_lt id' k st hv'
  · intro i j k st st' hi hj
    rw [hview] at hi hj
    split at hi <;> split at hj
    · rename_i h1 h2
      rw [← h1, ← h2]
    · rename_i h1 _
      cases hi
      exact h1 ▸ h.keys_inj _ _ _ _ _ hv hj
    · rename_i _ h2
      cases hj
      exact h2 ▸ h.keys_inj _ _ _ _ _ hi hv
    · exact h.keys_inj _ _ _ _ _ hi hj
  · rw [hterm]
    intro id' hid'
    rw [hview, if_neg (fun e : id = id' => ht (e ▸ hid'))]
    exact h.terminating id' hid'
  · intro id' k hv'
    rw [hview] at hv'
    split at hv'
    · simp at hv'
    · exact h.noError id' k hv'

theorem Exclusive.startRun (h : Exclusive s) (hc : Counted s) {id : String} {entry : SubagentEntry}
    {t : TaskSpec} (he : s.subagents.get? id = some entry) (hi : entry.status = .idle) :
    Exclusive (s.startRun id entry t) := by
  obtain ⟨-, -, hruns, -, -, -⟩ := startRun_eq hc.runner id entry t
  have hv : s.view id = some (entry.key, .idle) := hi ▸ view_of_get? he
  have hview := fun id' => startRun_view s id id' entry t
  refine ⟨?_, ?_, ?_⟩
  · rw [hruns, List.map_append, List.nodup_append]
    refine ⟨h.distinct, List.nodup_singleton _, ?_⟩
    intro a ha b hb
    obtain ⟨r, hr, rfl⟩ := List.mem_map.mp ha
    simp only [List.map_cons, List.map_nil, List.mem_singleton] at hb
    subst hb
    exact fun e => h.idle r hr id (e ▸ hv)
  · rw [hruns]
    intro r hr id' st hv'
    rw [hview] at hv'
    rcases List.mem_append.mp hr with hr | hr
    · split at hv'
      · simp only [Option.some.injEq, Prod.mk.injEq] at hv'
        exact absurd (hv'.1 ▸ hv) (h.idle r hr id)
      · exact h.own r hr id' st hv'
    · simp only [List.mem_singleton] at hr
      subst hr
      split at hv'
      · rename_i hid
        exact hid.symm
      · exact (hc.keys_inj _ _ _ _ _ hv hv').symm
  · rw [hruns]
    intro r hr id' hv'
    rw [hview] at hv'
    rcases List.mem_append.mp hr with hr | hr
    · split at hv'
      · simp at hv'
      · exact h.idle r hr id' hv'
    · simp only [List.mem_singleton] at hr
      subst hr
      split at hv'
      · cases hv'
      · rename_i hid
        exact hid (hc.keys_inj _ _ _ _ _ hv hv')

/-! ## Dispatching -/

theorem drain_accounts (message : String) : (s.drainPendingAsAborted message).accounts = s.accounts := by
  rw [drainPendingAsAborted_eq]
  rfl

theorem Counted.tryDispatchNext (h : Counted s) : Counted s.tryDispatchNext := by
  refine tryDispatchNext_invariant (fun s m hs => hs.congr (drain_accounts m)) ?_ h
  intro s id entry t front back hs _ _ he _ ht
  exact Counted.startRun (s := { s with pendingTasks := front ++ back }) (hs.congr rfl) he ht

theorem Exclusive.tryDispatchNext (h : Exclusive s) (hc : Counted s) : Exclusive s.tryDispatchNext := by
  refine (tryDispatchNext_invariant (I := fun s => Counted s ∧ Exclusive s) ?_ ?_ ⟨hc, h⟩).2
  · intro s m hs
    exact ⟨hs.1.congr (drain_accounts m), hs.2.congr (drain_accounts m)⟩
  · intro s id entry t front back hs _ _ he hi ht
    have hc' : Counted { s with pendingTasks := front ++ back } := hs.1.congr rfl
    have he' : Exclusive { s with pendingTasks := front ++ back } := hs.2.congr rfl
    exact ⟨hc'.startRun he ht, he'.startRun hc' he hi⟩

end WrongStack.Coordination
