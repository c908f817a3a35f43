import WrongStack.Delivery.Director

/-!
# Waiters and the promises they resolve

A slot of `awaitTasks` holds the result, or a promise that the waiter of the task will resolve or has resolved
with it. `results` are all results so far.
-/

namespace WrongStack.Delivery

open Lib

variable {s t : State} {results : JsMap TaskId TaskResult} {slots : List (TaskId × Slot)} {id : TaskId}
  {r : TaskResult}

/-- The slot of an id leads to its result. -/
def SlotOk (s : State) (results : JsMap TaskId TaskResult) (id : TaskId) : Slot → Prop
  | .value r => results.get? id = some r
  | .promise index => s.taskWaiters.get? id = some index ∨
      ∃ r, s.promises[index]? = some (some r) ∧ results.get? id = some r

/-- The waiters, the slots that have been handed out and the calls of `awaitTasksAny`. -/
structure Waiting (s : State) (results : JsMap TaskId TaskResult) (slots : List (TaskId × Slot)) : Prop where
  waiter : ∀ id index, s.taskWaiters.get? id = some index →
    s.promises[index]? = some none ∧ results.get? id = none
  apart : ∀ id id' index, s.taskWaiters.get? id = some index → s.taskWaiters.get? id' = some index → id = id'
  named : ∀ id index, s.taskWaiters.get? id = some index → (id, .promise index) ∈ slots
  slots : ∀ p ∈ slots, SlotOk s results p.1 p.2
  any : ∀ call ∈ s.anyCalls, call.result = none → ∀ id ∈ call.taskIds, results.get? id = none

theorem Waiting.congr (h : Waiting s results slots) (hwaiters : t.taskWaiters = s.taskWaiters)
    (hpromises : t.promises = s.promises) (hcalls : t.anyCalls = s.anyCalls) : Waiting t results slots := by
  have hslot : ∀ id slot, SlotOk s results id slot → SlotOk t results id slot := by
    intro id slot hslot
    cases slot with
    | value r => exact hslot
    | promise index =>
        unfold SlotOk
        rw [hwaiters, hpromises]
        exact hslot
  refine ⟨?_, ?_, ?_, fun p hp => hslot _ _ (h.slots p hp), ?_⟩
  · rw [hwaiters, hpromises]
    exact h.waiter
  · rw [hwaiters]
    exact h.apart
  · rw [hwaiters]
    exact h.named
  · rw [hcalls]
    exact h.any

/-! ## A result comes in -/

theorem resolve_result {call : AnyCall} (h : (call.resolve r).result = none) :
    call.resolve r = call ∧ call.result = none ∧ r.taskId ∉ call.taskIds := by
  unfold AnyCall.resolve at h ⊢
  split at h
  · cases h
  · rename_i hwaits
    rw [if_neg hwaits]
    refine ⟨rfl, h, fun hmem => hwaits ?_⟩
    simp [AnyCall.waits, h, hmem]

theorem Waiting.settle (h : Waiting s results slots) (hnew : results.get? r.taskId = none) :
    Waiting (s.settle r) (results.set r.taskId r) slots := by
  have hother : ∀ id, id ≠ r.taskId → (results.set r.taskId r).get? id = results.get? id := by
    intro id hne
    rw [JsMap.get?_set, if_neg (Ne.symm hne)]
  have hwaiter : ∀ id index, (s.settle r).taskWaiters.get? id = some index →
      id ≠ r.taskId ∧ s.taskWaiters.get? id = some index := by
    intro id index hid
    rw [State.settle, JsMap.get?_delete] at hid
    split at hid
    · cases hid
    · rename_i hne
      exact ⟨Ne.symm hne, hid⟩
  -- only the promise of the waiter changes
  have hpromise : ∀ index, s.taskWaiters.get? r.taskId ≠ some index →
      (s.settle r).promises[index]? = s.promises[index]? := by
    intro index hindex
    unfold State.settle
    cases hget : s.taskWaiters.get? r.taskId with
    | none => rfl
    | some index' =>
        have hne : index' ≠ index := fun heq => hindex (heq ▸ hget)
        simp only [List.getElem?_set_ne hne]
  refine ⟨fun id index hid => ?_, fun id id' index hid hid' => ?_, fun id index hid => ?_, fun p hp => ?_,
    fun call hcall hpending id hid => ?_⟩
  · obtain ⟨hne, hold⟩ := hwaiter id index hid
    obtain ⟨hindex, hnone⟩ := h.waiter id index hold
    have hapart : s.taskWaiters.get? r.taskId ≠ some index := fun heq => hne (h.apart _ _ _ hold heq)
    rw [hpromise index hapart, hother id hne]
    exact ⟨hindex, hnone⟩
  · exact h.apart id id' index (hwaiter id index hid).2 (hwaiter id' index hid').2
  · exact h.named id index (hwaiter id index hid).2
  · have hslot := h.slots p hp
    obtain ⟨id, slot⟩ := p
    cases slot with
    | value r' =>
        have hne : id ≠ r.taskId := by
          rintro rfl
          rw [show results.get? r.taskId = some r' from hslot] at hnew
          cases hnew
        exact (hother id hne).trans hslot
    | promise index =>
        rcases hslot with hpending | ⟨r', hindex, hresult⟩
        · by_cases heq : id = r.taskId
          · subst heq
            refine .inr ⟨r, ?_, JsMap.get?_set_self _ _ _⟩
            have hlt := (List.getElem?_eq_some_iff.mp (h.waiter _ _ hpending).1).1
            simp only [State.settle, hpending, List.getElem?_set_self hlt]
          · refine .inl ?_
            simp only [State.settle, JsMap.get?_delete, if_neg (Ne.symm heq)]
            exact hpending
        · have hne : id ≠ r.taskId := by
            rintro rfl
            rw [hresult] at hnew
            cases hnew
          have hapart : s.taskWaiters.get? r.taskId ≠ some index := by
            intro heq
            have hnone := (h.waiter _ _ heq).1
            rw [hindex] at hnone
            cases hnone
          exact .inr ⟨r', (hpromise index hapart).trans hindex, (hother id hne).trans hresult⟩
  · obtain ⟨call, hmem, rfl⟩ := List.mem_map.mp hcall
    obtain ⟨hsame, hresult, hnot⟩ := resolve_result hpending
    rw [hsame] at hid
    rw [hother id fun heq => hnot (heq ▸ hid)]
    exact h.any call hmem hresult id hid

/-! ## Somebody asks -/

theorem Waiting.slotFor (h : Waiting s results slots)
    (hcached : ∀ r, s.completed.get? id = some r → results.get? id = some r)
    (hkept : ∀ r, results.get? id = some r → s.completed.get? id = some r) :
    Waiting (s.slotFor id).1 results (slots ++ [(id, (s.slotFor id).2)]) := by
  have happend : ∀ {slot}, SlotOk s results id slot → Waiting s results (slots ++ [(id, slot)]) := by
    intro slot hslot
    refine ⟨h.waiter, h.apart, fun id' index hid => List.mem_append_left _ (h.named id' index hid), ?_, h.any⟩
    intro p hp
    rcases List.mem_append.mp hp with hp | hp
    · exact h.slots p hp
    · rw [List.mem_singleton.mp hp]
      exact hslot
  unfold State.slotFor
  cases hget : s.completed.get? id with
  | some cached => exact happend (hcached cached hget)
  | none =>
      have hnone : results.get? id = none := by
        cases hres : results.get? id with
        | none => rfl
        | some r =>
            have hc := hkept r hres
            rw [hget] at hc
            cases hc
      cases hwaiter : s.taskWaiters.get? id with
      | some existing => exact happend (.inl hwaiter)
      | none =>
          simp only
          have hlt : ∀ {index : Nat} {v : Option TaskResult}, s.promises[index]? = some v →
              index < s.promises.length := fun hindex => (List.getElem?_eq_some_iff.mp hindex).1
          have hold : ∀ {index : Nat} {v : Option TaskResult}, s.promises[index]? = some v →
              (s.promises ++ [none])[index]? = some v := fun hindex => by
            rw [List.getElem?_append_left (hlt hindex), hindex]
          refine ⟨fun id' index hid => ?_, fun id₁ id₂ index h₁ h₂ => ?_, fun id' index hid => ?_, fun p hp => ?_,
            h.any⟩
          · rw [JsMap.get?_set] at hid
            split at hid
            · rename_i heq
              cases hid
              subst heq
              exact ⟨by simp, hnone⟩
            · obtain ⟨hindex, hres⟩ := h.waiter id' index hid
              exact ⟨hold hindex, hres⟩
          · rw [JsMap.get?_set] at h₁ h₂
            split at h₁ <;> split at h₂
            · rename_i heq₁ heq₂
              exact heq₁.symm.trans heq₂
            · cases h₁
              exact absurd (hlt (h.waiter _ _ h₂).1) (Nat.lt_irrefl _)
            · cases h₂
              exact absurd (hlt (h.waiter _ _ h₁).1) (Nat.lt_irrefl _)
            · exact h.apart id₁ id₂ index h₁ h₂
          · rw [JsMap.get?_set] at hid
            split at hid
            · rename_i heq
              cases hid
              subst heq
              exact List.mem_append_right _ (List.mem_singleton.mpr rfl)
            · exact List.mem_append_left _ (h.named id' index hid)
          · rcases List.mem_append.mp hp with hp | hp
            · have hslot := h.slots p hp
              obtain ⟨id', slot⟩ := p
              cases slot with
              | value r => exact hslot
              | promise index =>
                  rcases hslot with hpending | ⟨r, hindex, hres⟩
                  · refine .inl ?_
                    rw [JsMap.get?_set, if_neg]
                    · exact hpending
                    · rintro rfl
                      rw [hwaiter] at hpending
                      cases hpending
                  · exact .inr ⟨r, hold hindex, hres⟩
            · rw [List.mem_singleton.mp hp]
              exact .inl (JsMap.get?_set_self _ _ _)

theorem slotFor_frame (s : State) (id : TaskId) : ∃ promises taskWaiters,
    (s.slotFor id).1 = { s with promises, taskWaiters } := by
  unfold State.slotFor
  cases s.completed.get? id with
  | some cached => exact ⟨_, _, rfl⟩
  | none => cases s.taskWaiters.get? id <;> exact ⟨_, _, rfl⟩

theorem slotsFor_frame (ids : List TaskId) (s : State) : (∃ promises taskWaiters,
    (s.slotsFor ids).1 = { s with promises, taskWaiters }) ∧ (s.slotsFor ids).2.map Prod.fst = ids := by
  induction ids generalizing s with
  | nil => exact ⟨⟨_, _, rfl⟩, rfl⟩
  | cons id ids ih =>
      obtain ⟨promises, taskWaiters, hone⟩ := slotFor_frame s id
      obtain ⟨⟨promises', taskWaiters', hrest⟩, hids⟩ := ih (s.slotFor id).1
      refine ⟨⟨promises', taskWaiters', ?_⟩, congrArg (id :: ·) hids⟩
      change ((s.slotFor id).1.slotsFor ids).1 = _
      rw [hrest, hone]

theorem Waiting.slotsFor {ids : List TaskId} (h : Waiting s results slots)
    (hcached : ∀ id r, s.completed.get? id = some r → results.get? id = some r)
    (hkept : ∀ id ∈ ids, ∀ r, results.get? id = some r → s.completed.get? id = some r) :
    Waiting (s.slotsFor ids).1 results (slots ++ (s.slotsFor ids).2) := by
  induction ids generalizing s slots with
  | nil => simpa [State.slotsFor] using h
  | cons id ids ih =>
      obtain ⟨promises, taskWaiters, hone⟩ := slotFor_frame s id
      have hfirst := h.slotFor (hcached id) (hkept id List.mem_cons_self)
      have hrest := ih hfirst (by rw [hone]; exact hcached)
        (by rw [hone]; exact fun id' hid' => hkept id' (List.mem_cons_of_mem id hid'))
      rw [List.append_assoc] at hrest
      exact hrest

/-! ## What a call gets -/

/-- All of whose tasks are completed: the call gets their results. -/
theorem Waiting.resolution {ids : List (TaskId × Slot)} (h : Waiting s results slots) (hids : ids ⊆ slots)
    (hdone : ∀ id ∈ ids.map Prod.fst, results.has id = true) :
    s.resolution ids = (ids.map Prod.fst).mapM results.get? := by
  unfold State.resolution
  induction ids with
  | nil => rfl
  | cons p ids ih =>
      obtain ⟨hp, hsub⟩ := List.cons_subset.mp hids
      rw [List.map_cons] at hdone ⊢
      have hvalue : s.slotValue p.2 = results.get? p.1 := by
        obtain ⟨r, hr⟩ := JsMap.has_iff.mp (hdone p.1 List.mem_cons_self)
        have hslot := h.slots p hp
        obtain ⟨id, slot⟩ := p
        cases slot with
        | value r' => exact hslot.symm
        | promise index =>
            rcases hslot with hpending | ⟨r', hindex, hresult⟩
            · rw [(h.waiter _ _ hpending).2] at hr
              cases hr
            · simp only [State.slotValue, hindex, Option.join_some, hresult]
      rw [List.mapM_cons, List.mapM_cons, hvalue, ih hsub fun id hid => hdone id (List.mem_cons_of_mem _ hid)]

/-- A call that waits for a task that is not completed is pending. -/
theorem Waiting.resolution_none {ids : List (TaskId × Slot)} {index : Nat} (h : Waiting s results slots)
    (hwaiter : s.taskWaiters.get? id = some index) (hmem : (id, .promise index) ∈ ids) :
    s.resolution ids = none := by
  unfold State.resolution
  induction ids with
  | nil => cases hmem
  | cons p ids ih =>
      rw [List.mapM_cons]
      rcases List.mem_cons.mp hmem with rfl | hmem
      · have hnone : s.slotValue (.promise index) = none := by
          simp only [State.slotValue, (h.waiter _ _ hwaiter).1, Option.join_some]
        rw [hnone]
        rfl
      · rw [ih hmem]
        cases s.slotValue p.2 <;> rfl

end WrongStack.Delivery

/-!
# What has happened so far

The results that there have been and those that nobody waited for, and how they stay in step with the state.
-/

namespace WrongStack.Delivery

open Lib

variable {s : State} {h : History} {id : TaskId} {task : TaskSpec} {r : TaskResult}

/-! ## The history -/

/-- A call of `awaitTasks` or an unexpired one of `awaitTasksAny` that names the task is pending. -/
def Pending (s : State) (id : TaskId) : Prop :=
  (∃ slots ∈ s.awaits, id ∈ slots.map Prod.fst ∧ s.resolution slots = none) ∨
    ∃ call ∈ s.anyCalls, id ∈ call.taskIds ∧ call.result = none

instance (s : State) (id : TaskId) : Decidable (Pending s id) := by unfold Pending; infer_instance

structure History where
  /-- The tasks of `assignInternal`. -/
  internal : List TaskId := []
  results : JsMap TaskId TaskResult := .empty
  /-- The completions of non-internal tasks while no call that names the task was pending. -/
  unheard : List (TaskSpec × TaskResult) := []

/-- The task is completed with `r`. -/
def History.completed (h : History) (s : State) (task : TaskSpec) (r : TaskResult) : History :=
  { h with
    results := h.results.set r.taskId r
    unheard := if r.taskId ∈ h.internal ∨ Pending s r.taskId then h.unheard else h.unheard ++ [(task, r)] }

def record (h : History) (s : State) : Op → History
  | .assign task randomUUID =>
      if s.workCompleteFlag then h.completed s (task.withId randomUUID) (synthetic (task.withId randomUUID)) else h
  | .assignInternal task randomUUID => { h with internal := (task.withId randomUUID).id :: h.internal }
  | .complete task r => h.completed s task r
  | _ => h

/-- A task that is completed and whose result is not kept. -/
def Forgotten (s : State) (id : TaskId) : Prop :=
  id ∈ s.assigned ∧ id ∉ s.outstanding.map TaskSpec.id ∧ s.completed.get? id = none

instance (s : State) (id : TaskId) : Decidable (Forgotten s id) := by unfold Forgotten; infer_instance

/-! ## The invariant -/

structure Inv (s : State) (h : History) : Prop where
  known : ∀ id r, h.results.get? id = some r → id ∈ s.assigned ∧ id ∉ s.outstanding.map TaskSpec.id
  assigned : s.outstanding.map TaskSpec.id ⊆ s.assigned
  distinct : (s.outstanding.map TaskSpec.id).Nodup
  cached : ∀ id r, s.completed.get? id = some r → h.results.get? id = some r
  internal : ∀ id, h.results.get? id = none → (id ∈ s.internalTaskIds ↔ id ∈ h.internal)
  named : h.internal ⊆ s.assigned
  waiting : Waiting s h.results s.awaits.flatten
  reported : s.notified = h.unheard.map fun p => notification p.1 p.2
  once : (h.unheard.map fun p => p.2.taskId).Nodup
  done : ∀ p ∈ h.unheard, h.results.has p.2.taskId = true

theorem inv_init : Inv {} {} where
  known := fun _ _ hid => by cases hid
  assigned := List.Subset.refl _
  distinct := List.nodup_nil
  cached := fun _ _ hid => by cases hid
  internal := fun _ _ => Iff.rfl
  named := List.Subset.refl _
  waiting := ⟨fun _ _ hid => (by cases hid), fun _ _ _ hid => (by cases hid), fun _ _ hid => (by cases hid),
    fun _ hp => (by cases hp), fun _ hc => (by cases hc)⟩
  reported := rfl
  once := List.nodup_nil
  done := fun _ hp => by cases hp

theorem Inv.fresh (hinv : Inv s h) (hid : id ∉ s.assigned) : h.results.get? id = none := by
  cases hget : h.results.get? id with
  | none => rfl
  | some r => exact absurd (hinv.known id r hget).1 hid

theorem Inv.open (hinv : Inv s h) (hid : id ∈ s.outstanding.map TaskSpec.id) : h.results.get? id = none := by
  cases hget : h.results.get? id with
  | none => rfl
  | some r => exact absurd hid (hinv.known id r hget).2

/-- The cache has the result of every completed task that is not forgotten. -/
theorem Inv.kept (hinv : Inv s h) (hid : ¬ Forgotten s id) (hr : h.results.get? id = some r) :
    s.completed.get? id = some r := by
  obtain ⟨hassigned, hout⟩ := hinv.known id r hr
  cases hget : s.completed.get? id with
  | none => exact absurd ⟨hassigned, hout, hget⟩ hid
  | some r' =>
      have hr' := hinv.cached id r' hget
      exact hr'.symm.trans hr

/-- Somebody gets the result in band just when a call that names the task is pending. -/
theorem Waiting.consumes_iff {results : JsMap TaskId TaskResult} (hw : Waiting s results s.awaits.flatten)
    (hnew : results.get? id = none) : s.consumes id = true ↔ Pending s id := by
  unfold State.consumes Pending
  rw [Bool.or_eq_true]
  apply or_congr
  · constructor
    · intro hhas
      obtain ⟨index, hindex⟩ := JsMap.has_iff.mp hhas
      obtain ⟨slots, hslots, hmem⟩ := List.mem_flatten.mp (hw.named id index hindex)
      exact ⟨slots, hslots, List.mem_map.mpr ⟨_, hmem, rfl⟩, hw.resolution_none hindex hmem⟩
    · rintro ⟨slots, hslots, hid, -⟩
      obtain ⟨⟨id', slot⟩, hmem, rfl⟩ := List.mem_map.mp hid
      have hslot := hw.slots _ (List.mem_flatten.mpr ⟨slots, hslots, hmem⟩)
      cases slot with
      | value r =>
          rw [show results.get? id' = some r from hslot] at hnew
          cases hnew
      | promise index =>
          rcases hslot with hwaiter | ⟨r, -, hr⟩
          · exact JsMap.has_iff.mpr ⟨index, hwaiter⟩
          · rw [hr] at hnew
            cases hnew
  · simp only [List.any_eq_true, AnyCall.waits, Bool.and_eq_true, Option.isNone_iff_eq_none, List.contains_iff_mem]
    constructor
    · rintro ⟨call, hcall, hresult, hid⟩
      exact ⟨call, hcall, hid, hresult⟩
    · rintro ⟨call, hcall, hid, hresult⟩
      exact ⟨call, hcall, hresult, hid⟩

/-! ## A completion -/

theorem trimmed_eq {completed : JsMap TaskId TaskResult} (h : completed.size ≤ MAX_COMPLETED) :
    trimmed completed = completed := by
  unfold trimmed
  rw [Nat.sub_eq_zero_of_le h]
  rfl

/-- What a completion does to the history, in any state that notes it. -/
theorem Inv.completed {t : State} (hinv : Inv s h) (hnew : h.results.get? r.taskId = none)
    (hassigned : r.taskId ∈ t.assigned ∧ s.assigned ⊆ t.assigned)
    (hout : List.Sublist t.outstanding s.outstanding ∧ r.taskId ∉ t.outstanding.map TaskSpec.id)
    (hcached : ∀ id r', t.completed.get? id = some r' → (id = r.taskId ∧ r' = r) ∨ s.completed.get? id = some r')
    (hinternal : ∀ id, id ≠ r.taskId → (id ∈ t.internalTaskIds ↔ id ∈ s.internalTaskIds))
    (hwaiting : Waiting t (h.results.set r.taskId r) t.awaits.flatten)
    (hreported : t.notified = s.notified ++
      if r.taskId ∈ h.internal ∨ Pending s r.taskId then [] else [notification task r]) :
    Inv t (h.completed s task r) := by
  have hget : ∀ id r', (h.results.set r.taskId r).get? id = some r' →
      (id = r.taskId ∧ r' = r) ∨ h.results.get? id = some r' := by
    intro id r' hid
    rw [JsMap.get?_set] at hid
    split at hid
    · rename_i heq
      cases hid
      exact .inl ⟨heq.symm, rfl⟩
    · exact .inr hid
  have hset : ∀ id r', id ≠ r.taskId → h.results.get? id = some r' →
      (h.results.set r.taskId r).get? id = some r' := by
    intro id r' hne hid
    rw [JsMap.get?_set, if_neg (Ne.symm hne)]
    exact hid
  have hmap : List.Sublist (t.outstanding.map TaskSpec.id) (s.outstanding.map TaskSpec.id) := hout.1.map _
  -- a task that is reported has a result, so it is another one
  have hother : ∀ p ∈ h.unheard, p.2.taskId ≠ r.taskId := by
    intro p hp heq
    have hhas := hinv.done p hp
    rw [heq, JsMap.has_iff] at hhas
    obtain ⟨r', hr'⟩ := hhas
    rw [hnew] at hr'
    cases hr'
  refine ⟨fun id r' hid => ?_, ?_, hinv.distinct.sublist hmap, fun id r' hid => ?_, fun id hid => ?_,
    fun id hid => hassigned.2 (hinv.named hid), hwaiting, ?_, ?_, fun p hp => ?_⟩
  · rcases hget id r' hid with ⟨rfl, -⟩ | hold
    · exact ⟨hassigned.1, hout.2⟩
    · obtain ⟨hmem, hnot⟩ := hinv.known id r' hold
      exact ⟨hassigned.2 hmem, fun hin => hnot (hmap.subset hin)⟩
  · intro id hid
    exact hassigned.2 (hinv.assigned (hmap.subset hid))
  · rcases hcached id r' hid with ⟨rfl, rfl⟩ | hold
    · exact JsMap.get?_set_self _ _ _
    · refine hset id r' ?_ (hinv.cached id r' hold)
      rintro rfl
      rw [hinv.cached _ r' hold] at hnew
      cases hnew
  · have hne : id ≠ r.taskId := by
      rintro rfl
      rw [show (h.completed s task r).results.get? r.taskId = some r from JsMap.get?_set_self _ _ _] at hid
      cases hid
    rw [hinternal id hne]
    refine hinv.internal id ?_
    rwa [show (h.completed s task r).results.get? id = h.results.get? id by
      rw [History.completed, JsMap.get?_set, if_neg (Ne.symm hne)]] at hid
  · rw [hreported, hinv.reported, History.completed]
    split <;> simp
  · unfold History.completed
    split
    · exact hinv.once
    · rw [List.map_append, List.map_singleton]
      refine hinv.once.append (List.nodup_singleton _) ?_
      intro id hid hmem
      obtain ⟨p, hp, rfl⟩ := List.mem_map.mp hid
      exact hother p hp (List.mem_singleton.mp hmem)
  · have hold : ∀ p ∈ h.unheard, (h.results.set r.taskId r).has p.2.taskId = true := by
      intro p hp
      obtain ⟨r', hr'⟩ := JsMap.has_iff.mp (hinv.done p hp)
      exact JsMap.has_iff.mpr ⟨r', hset _ _ (hother p hp) hr'⟩
    unfold History.completed at hp ⊢
    split at hp
    · exact hold p hp
    · rcases List.mem_append.mp hp with hp | hp
      · exact hold p hp
      · rw [List.mem_singleton.mp hp]
        exact JsMap.has_iff.mpr ⟨r, JsMap.get?_set_self _ _ _⟩

theorem Inv.complete (hinv : Inv s h) (htask : task ∈ s.outstanding) (hr : r.taskId = task.id)
    (hroom : s.completed.size < MAX_COMPLETED) : Inv (s.complete task r) (h.completed s task r) := by
  have hmem : r.taskId ∈ s.outstanding.map TaskSpec.id := hr ▸ List.mem_map.mpr ⟨task, htask, rfl⟩
  have hnew := hinv.open hmem
  have hgone : r.taskId ∉ (s.outstanding.erase task).map TaskSpec.id := by
    intro hin
    have hperm := (List.perm_cons_erase htask).map TaskSpec.id
    have hnodup := hperm.nodup_iff.mp hinv.distinct
    rw [List.map_cons, List.nodup_cons] at hnodup
    exact hnodup.1 (hr ▸ hin)
  have hfilter : ∀ id, id ≠ r.taskId →
      (id ∈ s.internalTaskIds.filter (· ≠ r.taskId) ↔ id ∈ s.internalTaskIds) := by
    intro id hne
    simp [List.mem_filter, hne]
  have hassigned : r.taskId ∈ s.assigned ∧ s.assigned ⊆ s.assigned := ⟨hinv.assigned hmem, List.Subset.refl _⟩
  have hconsumes := hinv.waiting.consumes_iff hnew
  have hsettle := hinv.waiting.settle hnew
  unfold State.complete
  by_cases hinternal : r.taskId ∈ h.internal
  · have hcontains : s.internalTaskIds.contains r.taskId = true :=
      List.contains_iff_mem.mpr ((hinv.internal _ hnew).mpr hinternal)
    simp only [hcontains, ↓reduceIte]
    refine hinv.completed hnew hassigned ⟨List.erase_sublist, hgone⟩ (fun id r' hid => .inr hid) hfilter
      (hsettle.congr rfl rfl rfl) ?_
    rw [if_pos (.inl hinternal), List.append_nil]
    rfl
  · have hcontains : s.internalTaskIds.contains r.taskId = false := by
      rw [Bool.eq_false_iff]
      exact fun hin => hinternal ((hinv.internal _ hnew).mp (List.contains_iff_mem.mp hin))
    have hnone : s.completed.get? r.taskId = none := by
      cases hget : s.completed.get? r.taskId with
      | none => rfl
      | some r' =>
          rw [hinv.cached _ _ hget] at hnew
          cases hnew
    have htrim : trimmed (s.completed.set r.taskId r) = s.completed.set r.taskId r :=
      trimmed_eq ((JsMap.size_set_new hnone).trans_le hroom)
    have hcached : ∀ id r', (s.completed.set r.taskId r).get? id = some r' →
        (id = r.taskId ∧ r' = r) ∨ s.completed.get? id = some r' := by
      intro id r' hid
      rw [JsMap.get?_set] at hid
      split at hid
      · rename_i heq
        cases hid
        exact .inl ⟨heq.symm, rfl⟩
      · exact .inr hid
    simp only [hcontains, Bool.false_eq_true, ↓reduceIte, htrim]
    by_cases hpending : Pending s r.taskId
    · simp only [show s.consumes r.taskId = true from hconsumes.mpr hpending,
        show State.consumes { s with outstanding := s.outstanding.erase task } r.taskId =
          s.consumes r.taskId from rfl, ↓reduceIte]
      refine hinv.completed hnew hassigned ⟨List.erase_sublist, hgone⟩ hcached hfilter
        (hsettle.congr rfl rfl rfl) ?_
      rw [if_pos (.inr hpending), List.append_nil]
      rfl
    · have hno : s.consumes r.taskId = false := by
        rw [Bool.eq_false_iff]
        exact fun hin => hpending (hconsumes.mp hin)
      simp only [hno, show State.consumes { s with outstanding := s.outstanding.erase task } r.taskId =
          s.consumes r.taskId from rfl, Bool.false_eq_true, ↓reduceIte]
      refine hinv.completed hnew hassigned ⟨List.erase_sublist, hgone⟩ hcached hfilter
        (hsettle.congr rfl rfl rfl) ?_
      rw [if_neg (not_or.mpr ⟨hinternal, hpending⟩)]
      rfl

end WrongStack.Delivery
