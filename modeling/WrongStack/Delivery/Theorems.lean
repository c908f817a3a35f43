import WrongStack.Delivery.Lemmas.Waiting

/-!
# Every result is delivered

In band to the calls that wait for it, or by report if none does.
-/

namespace WrongStack.Delivery

open Lib

variable {s : State} {h : History} {o : Op}

/-! ## Statements -/

/-- What callers and the notifier have got. -/
structure Delivered (s : State) (h : History) : Prop where
  inOrder : ∀ slots ∈ s.awaits, (∀ id ∈ slots.map Prod.fst, h.results.has id = true) →
    s.resolution slots = (slots.map Prod.fst).mapM h.results.get?
  any : ∀ call ∈ s.anyCalls, (∃ id ∈ call.taskIds, h.results.has id = true) → call.result ≠ none
  reported : s.notified = h.unheard.map fun p => notification p.1 p.2
  once : (s.notified.map TaskResultNotification.taskId).Nodup

/-- Ids are fresh, a task is completed once, and there is room in the cache. -/
def Legal (s : State) : Op → Prop
  | .assign task randomUUID => (task.withId randomUUID).id ∉ s.assigned
  | .assignInternal task randomUUID => (task.withId randomUUID).id ∉ s.assigned
  | .complete task r => task ∈ s.outstanding ∧ r.taskId = task.id ∧ s.completed.size < MAX_COMPLETED
  | _ => True

/-- A task that is assigned after `workComplete` is waited for, and nobody asks for a result that is not kept. -/
def Heard (s : State) : Op → Prop
  | .assign task randomUUID => s.workCompleteFlag = true → Pending s (task.withId randomUUID).id
  | .awaitTasks taskIds => ∀ id ∈ taskIds, ¬ Forgotten s id
  | .awaitTasksAny taskIds _ => taskIds.filterMap s.completed.get? = [] → ∀ id ∈ taskIds, ¬ Forgotten s id
  | _ => True

instance (s : State) (o : Op) : Decidable (Legal s o) := by
  cases o <;> unfold Legal <;> infer_instance

instance (s : State) (o : Op) : Decidable (Heard s o) := by
  cases o <;> unfold Heard <;> infer_instance

/-! ## One step -/

theorem Inv.enqueue {task : TaskSpec} (hinv : Inv s h) (hfresh : task.id ∉ s.assigned) :
    Inv { s with assigned := task.id :: s.assigned, outstanding := s.outstanding ++ [task] } h := by
  refine ⟨fun id r hid => ?_, ?_, ?_, hinv.cached, hinv.internal, fun id hid => .tail _ (hinv.named hid),
    hinv.waiting.congr rfl rfl rfl, hinv.reported, hinv.once, hinv.done⟩
  · obtain ⟨hassigned, hout⟩ := hinv.known id r hid
    refine ⟨List.mem_cons_of_mem _ hassigned, ?_⟩
    rw [List.map_append, List.mem_append, List.map_singleton, List.mem_singleton]
    rintro (hin | rfl)
    · exact hout hin
    · exact hfresh hassigned
  · rw [List.map_append, List.append_subset]
    refine ⟨fun id hid => List.mem_cons_of_mem _ (hinv.assigned hid), ?_⟩
    simp
  · rw [List.map_append, List.map_singleton]
    refine hinv.distinct.append (List.nodup_singleton _) ?_
    intro id hid hmem
    rw [List.mem_singleton.mp hmem] at hid
    exact hfresh (hinv.assigned hid)

theorem Inv.assign {task : TaskRequest} {randomUUID : TaskId} (hinv : Inv s h)
    (hfresh : (task.withId randomUUID).id ∉ s.assigned)
    (hheard : s.workCompleteFlag = true → Pending s (task.withId randomUUID).id) :
    Inv (s.assign task randomUUID) (record h s (.assign task randomUUID)) := by
  simp only [record, State.assign]
  generalize task.withId randomUUID = task at hfresh hheard
  cases hflag : s.workCompleteFlag with
  | true =>
      have hnew : h.results.get? (synthetic task).taskId = none := hinv.fresh hfresh
      simp only [↓reduceIte]
      refine hinv.completed hnew ⟨List.mem_cons_self, List.subset_cons_self _ _⟩
        ⟨List.Sublist.refl _, fun hin => hfresh (hinv.assigned hin)⟩ (fun id r hid => ?_) (fun id _ => Iff.rfl)
        ((hinv.waiting.settle hnew).congr rfl rfl rfl) ?_
      · change (s.completed.set task.id (synthetic task)).get? id = some r at hid
        rw [JsMap.get?_set] at hid
        split at hid
        · rename_i heq
          cases hid
          exact .inl ⟨heq.symm, rfl⟩
        · exact .inr hid
      · rw [if_pos (.inr (hheard hflag)), List.append_nil]
        rfl
  | false =>
      have henqueue := hinv.enqueue hfresh
      rw [hflag] at henqueue
      simpa only [Bool.false_eq_true, ↓reduceIte] using henqueue

theorem Inv.assignInternal {task : TaskRequest} {randomUUID : TaskId} (hinv : Inv s h)
    (hfresh : (task.withId randomUUID).id ∉ s.assigned) :
    Inv (s.assignInternal task randomUUID) (record h s (.assignInternal task randomUUID)) := by
  simp only [record, State.assignInternal]
  generalize task.withId randomUUID = task at hfresh
  have henqueue := hinv.enqueue hfresh
  refine ⟨henqueue.known, henqueue.assigned, henqueue.distinct, hinv.cached, fun id hid => ?_,
    List.cons_subset_cons _ hinv.named, hinv.waiting.congr rfl rfl rfl, hinv.reported, hinv.once, hinv.done⟩
  simp only [List.mem_cons, hinv.internal id hid]

theorem Inv.awaitTasks {taskIds : List TaskId} (hinv : Inv s h) (hheard : ∀ id ∈ taskIds, ¬ Forgotten s id) :
    Inv (s.awaitTasks taskIds) h := by
  obtain ⟨⟨promises, taskWaiters, hframe⟩, hids⟩ := slotsFor_frame taskIds s
  have hwaiting : Waiting (s.slotsFor taskIds).1 h.results (s.awaits.flatten ++ (s.slotsFor taskIds).2) :=
    hinv.waiting.slotsFor hinv.cached fun id hid r hr => hinv.kept (hheard id hid) hr
  have hflat : (s.awaitTasks taskIds).awaits.flatten = s.awaits.flatten ++ (s.slotsFor taskIds).2 := by
    change ((s.slotsFor taskIds).1.awaits ++ [(s.slotsFor taskIds).2]).flatten = _
    rw [hframe, List.flatten_append, List.flatten_singleton]
  have hstate : s.awaitTasks taskIds =
      { s with promises, taskWaiters, awaits := s.awaits ++ [(s.slotsFor taskIds).2] } := by
    change { (s.slotsFor taskIds).1 with
      awaits := (s.slotsFor taskIds).1.awaits ++ [(s.slotsFor taskIds).2] } = _
    rw [hframe]
  have hdone : Waiting (s.awaitTasks taskIds) h.results (s.awaitTasks taskIds).awaits.flatten := by
    rw [hflat]
    exact hwaiting.congr rfl rfl rfl
  rw [hstate] at hdone ⊢
  exact ⟨hinv.known, hinv.assigned, hinv.distinct, hinv.cached, hinv.internal, hinv.named, hdone, hinv.reported,
    hinv.once, hinv.done⟩

theorem Inv.awaitTasksAny {taskIds : List TaskId} {timed : Bool} (hinv : Inv s h)
    (hheard : taskIds.filterMap s.completed.get? = [] → ∀ id ∈ taskIds, ¬ Forgotten s id) :
    Inv (s.awaitTasksAny taskIds timed) h := by
  refine ⟨hinv.known, hinv.assigned, hinv.distinct, hinv.cached, hinv.internal, hinv.named, ?_, hinv.reported,
    hinv.once, hinv.done⟩
  refine ⟨hinv.waiting.waiter, hinv.waiting.apart, hinv.waiting.named, hinv.waiting.slots, ?_⟩
  intro call hcall hpending id hid
  rcases List.mem_append.mp hcall with hold | hnew
  · exact hinv.waiting.any call hold hpending id hid
  · rw [List.mem_singleton.mp hnew] at hpending hid
    simp only [ite_eq_right_iff, reduceCtorEq, imp_false, not_or, not_not] at hpending
    cases hr : h.results.get? id with
    | none => rfl
    | some r =>
        -- a completed task is in the cache, but nothing that was asked for is
        have hcached := hinv.kept (hheard hpending.1 id hid) hr
        rw [List.filterMap_eq_nil_iff.mp hpending.1 id hid] at hcached
        cases hcached

theorem Inv.expire (hinv : Inv s h) (call : Nat) : Inv (s.expire call) h := by
  refine ⟨hinv.known, hinv.assigned, hinv.distinct, hinv.cached, hinv.internal, hinv.named, ?_, hinv.reported,
    hinv.once, hinv.done⟩
  refine ⟨hinv.waiting.waiter, hinv.waiting.apart, hinv.waiting.named, hinv.waiting.slots, ?_⟩
  intro c hc hpending id hid
  obtain ⟨index, hindex⟩ := List.mem_iff_getElem?.mp hc
  simp only [State.expire, List.getElem?_modify] at hindex
  obtain ⟨c', hc', heq⟩ := Option.map_eq_some_iff.mp hindex
  -- the timed call has a result now, every other one is as before
  have hold : c = c' := by
    subst heq
    split
    · rename_i hindex
      rw [if_pos hindex] at hpending
      split at hpending
      · cases hpending
      · rename_i htimed
        rw [if_neg htimed]
    · rfl
  exact hinv.waiting.any c (hold ▸ List.mem_of_getElem? hc') hpending id hid

theorem Inv.step (hinv : Inv s h) (hlegal : Legal s o) (hheard : Heard s o) : Inv (step s o) (record h s o) := by
  cases o with
  | assign task randomUUID => exact hinv.assign hlegal hheard
  | assignInternal task randomUUID => exact hinv.assignInternal hlegal
  | awaitTasks taskIds => exact hinv.awaitTasks hheard
  | awaitTasksAny taskIds timed => exact hinv.awaitTasksAny hheard
  | expire call => exact hinv.expire call
  | workComplete =>
      exact ⟨hinv.known, hinv.assigned, hinv.distinct, hinv.cached, hinv.internal, hinv.named,
        hinv.waiting.congr rfl rfl rfl, hinv.reported, hinv.once, hinv.done⟩
  | complete task r => exact hinv.complete hlegal.1 hlegal.2.1 hlegal.2.2

theorem Inv.delivered (hinv : Inv s h) : Delivered s h where
  inOrder := fun slots hslots hdone => 
    hinv.waiting.resolution (fun p hp => List.mem_flatten.mpr ⟨slots, hslots, hp⟩) hdone
  any := by
    rintro call hcall ⟨id, hid, hhas⟩ hpending
    obtain ⟨r, hr⟩ := JsMap.has_iff.mp hhas
    rw [hinv.waiting.any call hcall hpending id hid] at hr
    cases hr
  reported := hinv.reported
  once := by
    rw [hinv.reported, List.map_map]
    exact hinv.once

/-! ## Runs -/

def traced (ops : List Op) : State × History := run (withHistory step record) ({}, {}) ops

/-- Every result is delivered in runs in which a task that is assigned after `workComplete` is waited for and
nobody asks for a result that is not kept. -/
theorem results_delivered {ops : List Op}
    (hops : Under (withHistory step record) (fun sh o => Legal sh.1 o ∧ Heard sh.1 o) ({}, {}) ops) :
    Delivered (traced ops).1 (traced ops).2 := by
  have hrun : Inv (traced ops).1 (traced ops).2 :=
    run_invariant_under (I := fun sh => Inv sh.1 sh.2) (fun sh o hinv ho => hinv.step ho.1 ho.2) inv_init hops
  exact hrun.delivered

def succeeds (id : TaskId) : TaskResult :=
  { subagentId := "s", taskId := id, status := .success, iterations := 1, toolCalls := 0, durationMs := 0 }

/-- A task that is waited for, one that is not, an internal one, and one that comes too late. -/
def fleet : List Op :=
  [.assign { id := "a", description := "A" } "", .assign { description := "B" } "b",
    .assignInternal { id := "i", description := "I" } "", .awaitTasks ["a"], .awaitTasksAny ["b", "c"] true, .expire 0,
    .complete { id := "b", description := "B" } (succeeds "b"), .awaitTasks ["c"],
    .complete { id := "i", description := "I" } (succeeds "i"), .workComplete,
    .assign { id := "c", description := "C" } "", .complete { id := "a", description := "A" } (succeeds "a")]

theorem results_delivered_fleet : Delivered (traced fleet).1 (traced fleet).2 :=
  results_delivered (by decide +kernel)

/-- A task is assigned after `workComplete`. -/
def late : List Op := [.workComplete, .assign { id := "t", description := "T" } ""]

/-- An internal task is completed and then awaited. -/
def forgotten : List Op :=
  [.assignInternal { id := "t", description := "T" } "",
    .complete { id := "t", description := "T" } (succeeds "t"), .awaitTasks ["t"]]

/-- The result of the late task is not reported though nobody waits for it, and who asks for the forgotten one
waits for ever. -/
theorem results_undelivered :
    (Under (withHistory step record) (fun sh o => Legal sh.1 o) ({}, {}) late ∧
        ¬ Delivered (traced late).1 (traced late).2) ∧
      Under (withHistory step record) (fun sh o => Legal sh.1 o) ({}, {}) forgotten ∧
        ¬ Delivered (traced forgotten).1 (traced forgotten).2 := by
  refine ⟨⟨by decide +kernel, fun h => ?_⟩, by decide +kernel, fun h => ?_⟩
  · have hnone := congrArg List.length h.reported
    rw [List.length_map] at hnone
    exact absurd hnone (by decide +kernel)
  · have hslots : (traced forgotten).1.awaits = [[("t", .promise 0)]] := by decide +kernel
    have hpending := h.inOrder [("t", .promise 0)] (by rw [hslots]; exact List.mem_cons_self) (by decide +kernel)
    exact absurd hpending (by decide +kernel)

end WrongStack.Delivery
