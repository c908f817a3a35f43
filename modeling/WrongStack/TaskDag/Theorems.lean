import WrongStack.TaskDag.Lemmas.Release

/-!
# The graph over whole runs

Runs are sequences of public calls in any order, from an empty graph.
-/

namespace WrongStack.TaskDag

open Lib Dag

variable {g : Dag} {id : String}

/-- `addNode` rejects exactly a node that one of its dependencies already depends on. -/
theorem wouldCycle_iff (deps : List String) :
    g.wouldCycle id deps = true ↔ ∃ d ∈ deps, Reaches g.depsOf d id := by
  have hkeys : ∀ x, g.depsOf x ≠ [] → x ∈ g.nodes.keys := by
    intro x hx
    rw [JsMap.mem_keys_iff]
    unfold depsOf at hx
    split at hx
    · rename_i node hnode
      exact ⟨node, hnode⟩
    · exact absurd rfl hx
  rw [wouldCycle, walk_iff hkeys (by simp)]
  simp only [List.mem_reverse]

/-! ## No satisfied node is pending -/

/-- The id is new, the dependencies exist, and none of them depends on the id. -/
def Dag.accepts (g : Dag) (id : String) (deps : List String) : Bool :=
  !g.nodes.has id && deps.all g.nodes.has && !g.wouldCycle id deps

/-- The operation releases every node that waits for nothing else. A new node waits for something;
a removed node is waited for by no one; where a node is completed or skipped, those that waited only
for it are among its dependents (it was not removed and added again after them), and for `complete`
none of their other dependencies was skipped. -/
def ReleasesWaiters (g : Dag) : Op → Prop
  | .addNode id deps _ => g.accepts id deps = true → deps ≠ [] → ∃ d ∈ deps, g.holds d = true
  | .removeNode id => ∀ p ∈ g.nodes.entries, ¬ g.WaitsOnlyFor id p
  | .complete id => ∀ p ∈ g.nodes.entries, g.WaitsOnlyFor id p →
      p.1 ∈ g.dependentsOf id ∧ ∀ d ∈ p.2.deps, d ≠ id → g.meets isDone d = true
  | .skip id _ => ∀ p ∈ g.nodes.entries, g.WaitsOnlyFor id p → p.1 ∈ g.dependentsOf id
  | .start .. | .fail .. => True

theorem NoneHeldBack.holds_of_waits (h : NoneHeldBack g) {p : String × Node}
    (hp : p ∈ g.nodes.entries) (hw : g.WaitsOnlyFor id p) : id ∈ p.2.deps ∧ g.holds id = true := by
  obtain ⟨d, hd, hh⟩ := h p hp hw.2.1
  have hdid : d = id := by
    by_contra hne
    rw [hw.2.2 d hd hne] at hh
    cases hh
  exact hdid ▸ ⟨hd, hh⟩

theorem NoneHeldBack.not_waits (h : NoneHeldBack g) (hid : g.nodes.get? id = none)
    {p : String × Node} (hp : p ∈ g.nodes.entries) : ¬ g.WaitsOnlyFor id p := by
  intro hw
  have hh := (h.holds_of_waits hp hw).2
  simp [holds, meets, hid] at hh

theorem step_addNode (deps : List String) (priority : Option ℚ) :
    step g (.addNode id deps priority) = if g.accepts id deps then
      { g with nodes := register id deps (g.nodes.set id
          { deps, status := if deps.isEmpty then .ready else .pending,
            priority := priority.getD 5 }) }.emitReady
      else g := by
  unfold step addNode accepts
  by_cases hhas : g.nodes.has id = true
  · simp [hhas, Except.toOption]
  · rw [Bool.not_eq_true] at hhas
    cases hfind : deps.find? fun depId => !g.nodes.has depId with
    | some depId =>
        have hall : deps.all g.nodes.has = false := by
          rw [List.all_eq_false]
          exact ⟨depId, List.mem_of_find?_eq_some hfind, by simpa using List.find?_some hfind⟩
        simp only [hhas, hfind, hall, Except.toOption, Bool.false_eq_true, ↓reduceIte, Option.getD_none,
          Bool.and_false, Bool.false_and]
    | none =>
        have hall : deps.all g.nodes.has = true := by simpa using hfind
        simp only [hhas, hfind, hall, Bool.false_eq_true, ↓reduceIte, Bool.not_false, Bool.true_and]
        by_cases hcycle : g.wouldCycle id deps = true
        · simp [hcycle, Except.toOption]
        · simp [hcycle, Except.toOption]

theorem addNode_keeps (h : NoneHeldBack g) (deps : List String) (priority : Option ℚ) :
    NoneHeldBack (step g (.addNode id deps priority)) ↔ ReleasesWaiters g (.addNode id deps priority) := by
  rw [step_addNode]
  unfold ReleasesWaiters
  by_cases hacc : g.accepts id deps = true
  · have hgot := hacc
    simp only [accepts, Bool.and_eq_true, Bool.not_eq_eq_eq_not, Bool.not_true, List.all_eq_true] at hgot
    obtain ⟨⟨hnew, hdeps⟩, -⟩ := hgot
    simp only [hacc, ↓reduceIte, forall_const]
    generalize hg' : ({ g with nodes := register id deps (g.nodes.set id _) } : Dag).emitReady = g'
    have hview : ∀ x, g'.view x =
        if id = x then some (if deps.isEmpty then .ready else .pending, deps) else g.view x := by
      intro x
      rw [← hg', emitReady_view, register_view, set_view]
    have hholds : ∀ d, g'.holds d = if id = d then true else g.holds d := by
      intro d
      unfold holds
      rw [meets_eq, meets_eq, hview]
      by_cases hd : id = d
      · cases deps <;> simp [hd, isDoneOrSkipped]
      · simp [hd]
    rw [noneHeldBack_iff]
    constructor
    · intro hg hne
      obtain ⟨d, hd, hh⟩ := hg id deps (by rw [hview]; cases deps <;> simp_all)
      rw [hholds] at hh
      have hdid : ¬ id = d := by
        rintro rfl
        rw [hdeps id hd] at hnew
        cases hnew
      exact ⟨d, hd, by simpa [hdid] using hh⟩
    · intro hg x deps' hx
      rw [hview] at hx
      split at hx
      · simp only [Option.some.injEq, Prod.mk.injEq] at hx
        obtain ⟨hs, rfl⟩ := hx
        have hne : deps ≠ [] := by
          rintro rfl
          cases hs
        obtain ⟨d, hd, hh⟩ := hg hne
        exact ⟨d, hd, by rw [hholds, hh, ite_self]⟩
      · obtain ⟨d, hd, hh⟩ := noneHeldBack_iff.mp h x deps' hx
        exact ⟨d, hd, by rw [hholds, hh, ite_self]⟩
  · simp [hacc, h]

theorem removeNode_keeps (h : NoneHeldBack g) :
    NoneHeldBack (g.removeNode id) ↔ ReleasesWaiters g (.removeNode id) := by
  unfold removeNode ReleasesWaiters
  split
  · rename_i hid
    exact ⟨fun _ p hp => h.not_waits hid hp, fun _ => h⟩
  · rename_i node hid
    have hunreg : ∀ x, { g with nodes := unregister id node.deps g.nodes }.view x = g.view x :=
      fun x => unregister_view node.deps g.nodes
    have hmeets : ∀ d, { g with nodes := unregister id node.deps g.nodes }.meets isDone d =
        g.meets isDone d := by
      intro d
      rw [meets_eq, meets_eq, hunreg]
    have hchanged : Changed g { (release isDone node.dependents
          { g with nodes := unregister id node.deps g.nodes }).1 with
        nodes := (release isDone node.dependents
          { g with nodes := unregister id node.deps g.nodes }).1.nodes.delete id } id none
        node.dependents (g.meets isDone) := by
      intro x
      rw [delete_view, release_view settled_isDone, hunreg]
      simp only [hmeets]
    rw [hchanged.noneHeldBack_of_freed (by simp), ← forall_waiting_iff]
    constructor
    · intro hg p hp hw
      obtain ⟨hdep, hh⟩ := h.holds_of_waits hp hw
      have hm := (hg p hp hw).2 id hdep
      simp only [holds, meets, hid, Bool.not_eq_eq_eq_not, Bool.not_true] at hh hm
      cases hs : node.status <;> rw [hs] at hh hm <;> cases hh <;> cases hm
    · intro hg p hp hw
      exact absurd hw (hg p hp)

theorem start_keeps (h : NoneHeldBack g) (assignedTo : String) :
    NoneHeldBack (g.start id assignedTo).1 := by
  unfold start
  split
  · exact h
  · rename_i node hid
    split
    · exact h
    · let running := { node with status := .running, assignedTo := some assignedTo }
      have hchanged : Changed g ({ g with nodes := g.nodes.set id running }.emit
          (.nodeStarted id assignedTo)) id (some (.running, node.deps)) [] fun _ => true := by
        intro x
        rw [emit_view, set_view]
        simp [running]
      exact hchanged.noneHeldBack_of_holds h rfl (by simp) rfl

theorem complete_keeps (h : NoneHeldBack g) :
    NoneHeldBack (g.complete id) ↔ ReleasesWaiters g (.complete id) := by
  unfold ReleasesWaiters
  cases hid : g.nodes.get? id with
  | none =>
      simp only [complete, hid]
      exact ⟨fun _ p hp hw => absurd hw (h.not_waits hid hp), fun _ => h⟩
  | some node =>
      have hview : ∀ x, (g.complete id).view x = (release isDone node.dependents
          { g with nodes := g.nodes.set id { node with status := .done } }).1.view x := by
        intro x
        simp only [complete, hid]
        split <;> simp
      have hdone : ({ node with status := .done } : Node).status ≠ .pending := by simp
      have hchanged := (changed_release g id settled_isDone node.dependents hdone).congr hview
      rw [hchanged.noneHeldBack_of_freed (by simp [isDoneOrSkipped]), ← forall_waiting_iff]
      simp only [set_meets, dependentsOf, hid]
      refine forall₃_congr fun p hp hw => and_congr_right fun _ => forall₂_congr fun d hd => ?_
      by_cases hdid : id = d
      · simp [hdid, isDone]
      · simp [hdid, Ne.symm hdid]

theorem fail_keeps (h : NoneHeldBack g) (error : String) : NoneHeldBack (g.fail id error) := by
  cases hid : g.nodes.get? id with
  | none =>
      simp only [fail, hid]
      exact h
  | some node =>
      have hview : ∀ x, (g.fail id error).view x = (release isDoneOrSkipped node.dependents
          { g with nodes := g.nodes.set id { node with status := .failed, error := some error } }).1.view x := by
        intro x
        simp only [fail, hid]
        split <;> simp
      have hfailed : ({ node with status := .failed, error := some error } : Node).status ≠ .pending := by
        simp
      have hchanged :=
        (changed_release g id settled_isDoneOrSkipped node.dependents hfailed).congr hview
      exact hchanged.noneHeldBack_of_holds h rfl (by simp) rfl

theorem skip_keeps (h : NoneHeldBack g) (reason : String) :
    NoneHeldBack (g.skip id reason) ↔ ReleasesWaiters g (.skip id reason) := by
  unfold ReleasesWaiters
  cases hid : g.nodes.get? id with
  | none =>
      simp only [skip, hid]
      exact ⟨fun _ p hp hw => absurd hw (h.not_waits hid hp), fun _ => h⟩
  | some node =>
      have hview : ∀ x, (g.skip id reason).view x = (release isDoneOrSkipped node.dependents
          { g with nodes := g.nodes.set id { node with status := .skipped } }).1.view x := by
        intro x
        simp only [skip, hid, emit_view]
      have hskipped : ({ node with status := .skipped } : Node).status ≠ .pending := by simp
      have hchanged :=
        (changed_release g id settled_isDoneOrSkipped node.dependents hskipped).congr hview
      rw [hchanged.noneHeldBack_of_freed (by simp [isDoneOrSkipped]), ← forall_waiting_iff]
      simp only [set_meets, dependentsOf, hid]
      refine forall₃_congr fun p hp hw => ?_
      rw [and_iff_left_iff_imp]
      intro _ d hd
      by_cases hdid : id = d
      · simp [hdid, isDoneOrSkipped]
      · have hh := hw.2.2 d hd (Ne.symm hdid)
        simpa [holds, hdid] using hh

theorem step_keeps (h : NoneHeldBack g) (op : Op) :
    NoneHeldBack (step g op) ↔ ReleasesWaiters g op := by
  cases op with
  | addNode id deps priority => exact addNode_keeps h deps priority
  | removeNode id => exact removeNode_keeps h
  | start id assignedTo => exact iff_of_true (start_keeps h assignedTo) trivial
  | complete id => exact complete_keeps h
  | fail id error => exact iff_of_true (fail_keeps h error) trivial
  | skip id reason => exact skip_keeps h reason

/-- Every pending node has a dependency that holds it back in every state of exactly the runs whose
operations release all that wait for nothing else. -/
theorem noneHeldBack_iff_releasesWaiters (ops : List Op) :
    (∀ pre, pre <+: ops → NoneHeldBack (run step {} pre)) ↔ Under step ReleasesWaiters {} ops := by
  have hempty : NoneHeldBack {} := fun _ hp => absurd hp List.not_mem_nil
  exact forall_prefix_iff_under (I := fun _ => True) (J := NoneHeldBack) (fun _ _ _ => trivial)
    (fun _ op _ h => step_keeps h op) trivial hempty ops

/-- A node added after its only dependency has finished is pending. -/
theorem heldBack_by_done :
    ¬ ∀ ops : List Op, NoneHeldBack (run step {} ops) := by
  intro h
  have hops := h [.addNode "a" [] none, .complete "a", .addNode "b" ["a"] none]
  revert hops
  decide

/-! ## No cycles -/

/-- The dependencies on nodes that are in the graph. -/
def Dag.liveDeps (g : Dag) (id : String) : List String := (g.depsOf id).filter g.nodes.has

theorem mem_depsWith {deps : List String} {a b : String} (h : b ∈ g.depsWith id deps a) :
    b ∈ g.depsOf a ∨ (a = id ∧ b ∈ deps) := by
  unfold depsWith at h
  split at h
  · rename_i ha
    exact Or.inr ⟨ha.symm, h⟩
  · exact Or.inl h

theorem depsOf_new (hnew : g.nodes.has id = false) : g.depsOf id = [] := by
  simp only [depsOf, JsMap.has_eq_false.mp hnew]

/-- New edges close a cycle exactly if one of the dependencies depends on the new node already. -/
theorem wouldCycle_iff_cyclic (h : Acyclic g.depsOf) (hnew : g.nodes.has id = false) (deps : List String) :
    g.wouldCycle id deps = true ↔ ¬ Acyclic (g.depsWith id deps) := by
  rw [wouldCycle_iff]
  constructor
  · rintro ⟨d, hd, hr⟩ hacyclic
    have hsub : ∀ a, g.depsOf a ⊆ g.depsWith id deps a := by
      intro a
      unfold depsWith
      split
      · rename_i ha
        subst ha
        rw [depsOf_new hnew]
        exact List.nil_subset _
      · exact List.Subset.refl _
    have hedge : d ∈ g.depsWith id deps id := by
      rw [depsWith, if_pos rfl]
      exact hd
    exact hacyclic id d hedge (hr.mono hsub)
  · intro hcyclic
    by_contra hno
    push Not at hno
    exact hcyclic (h.add_edges (fun _ _ hb => mem_depsWith hb) hno)

theorem acyclic_step (h : Acyclic g.depsOf) (op : Op) : Acyclic (step g op).depsOf := by
  cases op with
  | addNode id deps priority =>
      rw [step_addNode]
      cases hacc : g.accepts id deps with
      | false => exact h
      | true =>
          simp only [accepts, Bool.and_eq_true, Bool.not_eq_eq_eq_not, Bool.not_true] at hacc
          obtain ⟨⟨hnew, -⟩, hcycle⟩ := hacc
          have hacyclic : Acyclic (g.depsWith id deps) := by
            by_contra hcyclic
            rw [(wouldCycle_iff_cyclic h hnew deps).mpr hcyclic] at hcycle
            cases hcycle
          refine hacyclic.mono fun x => ?_
          rw [if_pos rfl, depsOf_added]
          exact List.Subset.refl _
  | removeNode id => exact h.mono fun x => depsOf_removeNode
  | start id assignedTo => exact h.mono fun x => subset_of_view (view_deps_start assignedTo)
  | complete id => exact h.mono fun x => subset_of_view view_deps_complete
  | fail id error => exact h.mono fun x => subset_of_view (view_deps_fail error)
  | skip id reason => exact h.mono fun x => subset_of_view (view_deps_skip reason)

theorem acyclic_run (ops : List Op) : Acyclic (run step {} ops).depsOf :=
  run_invariant (I := fun (g : Dag) => Acyclic g.depsOf) (fun _ op h => acyclic_step h op)
    (fun _ _ hb => absurd hb List.not_mem_nil) ops

theorem addNode_error (h : Acyclic g.depsOf) (deps : List String) (priority : Option ℚ) :
    (∃ e, g.addNode id deps priority = .error e) ↔ g.nodes.has id = false ∧
      ((∃ d ∈ deps, g.nodes.has d = false) ∨ ¬ Acyclic (g.depsWith id deps)) := by
  unfold addNode
  cases hnew : g.nodes.has id with
  | true => simp
  | false =>
      rw [← wouldCycle_iff_cyclic h hnew deps]
      cases hfind : deps.find? fun depId => !g.nodes.has depId with
      | some depId =>
          have hunknown : g.nodes.has depId = false := by simpa using List.find?_some hfind
          simp only [Bool.false_eq_true, ↓reduceIte, Except.error.injEq, exists_eq', true_and, true_iff]
          exact Or.inl ⟨depId, List.mem_of_find?_eq_some hfind, hunknown⟩
      | none =>
          have hknown : ¬ ∃ d ∈ deps, g.nodes.has d = false := by
            rintro ⟨d, hd, hunknown⟩
            simpa [hunknown] using List.find?_eq_none.mp hfind d hd
          cases hcycle : g.wouldCycle id deps with
          | true => simp
          | false => simp [hknown]

/-- After any calls the dependencies among the nodes that are there have no cycle. A node that is there already is
left alone; a new one is rejected exactly if it depends on an unknown one or its edges close a cycle. The order lists
every node once, after those it depends on. -/
theorem acyclic_and_ordered (ops : List Op) :
    let g := run step {} ops
    Acyclic g.liveDeps ∧
      (∀ id deps priority, g.nodes.has id = true → g.addNode id deps priority = .ok g) ∧
      (∀ id deps priority, g.nodes.has id = false → ((∃ e, g.addNode id deps priority = .error e) ↔
        (∃ d ∈ deps, g.nodes.has d = false) ∨ ¬ Acyclic (g.depsWith id deps))) ∧
      g.getTopologicalOrder.Perm g.nodes.entries ∧
      ∀ pre p post, g.getTopologicalOrder = pre ++ p :: post →
        ∀ d ∈ p.2.deps, g.nodes.has d = true → d ∈ pre.map Prod.fst := by
  intro g
  have h : Acyclic g.depsOf := acyclic_run ops
  refine ⟨h.mono fun x => List.filter_sublist.subset, fun id deps priority hhas => ?_, fun id deps priority hnew => ?_,
    getTopologicalOrder_perm h, fun pre p post heq d hd hpresent => getTopologicalOrder_after h heq hd hpresent⟩
  · rw [addNode, if_pos hhas]
  · rw [addNode_error h]
    exact and_iff_right hnew

/-- A removed node that another one still depends on comes back, and a third one before both. -/
example : (run step {} [.addNode "b" [] none, .addNode "a" ["b"] none, .removeNode "b", .addNode "c" [] none,
    .addNode "b" ["c"] none]).getTopologicalOrder.map Prod.fst = ["c", "b", "a"] := by
  decide

/-- A node that is there already may be added again with an unknown dependency: nothing happens. -/
theorem addNode_again_unknown :
    ¬ ∀ (ops : List Op) (id : String) (deps : List String) (priority : Option ℚ),
      (∃ e, (run step {} ops).addNode id deps priority = .error e) ↔
        (∃ d ∈ deps, (run step {} ops).nodes.has d = false) ∨ ¬ Acyclic ((run step {} ops).depsWith id deps) := by
  intro h
  obtain ⟨e, he⟩ := (h [.addNode "a" [] none] "a" ["ghost"] none).mpr (Or.inl ⟨"ghost", by simp, by decide⟩)
  have hhas : (run step {} [.addNode "a" [] none]).nodes.has "a" = true := by decide
  rw [addNode, if_pos hhas] at he
  cases he

end WrongStack.TaskDag
