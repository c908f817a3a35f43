import WrongStack.TaskDag.Dag

/-!
# What a change of one node does to the others

`view` is all that the invariant reads of a node: its status and its dependencies. Every operation
gives the node `id` a new view and releases some of its dependents.
-/

namespace WrongStack.TaskDag

open Lib Dag

variable {g g' : Dag} {id x : String}

namespace Dag

def view (g : Dag) (id : String) : Option (Status × List String) :=
  (g.nodes.get? id).map fun n => (n.status, n.deps)

/-- The dependency is in the graph and is neither done nor skipped. -/
def holds (g : Dag) (depId : String) : Bool := !g.meets isDoneOrSkipped depId

def dependentsOf (g : Dag) (id : String) : List String :=
  match g.nodes.get? id with
  | some node => node.dependents
  | none => []

/-- A pending node other than `id` that no dependency other than `id` holds back. -/
def WaitsOnlyFor (g : Dag) (id : String) (p : String × Node) : Prop :=
  p.1 ≠ id ∧ p.2.status = .pending ∧ ∀ d ∈ p.2.deps, d ≠ id → g.holds d = false

instance (g : Dag) (id : String) (p : String × Node) : Decidable (g.WaitsOnlyFor id p) :=
  inferInstanceAs (Decidable (p.1 ≠ id ∧ p.2.status = .pending ∧
    ∀ d ∈ p.2.deps, d ≠ id → g.holds d = false))

end Dag

def NoneHeldBack (g : Dag) : Prop :=
  ∀ p ∈ g.nodes.entries, p.2.status = .pending → ∃ d ∈ p.2.deps, g.holds d = true

instance (g : Dag) : Decidable (NoneHeldBack g) :=
  inferInstanceAs (Decidable (∀ p ∈ g.nodes.entries, p.2.status = .pending →
    ∃ d ∈ p.2.deps, g.holds d = true))

/-! ## Views -/

theorem view_eq_some {status : Status} {deps : List String} :
    g.view x = some (status, deps) ↔ ∃ n, g.nodes.get? x = some n ∧ n.status = status ∧ n.deps = deps := by
  simp [view]

theorem meets_eq (ok : Status → Bool) :
    g.meets ok x = match g.view x with | some v => ok v.1 | none => true := by
  unfold meets view
  cases g.nodes.get? x <;> rfl

theorem noneHeldBack_iff :
    NoneHeldBack g ↔ ∀ x deps, g.view x = some (.pending, deps) → ∃ d ∈ deps, g.holds d = true := by
  constructor
  · intro h x deps hx
    obtain ⟨n, hn, hs, rfl⟩ := view_eq_some.mp hx
    exact h (x, n) (JsMap.mem_entries_iff.mpr hn) hs
  · rintro h ⟨x, n⟩ hp hs
    exact h x n.deps (view_eq_some.mpr ⟨n, JsMap.mem_entries_iff.mp hp, hs, rfl⟩)

theorem forall_waiting_iff {P : String → List String → Prop} :
    (∀ p ∈ g.nodes.entries, g.WaitsOnlyFor id p → P p.1 p.2.deps) ↔
      ∀ x deps, g.view x = some (.pending, deps) → x ≠ id →
        (∀ d ∈ deps, d ≠ id → g.holds d = false) → P x deps := by
  constructor
  · intro h x deps hx hne hd
    obtain ⟨n, hn, hs, rfl⟩ := view_eq_some.mp hx
    exact h (x, n) (JsMap.mem_entries_iff.mpr hn) ⟨hne, hs, hd⟩
  · rintro h ⟨x, n⟩ hp ⟨hne, hs, hd⟩
    exact h x n.deps (view_eq_some.mpr ⟨n, JsMap.mem_entries_iff.mp hp, hs, rfl⟩) hne hd

@[simp] theorem emit_view (event : Event) : (g.emit event).view x = g.view x := rfl

@[simp] theorem emitReady_view : g.emitReady.view x = g.view x := by
  simp only [emitReady]
  split <;> split <;> rfl

theorem set_view (g : Dag) (id x : String) (node : Node) :
    { g with nodes := g.nodes.set id node }.view x =
      if id = x then some (node.status, node.deps) else g.view x := by
  unfold view
  rw [JsMap.get?_set]
  split <;> rfl

theorem delete_view :
    { g with nodes := g.nodes.delete id }.view x = if id = x then none else g.view x := by
  unfold view
  rw [JsMap.get?_delete]
  split <;> rfl

theorem transition_view (src tgt : Status) :
    (g.transition id src tgt).view x = if id = x
      then (g.view x).map fun v => (if v.1 = src then tgt else v.1, v.2) else g.view x := by
  unfold transition
  split
  · rename_i node hnode
    have hv : g.view id = some (node.status, node.deps) := by simp [view, hnode]
    have hset := set_view g id x { node with status := tgt }
    split
    · rename_i hs
      have hview : ∀ h : Dag, h.nodes = g.nodes.set id { node with status := tgt } →
          h.view x = if id = x then some (tgt, node.deps) else g.view x := by
        intro h hh
        rw [← hset]
        unfold view
        rw [hh]
      have hif : (if id = x then some (tgt, node.deps) else g.view x) =
          if id = x then (g.view x).map fun v => (if v.1 = src then tgt else v.1, v.2)
          else g.view x := by
        by_cases hx : id = x
        · subst hx
          simp [hv, hs]
        · simp [hx]
      rw [← hif]
      split
      · exact hview _ rfl
      · exact hview _ rfl
    · rename_i hs
      by_cases hx : id = x
      · subst hx
        simp [hv, hs]
      · simp [hx]
  · rename_i hnode
    have hv : g.view id = none := by simp [view, hnode]
    by_cases hx : id = x
    · subst hx
      simp [hv]
    · simp [hx]

/-! ## Releasing the dependents -/

/-- A readiness condition that holds of no node that waits. -/
def Settled (ok : Status → Bool) : Prop := ok .pending = false ∧ ok .ready = false

theorem settled_isDone : Settled isDone := ⟨rfl, rfl⟩

theorem settled_isDoneOrSkipped : Settled isDoneOrSkipped := ⟨rfl, rfl⟩

theorem transition_meets {ok : Status → Bool} (hok : Settled ok) (d : String) :
    (g.transition id .pending .ready).meets ok d = g.meets ok d := by
  rw [meets_eq, meets_eq, transition_view]
  by_cases hd : id = d
  · cases hv : g.view d with
    | none => simp
    | some v =>
        by_cases hs : v.1 = .pending
        · simp [hd, hs, hok.1, hok.2]
        · simp [hd, hs]
  · simp [hd]

/-- The release as a function of the views: which nodes become ready is decided by the state it
starts from, since a node that becomes ready satisfies no one. -/
theorem release_view {ok : Status → Bool} (hok : Settled ok) (l : List String) (g : Dag) :
    (release ok l g).1.view x = (g.view x).map fun v =>
      if x ∈ l ∧ v.1 = .pending ∧ ∀ d ∈ v.2, g.meets ok d = true then (.ready, v.2) else v := by
  induction l generalizing g with
  | nil => simp [release]
  | cons depId rest ih =>
      rw [release]
      split
      · rename_i hnone
        rw [ih]
        cases hv : g.view x with
        | none => rfl
        | some v =>
            have hne : x ≠ depId := by
              rintro rfl
              simp [view, hnone] at hv
            simp [hne]
      · rename_i dep hdep
        have hall : g.depsMeet ok dep = true ↔ ∀ d ∈ dep.deps, g.meets ok d = true := by
          simp [depsMeet]
        split
        · rename_i hmeet
          rw [ih, transition_view]
          simp only [transition_meets hok]
          by_cases hx : depId = x
          · subst hx
            have hv : g.view depId = some (dep.status, dep.deps) := by simp [view, hdep]
            have hd := hall.mp hmeet
            by_cases hs : dep.status = .pending
            · simp only [hv, ↓reduceIte, Option.map_some, hs, reduceCtorEq, false_and, and_false,
                List.mem_cons, true_or, true_and, if_pos hd]
            · simp only [hv, ↓reduceIte, Option.map_some, hs, false_and, and_false]
          · simp [hx, Ne.symm hx]
        · rename_i hmeet
          simp only [ih]
          by_cases hx : depId = x
          · subst hx
            have hv : g.view depId = some (dep.status, dep.deps) := by simp [view, hdep]
            have hd : ¬ ∀ d ∈ dep.deps, g.meets ok d = true := fun h => hmeet (hall.mpr h)
            simp only [hv, Option.map_some, hd, and_false]
          · simp [Ne.symm hx]

/-! ## The node that changes and the nodes that wait for it -/

/-- `g'` is `g` where `id` has the view `last` and every pending node of `l` whose dependencies are
all `met` has become ready. -/
def Changed (g g' : Dag) (id : String) (last : Option (Status × List String)) (l : List String)
    (met : String → Bool) : Prop :=
  ∀ x, g'.view x = if id = x then last else (g.view x).map fun v =>
    if x ∈ l ∧ v.1 = .pending ∧ ∀ d ∈ v.2, met d = true then (.ready, v.2) else v

variable {last : Option (Status × List String)} {l : List String} {met : String → Bool}

theorem Changed.holds (h : Changed g g' id last l met) (d : String) :
    g'.holds d = if id = d then last.any (fun v => !isDoneOrSkipped v.1) else g.holds d := by
  unfold Dag.holds
  rw [meets_eq, meets_eq, h d]
  by_cases hd : id = d
  · cases last with
    | none => simp [hd]
    | some v => simp [hd]
  · cases hv : g.view d with
    | none => simp [hd]
    | some v =>
        obtain ⟨status, deps⟩ := v
        simp only [hd, ↓reduceIte, Option.map_some]
        split
        · rename_i hr
          simp [hr.2.1, isDoneOrSkipped]
        · rfl

theorem Changed.noneHeldBack_iff (h : Changed g g' id last l met)
    (hlast : ∀ v ∈ last, v.1 ≠ .pending) :
    NoneHeldBack g' ↔ ∀ x deps, g.view x = some (.pending, deps) → x ≠ id →
      ¬ (x ∈ l ∧ ∀ d ∈ deps, met d = true) → ∃ d ∈ deps, g'.holds d = true := by
  rw [TaskDag.noneHeldBack_iff]
  constructor
  · intro hg x deps hx hne hnot
    refine hg x deps ?_
    rw [h x, if_neg (Ne.symm hne), hx]
    simp only [Option.map_some, true_and, hnot, ↓reduceIte]
  · intro hg x deps hx
    rw [h x] at hx
    split at hx
    · exact absurd rfl (hlast _ (Option.mem_def.mpr hx))
    · rename_i hne
      obtain ⟨⟨status, deps'⟩, hv, heq⟩ := Option.map_eq_some_iff.mp hx
      split at heq
      · simp at heq
      · rename_i hnot
        simp only [Prod.mk.injEq] at heq
        obtain ⟨rfl, rfl⟩ := heq
        exact hg x deps' hv (Ne.symm hne) fun hr => hnot ⟨hr.1, rfl, hr.2⟩

/-- When `id` no longer holds anyone back, exactly the nodes that waited only for it have to be
released. -/
theorem Changed.noneHeldBack_of_freed (h : Changed g g' id last l met)
    (hlast : ∀ v ∈ last, isDoneOrSkipped v.1 = true) :
    NoneHeldBack g' ↔ ∀ x deps, g.view x = some (.pending, deps) → x ≠ id →
      (∀ d ∈ deps, d ≠ id → g.holds d = false) → x ∈ l ∧ ∀ d ∈ deps, met d = true := by
  have hfree : last.any (fun v => !isDoneOrSkipped v.1) = false := by
    cases last with
    | none => rfl
    | some v => simp [hlast v rfl]
  have hnotpending : ∀ v ∈ last, v.1 ≠ .pending := by
    intro v hv hp
    have := hlast v hv
    rw [hp] at this
    cases this
  rw [h.noneHeldBack_iff hnotpending]
  constructor
  · intro hg x deps hx hne hd
    by_contra hnot
    obtain ⟨d, hdeps, hh⟩ := hg x deps hx hne hnot
    rw [h.holds, hfree] at hh
    split at hh
    · cases hh
    · rename_i hdne
      rw [hd d hdeps (Ne.symm hdne)] at hh
      cases hh
  · intro hg x deps hx hne hnot
    by_contra hall
    refine hnot (hg x deps hx hne fun d hdeps hdne => ?_)
    rw [← Bool.not_eq_true]
    intro hh
    refine hall ⟨d, hdeps, ?_⟩
    rw [h.holds, if_neg (Ne.symm hdne)]
    exact hh

/-- While `id` still holds its dependents back, nothing is lost. -/
theorem Changed.noneHeldBack_of_holds (h : Changed g g' id last l met) (hg : NoneHeldBack g)
    {v : Status × List String} (hv : last = some v) (hp : v.1 ≠ .pending)
    (hs : isDoneOrSkipped v.1 = false) : NoneHeldBack g' := by
  subst hv
  rw [h.noneHeldBack_iff (by simpa using hp)]
  intro x deps hx _ _
  obtain ⟨d, hd, hh⟩ := TaskDag.noneHeldBack_iff.mp hg x deps hx
  refine ⟨d, hd, ?_⟩
  rw [h.holds]
  split
  · simp [hs]
  · exact hh

/-- The operations that give a node a new status and go over its dependents. -/
theorem changed_release (g : Dag) (id : String) {ok : Status → Bool} (hok : Settled ok) (l : List String)
    {node : Node} (hp : node.status ≠ .pending) :
    Changed g (release ok l { g with nodes := g.nodes.set id node }).1 id
      (some (node.status, node.deps)) l ({ g with nodes := g.nodes.set id node }.meets ok) := by
  intro x
  rw [release_view hok, set_view]
  by_cases hx : id = x
  · simp [hx, hp]
  · simp [hx]

theorem Changed.congr {g'' : Dag} (h : Changed g g' id last l met) (hv : ∀ x, g''.view x = g'.view x) :
    Changed g g'' id last l met :=
  fun x => (hv x).trans (h x)

theorem set_meets (ok : Status → Bool) (node : Node) (d : String) :
    { g with nodes := g.nodes.set id node }.meets ok d = if id = d then ok node.status else g.meets ok d := by
  rw [meets_eq, meets_eq, set_view]
  by_cases hd : id = d <;> simp [hd]

theorem register_view (deps : List String) (nodes : JsMap String Node) :
    { g with nodes := register id deps nodes }.view x = { g with nodes }.view x := by
  unfold view register
  refine JsMap.map_get?_foldl_modify ?_ deps nodes x
  exact fun _ => rfl

theorem unregister_view (deps : List String) (nodes : JsMap String Node) :
    { g with nodes := unregister id deps nodes }.view x = { g with nodes }.view x := by
  unfold view unregister
  refine JsMap.map_get?_foldl_modify ?_ deps nodes x
  exact fun _ => rfl

end WrongStack.TaskDag

/-!
# Dependencies and the topological order

Only `addNode` and `removeNode` change a dependency. The order is that of `Lib.visit` without the ids that have no
node.
-/

namespace WrongStack.TaskDag

open Lib Dag

variable {g g' : Dag} {id x : String} {deps : List String}

/-! ## Dependencies -/

theorem depsOf_view (g : Dag) (x : String) : g.depsOf x = ((g.view x).map Prod.snd).getD [] := by
  unfold depsOf view
  cases g.nodes.get? x <;> rfl

theorem subset_of_view (h : (g'.view x).map Prod.snd = (g.view x).map Prod.snd) : g'.depsOf x ⊆ g.depsOf x := by
  rw [depsOf_view, depsOf_view, h]
  exact List.Subset.refl _

theorem view_deps_release {ok : Status → Bool} (hok : Settled ok) (l : List String) :
    ((release ok l g).1.view x).map Prod.snd = (g.view x).map Prod.snd := by
  rw [release_view hok, Option.map_map]
  congr 1
  funext v
  simp only [Function.comp_apply]
  split <;> rfl

/-- A node with a new status and with its dependencies, and what that releases. -/
theorem view_deps_set {node node' : Node} (hnode : g.nodes.get? id = some node) (hdeps : node'.deps = node.deps) :
    ({ g with nodes := g.nodes.set id node' }.view x).map Prod.snd = (g.view x).map Prod.snd := by
  rw [set_view]
  split
  · rename_i hx
    subst hx
    simp only [view, hnode, Option.map_some, hdeps]
  · rfl

theorem view_deps_start (assignedTo : String) :
    ((g.start id assignedTo).1.view x).map Prod.snd = (g.view x).map Prod.snd := by
  unfold start
  cases hid : g.nodes.get? id with
  | none => rfl
  | some node =>
      simp only
      split
      · rfl
      · rw [emit_view]
        exact view_deps_set hid rfl

theorem view_deps_complete : ((g.complete id).view x).map Prod.snd = (g.view x).map Prod.snd := by
  unfold complete
  cases hid : g.nodes.get? id with
  | none => rfl
  | some node =>
      simp only
      split
      · rw [emitReady_view, emit_view, view_deps_release settled_isDone]
        exact view_deps_set hid rfl
      · rw [emit_view, view_deps_release settled_isDone]
        exact view_deps_set hid rfl

theorem view_deps_fail (error : String) : ((g.fail id error).view x).map Prod.snd = (g.view x).map Prod.snd := by
  unfold fail
  cases hid : g.nodes.get? id with
  | none => rfl
  | some node =>
      simp only
      split
      · rw [emitReady_view, emit_view, view_deps_release settled_isDoneOrSkipped]
        exact view_deps_set hid rfl
      · rw [emit_view, view_deps_release settled_isDoneOrSkipped]
        exact view_deps_set hid rfl

theorem view_deps_skip (reason : String) : ((g.skip id reason).view x).map Prod.snd = (g.view x).map Prod.snd := by
  unfold skip
  cases hid : g.nodes.get? id with
  | none => rfl
  | some node =>
      simp only
      rw [emit_view, view_deps_release settled_isDoneOrSkipped]
      exact view_deps_set hid rfl

theorem depsOf_removeNode : (g.removeNode id).depsOf x ⊆ g.depsOf x := by
  unfold removeNode
  cases hid : g.nodes.get? id with
  | none => exact List.Subset.refl _
  | some node =>
      simp only
      rw [depsOf_view, delete_view]
      split
      · exact List.nil_subset _
      · rw [view_deps_release settled_isDone, unregister_view, ← depsOf_view]
        exact List.Subset.refl _

/-- The dependencies with those of a new node. -/
def Dag.depsWith (g : Dag) (id : String) (deps : List String) (x : String) : List String :=
  if id = x then deps else g.depsOf x

theorem depsOf_added (node : Node) (deps : List String) :
    { g with nodes := register id deps (g.nodes.set id node) }.emitReady.depsOf x = g.depsWith id node.deps x := by
  rw [depsOf_view, emitReady_view, register_view, set_view, depsWith]
  split
  · rfl
  · exact (depsOf_view g x).symm

/-! ## The walk -/

/-- The node of an id, if there is one. -/
def Dag.found (g : Dag) (id : String) : Option (String × Node) := (g.nodes.get? id).map fun node => (id, node)

theorem found_eq_some {p : String × Node} : g.found id = some p ↔ id = p.1 ∧ g.nodes.get? p.1 = some p.2 := by
  obtain ⟨id', node⟩ := p
  unfold Dag.found
  rw [Option.map_eq_some_iff]
  constructor
  · rintro ⟨n, hn, heq⟩
    cases heq
    exact ⟨rfl, hn⟩
  · rintro ⟨rfl, hn⟩
    exact ⟨node, hn, rfl⟩

theorem foldl_visit_eq {fuel : Nat}
    (hgo : ∀ x v r, g.visit fuel x (v, r.filterMap g.found) =
      ((Lib.visit g.depsOf fuel x (v, r)).1, (Lib.visit g.depsOf fuel x (v, r)).2.filterMap g.found))
    (xs v r : List String) : xs.foldl (fun st x => g.visit fuel x st) (v, r.filterMap g.found) =
      ((xs.foldl (fun st x => Lib.visit g.depsOf fuel x st) (v, r)).1,
        (xs.foldl (fun st x => Lib.visit g.depsOf fuel x st) (v, r)).2.filterMap g.found) := by
  induction xs generalizing v r with
  | nil => rfl
  | cons x xs ih => rw [List.foldl_cons, List.foldl_cons, hgo, ih]

/-- An id without a node is marked and not listed. -/
theorem visit_eq (fuel : Nat) (x : String) (v r : List String) : g.visit fuel x (v, r.filterMap g.found) =
    ((Lib.visit g.depsOf fuel x (v, r)).1, (Lib.visit g.depsOf fuel x (v, r)).2.filterMap g.found) := by
  induction fuel generalizing x v r with
  | zero => rfl
  | succ fuel ih =>
      rw [Dag.visit, Lib.visit]
      by_cases hx : x ∈ v
      · rw [if_pos hx, if_pos hx]
      · rw [if_neg hx, if_neg hx]
        cases hnode : g.nodes.get? x with
        | none =>
            have hdeps : g.depsOf x = [] := by simp only [depsOf, hnode]
            have hfound : g.found x = none := by simp only [Dag.found, hnode, Option.map_none]
            simp only [hdeps, List.foldl_nil, List.filterMap_append, List.filterMap_cons, hfound, List.filterMap_nil,
              List.append_nil]
        | some node =>
            have hdeps : g.depsOf x = node.deps := by simp only [depsOf, hnode]
            have hfound : g.found x = some (x, node) := by simp only [Dag.found, hnode, Option.map_some]
            simp only [foldl_visit_eq ih, hdeps, List.filterMap_append, List.filterMap_cons, hfound,
              List.filterMap_nil]

theorem depsOf_keys (x : String) (hx : g.depsOf x ≠ []) : x ∈ g.nodes.keys := by
  rw [JsMap.mem_keys_iff]
  unfold depsOf at hx
  cases hnode : g.nodes.get? x with
  | none =>
      rw [hnode] at hx
      exact absurd rfl hx
  | some node => exact ⟨node, rfl⟩

/-- The order is a list of ids in post-order that holds every node, less the ids without one. -/
theorem getTopologicalOrder_eq (h : Acyclic g.depsOf) : ∃ ids, PostOrder g.depsOf ids ∧
    (∀ id ∈ g.nodes.keys, id ∈ ids) ∧ g.getTopologicalOrder = ids.filterMap g.found := by
  refine ⟨_, foldl_visit_postOrder h depsOf_keys (Nat.lt_succ_self _) g.nodes.keys, fun id hid => ?_, ?_⟩
  · exact (mem_foldl_visit_iff depsOf_keys (Nat.lt_succ_self _)).mpr ⟨id, hid, Reaches.refl id⟩
  · unfold getTopologicalOrder
    exact congrArg Prod.snd (foldl_visit_eq (visit_eq _) g.nodes.keys [] [])

theorem getTopologicalOrder_perm (h : Acyclic g.depsOf) : g.getTopologicalOrder.Perm g.nodes.entries := by
  obtain ⟨ids, hpost, hall, heq⟩ := getTopologicalOrder_eq h
  have hnodup : (ids.filterMap g.found).Nodup := by
    refine hpost.nodup.filterMap fun a b p ha hb => ?_
    rw [(found_eq_some.mp ha).1, (found_eq_some.mp hb).1]
  rw [heq, List.perm_ext_iff_of_nodup hnodup (List.Nodup.of_map _ g.nodes.nodup)]
  rintro ⟨id, node⟩
  rw [List.mem_filterMap, JsMap.mem_entries_iff]
  constructor
  · rintro ⟨a, -, ha⟩
    exact (found_eq_some.mp ha).2
  · intro hnode
    exact ⟨id, hall id (JsMap.mem_keys_iff.mpr ⟨node, hnode⟩), found_eq_some.mpr ⟨rfl, hnode⟩⟩

theorem getTopologicalOrder_after (h : Acyclic g.depsOf) {pre post : List (String × Node)} {p : String × Node}
    (heq : g.getTopologicalOrder = pre ++ p :: post) {d : String} (hd : d ∈ p.2.deps) (hpresent : g.nodes.has d = true) :
    d ∈ pre.map Prod.fst := by
  obtain ⟨ids, hpost, -, hids⟩ := getTopologicalOrder_eq h
  rw [hids, List.filterMap_eq_append_iff] at heq
  obtain ⟨front, back, rfl, rfl, hback⟩ := heq
  obtain ⟨gap, id, rest, rfl, hgap, hfound, rfl⟩ := List.filterMap_eq_cons_iff.mp hback
  obtain ⟨rfl, hnode⟩ := found_eq_some.mp hfound
  obtain ⟨node, hd'⟩ := JsMap.has_iff.mp hpresent
  have hfd : g.found d = some (d, node) := found_eq_some.mpr ⟨rfl, hd'⟩
  have hdeps : d ∈ g.depsOf p.1 := by
    simp only [depsOf, hnode]
    exact hd
  have hmem := hpost.after (front ++ gap) p.1 rest (List.append_assoc .. ).symm d hdeps
  rcases List.mem_append.mp hmem with hfront | hskip
  · exact List.mem_map.mpr ⟨(d, node), List.mem_filterMap.mpr ⟨d, hfront, hfd⟩, rfl⟩
  · rw [hgap d hskip] at hfd
    cases hfd

end WrongStack.TaskDag
