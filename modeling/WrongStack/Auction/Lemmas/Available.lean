import WrongStack.Auction.TaskAuctioneer

/-!
# Available work

`getPendingTasks` asks for an empty `blockedBy` list, `bid` for the status `pending` only, and no list
is ever emptied. So both agree as long as no goal that has blockers becomes pending: at publication,
or when a blocker completes.
-/

namespace WrongStack.Auction

open Lib

/-- The children that `complete` has not looked at yet. -/
def Suspended.children : Suspended → Option (List String)
  | .completed _ children | .unblocked _ children => some children
  | _ => none

namespace TaskAuctioneer

variable {s s' : TaskAuctioneer} {id : String} {goal : GoalNode}

/-! ## What the bookkeeping leaves alone -/

@[simp] theorem suspend_graph (f : Suspended) : (s.suspend f).graph = s.graph := rfl

@[simp] theorem agentTaskCount_graph (agentId : String) (delta : Int) :
    (s.agentTaskCount agentId delta).graph = s.graph := rfl

@[simp] theorem cancelBidWindow_graph (taskId : String) : (s.cancelBidWindow taskId).graph = s.graph := rfl

@[simp] theorem startBidWindow_graph (taskId : String) : (s.startBidWindow taskId).graph = s.graph := rfl

@[simp] theorem deleteBids_graph (taskId : String) : (s.deleteBids taskId).graph = s.graph := rfl

@[simp] theorem deleteRetries_graph (taskId : String) : (s.deleteRetries taskId).graph = s.graph := rfl

@[simp] theorem update_graph (patch : GoalNode → GoalNode) :
    (s.update id patch).graph = s.graph.modify id patch := rfl

theorem addBid_graph (taskId : String) (agent : BidAgent) (dispatch : DispatchResult) :
    (s.addBid taskId agent dispatch).graph = s.graph := by
  unfold addBid
  split <;> rfl

theorem rebroadcast_graph (taskId : String) : (s.rebroadcast taskId).graph = s.graph := by
  unfold rebroadcast
  split <;> rfl

theorem bid_graph (taskId : String) (agent : BidAgent) : ((s.bid taskId agent).getD s).graph = s.graph := by
  unfold bid
  split
  · rfl
  · split <;> rfl

theorem isDone_congr (h : s'.graph = s.graph) : s'.isDone = s.isDone := by
  funext id
  rw [isDone, isDone, h]

theorem nextUnblocked_congr (h : s'.graph = s.graph) (children : List String) :
    s'.nextUnblocked children = s.nextUnblocked children := by
  induction children with
  | nil => rfl
  | cons id rest ih => simp only [nextUnblocked, h, isDone_congr h, ih]

theorem nextBlocker_congr (h : s'.graph = s.graph) (goalId : String) (blockedBy : List String) :
    s'.nextBlocker goalId blockedBy = s.nextBlocker goalId blockedBy := by
  induction blockedBy with
  | nil => rfl
  | cons id rest ih => simp only [nextBlocker, h, ih]

theorem nextUnblocked_spec {children rest : List String}
    (h : s.nextUnblocked children = some (id, rest)) :
    ∃ child, s.graph.get? id = some child ∧ child.status = .blocked := by
  induction children with
  | nil => cases h
  | cons x children ih =>
      rw [nextUnblocked] at h
      split at h
      · rename_i child hchild
        split at h
        · rename_i hblocked
          cases h
          exact ⟨child, hchild, hblocked.1⟩
        · exact ih h
      · exact ih h

/-! ## Work that is shown -/

/-- No pending goal has blockers. -/
def Workable (graph : JsMap String GoalNode) : Prop :=
  ∀ id goal, graph.get? id = some goal → goal.status = .pending → goal.blockedBy = []

theorem mem_getPendingTasks {e : String × GoalNode} : e ∈ s.getPendingTasks ↔
    s.graph.get? e.1 = some e.2 ∧ e.2.status = .pending ∧ e.2.blockedBy = [] := by
  rw [← JsMap.mem_entries_iff]
  simp only [getPendingTasks, List.mem_filter, beq_iff_eq, List.length_eq_zero_iff, and_assoc]

theorem refusesStatus_eq_false :
    s.refusesStatus id = false ↔ ∃ goal, s.graph.get? id = some goal ∧ goal.status = .pending := by
  unfold refusesStatus
  cases s.graph.get? id <;> simp

/-- A goal is shown exactly if bids for it are taken. -/
def Available (s : TaskAuctioneer) : Prop :=
  ∀ id, (∃ goal, (id, goal) ∈ s.getPendingTasks) ↔ s.refusesStatus id = false

theorem available_iff : Available s ↔ Workable s.graph := by
  unfold Available Workable
  simp only [mem_getPendingTasks, refusesStatus_eq_false]
  constructor
  · intro h id goal hgoal hpending
    obtain ⟨goal', hgoal', -, hnone⟩ := (h id).mpr ⟨goal, hgoal, hpending⟩
    cases hgoal.symm.trans hgoal'
    exact hnone
  · intro h id
    constructor
    · rintro ⟨goal, hgoal, hpending, -⟩
      exact ⟨goal, hgoal, hpending⟩
    · rintro ⟨goal, hgoal, hpending⟩
      exact ⟨goal, hgoal, hpending, h id goal hgoal hpending⟩

theorem workable_modify {graph : JsMap String GoalNode} (h : Workable graph)
    (patch : GoalNode → GoalNode) : Workable (graph.modify id patch) ↔
      ∀ goal, graph.get? id = some goal → (patch goal).status = .pending → (patch goal).blockedBy = [] := by
  unfold Workable
  constructor
  · intro h' goal hgoal
    exact h' id (patch goal) (by rw [JsMap.get?_modify, if_pos rfl, hgoal]; rfl)
  · intro hpatch x goal hgoal
    rw [JsMap.get?_modify] at hgoal
    split at hgoal
    · rename_i hx
      subst hx
      obtain ⟨goal', hgoal', rfl⟩ := Option.map_eq_some_iff.mp hgoal
      exact hpatch goal' hgoal'
    · exact h x goal hgoal

theorem workable_set {graph : JsMap String GoalNode} (h : Workable graph) :
    Workable (graph.set id goal) ↔ (goal.status = .pending → goal.blockedBy = []) := by
  unfold Workable
  constructor
  · intro h'
    exact h' id goal (JsMap.get?_set_self graph id goal)
  · intro hgoal x goal' hx
    rw [JsMap.get?_set] at hx
    split at hx
    · cases hx
      exact hgoal
    · exact h x goal' hx

theorem workable_addChild (h : Workable s.graph) (childId : String) :
    Workable (s.addChild id childId).graph :=
  (workable_modify h _).mpr fun goal hgoal => h id goal hgoal

theorem workable_assignDirect (h : Workable s.graph) (taskId agentId : String) :
    Workable (s.assignDirect taskId agentId).graph := by
  unfold assignDirect
  split
  · exact (workable_modify h _).mpr fun _ _ hp => by cases hp
  · exact h

theorem workable_registerChild (h : Workable s.graph) (goalId : String) (blockedBy : List String)
    (targetAgent : Option String) : Workable (s.registerChild goalId blockedBy targetAgent).graph := by
  unfold registerChild
  split
  · exact workable_addChild h goalId
  · split
    · exact workable_assignDirect h goalId _
    · exact h

theorem workable_claim (h : Workable s.graph) (taskId agentId : String) :
    Workable (s.claim taskId agentId).graph := by
  unfold claim
  split
  · split
    · exact (workable_modify h _).mpr fun _ _ hp => by cases hp
    · exact h
  · exact h

theorem workable_complete (h : Workable s.graph) (taskId : String) :
    Workable (s.complete taskId).graph := by
  unfold complete
  split
  · exact h
  · exact (workable_modify h _).mpr fun _ _ hp => by cases hp

theorem workable_fail (h : Workable s.graph) (taskId : String) (expired : Bool) :
    Workable (s.fail taskId expired).graph := by
  unfold fail
  split
  · split <;> exact h
  · exact (workable_modify h _).mpr fun _ _ hp => by cases hp

theorem workable_evaluateBids (h : Workable s.graph) (taskId : String) :
    Workable (s.evaluateBids taskId).graph := by
  unfold evaluateBids
  split
  · simp only
    split
    · refine workable_fail ?_ taskId true
      exact h
    · rw [rebroadcast_graph]
      exact h
  · simp only
    split
    · rw [rebroadcast_graph]
      exact h
    · refine workable_claim ?_ taskId _
      exact h

theorem workable_expire (h : Workable s.graph) (taskId : String) :
    Workable (s.expire taskId).graph := by
  unfold expire
  split
  · refine workable_evaluateBids ?_ taskId
    exact h
  · exact h

/-! ## What an expired window does to a goal -/

/-- It leaves it alone, or fails it for want of bids, or awards it. -/
theorem evaluateBids_get? (taskId : String) (hgoal : s.graph.get? id = some goal) :
    (s.evaluateBids taskId).graph.get? id = some goal ∨
      (id = taskId ∧ s.bidsFor taskId = [] ∧ s.retryCount taskId ≥ s.maxBidRetries ∧
        (s.evaluateBids taskId).graph.get? id = some { goal with status := .failed }) ∨
      ∃ bid, id = taskId ∧ s.bidsFor taskId ≠ [] ∧ s.winner taskId = some bid ∧ goal.status = .pending ∧
        (s.evaluateBids taskId).graph.get? id =
          some { goal with status := .inProgress, assignee := some bid.agentId } := by
  unfold evaluateBids
  by_cases hnone : s.bidsFor taskId = []
  · rw [if_pos hnone]
    simp only
    split
    · rename_i hlast
      unfold fail
      cases htask : s.graph.get? taskId with
      | none => exact Or.inl (by simpa [htask] using hgoal)
      | some goal' =>
          simp only [suspend_graph, update_graph, agentTaskCount_graph, JsMap.get?_modify]
          by_cases hid : taskId = id
          · subst hid
            cases htask.symm.trans hgoal
            exact Or.inr (Or.inl ⟨rfl, hnone, hlast, by simp [hgoal]⟩)
          · exact Or.inl (by simpa [hid] using hgoal)
    · rw [rebroadcast_graph]
      exact Or.inl hgoal
  · rw [if_neg hnone]
    simp only
    cases hwinner : s.winner taskId with
    | none =>
        simp only [rebroadcast_graph]
        exact Or.inl hgoal
    | some bid =>
        simp only [claim]
        cases htask : s.graph.get? taskId with
        | none => exact Or.inl hgoal
        | some goal' =>
            simp only
            split
            · rename_i hpending
              simp only [suspend_graph, update_graph, cancelBidWindow_graph, JsMap.get?_modify]
              by_cases hid : taskId = id
              · subst hid
                cases htask.symm.trans hgoal
                exact Or.inr (Or.inr ⟨bid, rfl, hnone, rfl, hpending, by simp [hgoal]⟩)
              · exact Or.inl (by simpa [hid] using hgoal)
            · exact Or.inl hgoal

/-- A child that is released becomes pending with the blockers it lists. -/
theorem workable_unblock (hgraph : s'.graph = s.graph) (h : Workable s.graph) (children : List String) :
    Workable (s'.unblock children).graph ↔ ∀ id rest goal, s.nextUnblocked children = some (id, rest) →
      s.graph.get? id = some goal → goal.blockedBy = [] := by
  unfold unblock
  rw [nextUnblocked_congr hgraph]
  split
  · rename_i id rest hnext
    simp only [suspend_graph, update_graph, hgraph, workable_modify h, forall_const, hnext,
      Option.some.injEq, Prod.mk.injEq, and_imp]
    constructor
    · rintro hpatch _ _ goal rfl -
      exact hpatch goal
    · intro hnone goal
      exact hnone id rest goal rfl rfl
  · rename_i hnext
    simp [hgraph, h, hnext]

/-! ## Operations that go on -/

theorem step_resume_none {i : Nat} {dispatch : DispatchResult} (hf : s.inFlight[i]? = none) :
    step s (.resume i dispatch) = s := by
  simp only [step, hf]

theorem step_resume_some {i : Nat} {dispatch : DispatchResult} {f : Suspended}
    (hf : s.inFlight[i]? = some f) :
    step s (.resume i dispatch) = { s with inFlight := s.inFlight.eraseIdx i }.resume dispatch f := by
  simp only [step, hf]

theorem workable_added (h : Workable s.graph) (dispatch : DispatchResult) (goalId : String)
    (parentGoal : Option String) (blockedBy : List String) (targetAgent : Option String) :
    Workable (s.resume dispatch (.added goalId parentGoal blockedBy targetAgent)).graph := by
  unfold resume
  simp only
  split
  · exact workable_addChild h goalId
  · exact workable_registerChild h goalId blockedBy targetAgent

theorem workable_resume (h : Workable s.graph) (dispatch : DispatchResult) (f : Suspended) :
    Workable (s.resume dispatch f).graph ↔ ∀ children, f.children = some children →
      ∀ id rest goal, s.nextUnblocked children = some (id, rest) → s.graph.get? id = some goal →
        goal.blockedBy = [] := by
  cases f with
  | completed taskId children | unblocked childId children =>
      simp only [resume, Suspended.children, Option.some.injEq, forall_eq']
      refine workable_unblock ?_ h children
      rfl
  | added goalId parentGoal blockedBy targetAgent =>
      exact iff_of_true (workable_added h dispatch goalId parentGoal blockedBy targetAgent)
        fun _ hf => by cases hf
  | registering goalId blockedBy targetAgent =>
      exact iff_of_true (workable_registerChild h goalId blockedBy targetAgent) fun _ hf => by cases hf
  | scored taskId agent =>
      refine iff_of_true ?_ fun _ hf => by cases hf
      rw [resume, addBid_graph]
      exact h
  | notified taskId | failed taskId expired =>
      refine iff_of_true ?_ fun _ hf => by cases hf
      unfold resume
      simp only
      split <;> exact h
  | _ => exact iff_of_true h fun _ hf => by cases hf

end TaskAuctioneer

end WrongStack.Auction
