import WrongStack.Auction.Lemmas.Available

/-!
# Task counts

An award is written to the graph at once and counted only when the write is on disk. So at every moment
the count of an agent and the awards to it that are still being written add up to the goals it holds,
if a goal that is completed or failed is counted for its assignee exactly when the assignee holds it.
-/

namespace WrongStack.Auction

open Lib

/-- The goal is in progress and assigned to the agent. -/
def holds (agentId : String) (e : String × GoalNode) : Bool :=
  e.2.status == .inProgress && e.2.assignee == some agentId

/-- The operation will count an award to the agent. -/
def Suspended.awards (agentId : String) : Suspended → Bool
  | .added _ _ _ targetAgent | .registering _ _ targetAgent => targetAgent == some agentId
  | .assigned agent | .claimed _ agent => agent == agentId
  | _ => false

namespace TaskAuctioneer

variable (s : TaskAuctioneer)

def held (agentId : String) : Nat := s.graph.entries.countP (holds agentId)

def awarding (agentId : String) : Nat := s.inFlight.countP (Suspended.awards agentId)

def Balanced : Prop := ∀ a, s.getAgentTaskCount a + s.awarding a = s.held a

/-- The goal that the operation assigns next, if it does. -/
def assigns : Suspended → Option (String × String)
  | .added goalId parentGoal blockedBy (some agentId) =>
      if parentGoal.filter s.graph.has = none ∧ s.nextBlocker goalId blockedBy = none
      then some (goalId, agentId) else none
  | .registering goalId blockedBy (some agentId) =>
      if s.nextBlocker goalId blockedBy = none then some (goalId, agentId) else none
  | _ => none

/-- What is left to do counts as an award, too. -/
def Owing (f : Suspended) : Prop :=
  ∀ a, s.getAgentTaskCount a + s.awarding a + (f.awards a).toNat = s.held a

/-- The count of the assignee has the goal exactly if the assignee holds it. -/
def Counted (taskId : String) : Prop :=
  ∀ goal, s.graph.get? taskId = some goal →
    if goal.status = .inProgress ∧ goal.assignee.isSome = true
    then 0 < s.getAgentTaskCount (goal.assignee.getD "unknown")
    else s.getAgentTaskCount (goal.assignee.getD "unknown") = 0

variable {s} {s' : TaskAuctioneer} {id a : String} {goal : GoalNode} {patch : GoalNode → GoalNode}
  {f : Suspended}

/-! ## What the operations do to the books -/

theorem held_update (patch : GoalNode → GoalNode) (hgoal : s.graph.get? id = some goal) (a : String) :
    (s.update id patch).held a + (holds a (id, goal)).toNat =
      s.held a + (holds a (id, patch goal)).toNat := by
  have hcount := JsMap.countP_modify (p := holds a) (f := patch) hgoal
  have htoNat : ∀ b : Bool, b.toNat = if b = true then 1 else 0 := by decide
  rw [htoNat, htoNat]
  exact hcount

theorem held_update_same (h : ∀ goal, holds a (id, patch goal) = holds a (id, goal)) :
    (s.update id patch).held a = s.held a := by
  cases hgoal : s.graph.get? id with
  | none =>
      unfold held
      rw [update_graph, JsMap.modify, hgoal]
  | some goal =>
      have hcount := held_update patch hgoal a
      rw [h goal] at hcount
      omega

theorem held_congr (h : s'.graph = s.graph) (a : String) : s'.held a = s.held a := by
  rw [held, held, h]

theorem count_agentTaskCount (agentId : String) (delta : Int) (a : String) :
    (s.agentTaskCount agentId delta).getAgentTaskCount a =
      if agentId = a then ((s.getAgentTaskCount a : Int) + delta).toNat else s.getAgentTaskCount a := by
  unfold agentTaskCount
  simp only [getAgentTaskCount, JsMap.get?_set]
  split
  · rename_i h
    subst h
    rfl
  · rfl

theorem awarding_suspend (f : Suspended) (a : String) :
    (s.suspend f).awarding a = s.awarding a + (f.awards a).toNat := by
  unfold awarding suspend
  rw [List.countP_append, List.countP_singleton]
  cases f.awards a <;> rfl

/-- An operation that goes on is owed what it would still count. -/
theorem owing_of_balanced (h : s.Balanced) {i : Nat} (hf : s.inFlight[i]? = some f) :
    { s with inFlight := s.inFlight.eraseIdx i }.Owing f := by
  intro a
  obtain ⟨hi, rfl⟩ := List.getElem?_eq_some_iff.mp hf
  have hperm := (List.getElem_cons_eraseIdx_perm hi).countP_eq (Suspended.awards a)
  rw [List.countP_cons] at hperm
  have hbalanced := h a
  unfold awarding at hbalanced ⊢
  have hnat : (s.inFlight[i].awards a).toNat = if s.inFlight[i].awards a = true then 1 else 0 := by
    cases s.inFlight[i].awards a <;> rfl
  rw [hnat]
  simp only [getAgentTaskCount, held] at hbalanced ⊢
  omega

theorem holds_eq_true {e : String × GoalNode} :
    holds a e = true ↔ e.2.status = .inProgress ∧ e.2.assignee = some a := by
  simp [holds]

/-- A goal leaves the graph's books and the count of its assignee together. -/
theorem balanced_settle (h : s.Balanced) {taskId : String} (hgoal : s.graph.get? taskId = some goal)
    (hcounted : s.Counted taskId) (hpatch : ∀ a, holds a (taskId, patch goal) = false)
    (hf : ∀ a, f.awards a = false) :
    (((s.agentTaskCount (goal.assignee.getD "unknown") (-1)).update taskId patch).suspend f).Balanced := by
  intro a
  have hbalanced := h a
  have hheld := held_update (s := s.agentTaskCount (goal.assignee.getD "unknown") (-1)) patch hgoal a
  rw [hpatch, held_congr (agentTaskCount_graph _ _)] at hheld
  have hcount := count_agentTaskCount (s := s) (goal.assignee.getD "unknown") (-1) a
  have hc := hcounted goal hgoal
  rw [awarding_suspend, hf]
  change getAgentTaskCount (s.agentTaskCount _ _) a + (s.awarding a + 0) = held (update _ _ _) a
  by_cases hprogress : goal.status = .inProgress ∧ goal.assignee.isSome = true
  · rw [if_pos hprogress] at hc
    obtain ⟨agent, hagent⟩ := Option.isSome_iff_exists.mp hprogress.2
    rw [hagent, Option.getD_some] at hc hcount hheld ⊢
    by_cases ha : agent = a
    · subst ha
      have hholds : holds agent (taskId, goal) = true := holds_eq_true.mpr ⟨hprogress.1, hagent⟩
      rw [hholds] at hheld
      rw [hcount, if_pos rfl]
      simp only [Bool.toNat_true, Bool.toNat_false] at hheld
      omega
    · have hholds : holds a (taskId, goal) = false := by
        rw [Bool.eq_false_iff, ne_eq, holds_eq_true, hagent]
        rintro ⟨-, heq⟩
        exact ha (Option.some.inj heq)
      rw [hholds] at hheld
      rw [hcount, if_neg ha]
      simp only [Bool.toNat_false] at hheld
      omega
  · rw [if_neg hprogress] at hc
    have hholds : holds a (taskId, goal) = false := by
      rw [Bool.eq_false_iff, ne_eq, holds_eq_true]
      rintro ⟨hstatus, hassignee⟩
      exact hprogress ⟨hstatus, by rw [hassignee]; rfl⟩
    rw [hholds] at hheld
    simp only [Bool.toNat_false] at hheld
    rw [hcount]
    split
    · rename_i ha
      rw [ha] at hc
      omega
    · omega

theorem balanced_award (h : s.Balanced) (hgoal : s.graph.get? id = some goal) (agentId : String)
    (hfree : ∀ a, holds a (id, goal) = false) (hpatch : ∀ a, holds a (id, patch goal) = (agentId == a))
    (hf : ∀ a, f.awards a = (agentId == a)) : ((s.update id patch).suspend f).Balanced := by
  intro a
  have hbalanced := h a
  have hheld := held_update patch hgoal a
  rw [hfree, hpatch] at hheld
  rw [awarding_suspend, hf]
  change s.getAgentTaskCount a + (s.awarding a + (agentId == a).toNat) = held (update _ _ _) a
  simp only [Bool.toNat_false] at hheld
  omega

theorem balanced_congr (hcounts : s'.agentTaskCounts = s.agentTaskCounts)
    (hinFlight : s'.inFlight = s.inFlight) (hheld : ∀ a, s'.held a = s.held a) (h : s.Balanced) :
    s'.Balanced := by
  intro a
  have hbalanced := h a
  rw [hheld, getAgentTaskCount, awarding, hcounts, hinFlight]
  exact hbalanced

theorem balanced_suspend (h : s.Owing f) {f' : Suspended} (hf : ∀ a, f'.awards a = f.awards a) :
    (s.suspend f').Balanced := by
  intro a
  have howing := h a
  rw [awarding_suspend, hf]
  change s.getAgentTaskCount a + (s.awarding a + (f.awards a).toNat) = s.held a
  omega

theorem owing_congr (hcounts : s'.agentTaskCounts = s.agentTaskCounts)
    (hinFlight : s'.inFlight = s.inFlight) (hheld : ∀ a, s'.held a = s.held a) (h : s.Owing f) :
    s'.Owing f := by
  intro a
  have howing := h a
  rw [hheld, getAgentTaskCount, awarding, hcounts, hinFlight]
  exact howing

theorem balanced_of_owing (h : s.Owing f) (hf : ∀ a, f.awards a = false) : s.Balanced := by
  intro a
  have howing := h a
  rw [hf] at howing
  exact howing

theorem balanced_count (h : s.Owing f) {agentId : String} (hf : ∀ a, f.awards a = (agentId == a)) :
    (s.agentTaskCount agentId 1).Balanced := by
  intro a
  have howing := h a
  rw [hf] at howing
  rw [count_agentTaskCount]
  change _ + s.awarding a = s.held a
  by_cases ha : agentId = a
  · simp only [ha, BEq.rfl, Bool.toNat_true] at howing
    rw [if_pos ha]
    omega
  · simp only [beq_eq_false_iff_ne.mpr ha, Bool.toNat_false] at howing
    rw [if_neg ha]
    omega

/-! ## Calls and windows -/

theorem balanced_publishTask (h : s.Balanced) (goalId : String) (parentGoal : Option String)
    (blockedBy : List String) (targetAgent : Option String) :
    (s.publishTask goalId parentGoal blockedBy targetAgent).Balanced := by
  unfold publishTask
  split
  · exact h
  · rename_i hnew
    intro a
    have hbalanced := h a
    rw [awarding_suspend]
    rw [Bool.not_eq_true, JsMap.has_eq_false] at hnew
    have hcount := JsMap.countP_set_new (p := holds a)
      (v := { status := s.newStatus blockedBy targetAgent, assignee := targetAgent, blockedBy }) hnew
    have hholds : holds a (goalId, { status := s.newStatus blockedBy targetAgent, assignee := targetAgent, blockedBy }) =
        (targetAgent == some a) := by
      unfold holds newStatus
      cases targetAgent with
      | none => simp
      | some agent => simp
    rw [hholds] at hcount
    have hawards : (Suspended.added goalId parentGoal blockedBy targetAgent).awards a = (targetAgent == some a) := rfl
    rw [hawards]
    change s.getAgentTaskCount a + (s.awarding a + _) = List.countP (holds a) (JsMap.set _ _ _).entries
    rw [hcount, ← Nat.add_assoc, hbalanced]
    cases targetAgent == some a <;> rfl

theorem balanced_bid (h : s.Balanced) (taskId : String) (agent : BidAgent) :
    ((s.bid taskId agent).getD s).Balanced := by
  unfold bid
  split
  · exact h
  · split
    · exact h
    · refine balanced_suspend (f := .broadcast taskId) ?_ fun _ => rfl
      exact h

theorem balanced_claim (h : s.Balanced) (taskId agentId : String) : (s.claim taskId agentId).Balanced := by
  unfold claim
  split
  · rename_i goal hgoal
    split
    · rename_i hpending
      refine balanced_award (s := s.cancelBidWindow taskId) h hgoal agentId ?_ ?_ fun _ => rfl
      · intro a
        simp [holds, hpending]
      · intro a
        simp [holds]
    · exact h
  · exact h

theorem balanced_complete (h : s.Balanced) {taskId : String} (hcounted : s.Counted taskId) :
    (s.complete taskId).Balanced := by
  unfold complete
  split
  · exact h
  · rename_i goal hgoal
    exact balanced_settle h hgoal hcounted (fun _ => rfl) fun _ => rfl

theorem balanced_fail (h : s.Balanced) {taskId : String} (hcounted : s.Counted taskId) (expired : Bool) :
    (s.fail taskId expired).Balanced := by
  unfold fail
  split
  · split
    · refine balanced_suspend (f := .broadcast taskId) ?_ fun _ => rfl
      exact h
    · exact h
  · rename_i goal hgoal
    exact balanced_settle h hgoal hcounted (fun _ => rfl) fun _ => rfl

theorem balanced_rebroadcast (h : s.Balanced) (taskId : String) : (s.rebroadcast taskId).Balanced := by
  unfold rebroadcast
  split
  · refine balanced_suspend (f := .broadcast taskId) ?_ fun _ => rfl
    exact h
  · exact h

theorem balanced_evaluateBids (h : s.Balanced) {taskId : String}
    (hcounted : s.bidsFor taskId = [] → s.retryCount taskId ≥ s.maxBidRetries → s.Counted taskId) :
    (s.evaluateBids taskId).Balanced := by
  unfold evaluateBids
  split
  · rename_i hnone
    simp only
    split
    · rename_i hlast
      refine balanced_fail ?_ ?_ true
      · exact h
      · exact hcounted hnone hlast
    · refine balanced_rebroadcast ?_ taskId
      exact h
  · simp only
    split
    · refine balanced_rebroadcast ?_ taskId
      exact h
    · refine balanced_claim ?_ taskId _
      exact h

/-! ## Operations that go on -/

theorem assigns_congr (h : s'.graph = s.graph) (f : Suspended) : s'.assigns f = s.assigns f := by
  unfold assigns
  simp only [h, nextBlocker_congr h]

theorem held_addChild (childId : String) : (s.addChild id childId).held a = s.held a :=
  held_update_same fun _ => rfl

theorem balanced_unblock (h : s.Balanced) (children : List String) : (s.unblock children).Balanced := by
  unfold unblock
  split
  · rename_i id rest hnext
    obtain ⟨child, hchild, hblocked⟩ := nextUnblocked_spec hnext
    refine balanced_suspend (f := .broadcast id) ?_ fun _ => rfl
    refine balanced_congr (s := s) rfl rfl (fun a => ?_) h
    have hheld := held_update (fun child => { child with status := .pending }) hchild a
    have hbefore : holds a (id, child) = false := by simp [holds, hblocked]
    have hafter : holds a (id, { child with status := .pending }) = false := rfl
    rw [hbefore, hafter] at hheld
    exact hheld
  · exact h

theorem balanced_registerChild {goalId : String} {blockedBy : List String} {targetAgent : Option String}
    (h : s.Owing f) (hf : ∀ a, f.awards a = (targetAgent == some a))
    (hassigns : ∀ agentId, targetAgent = some agentId → s.nextBlocker goalId blockedBy = none →
      ∃ goal, s.graph.get? goalId = some goal ∧ goal.status = .inProgress ∧ goal.assignee = some agentId) :
    (s.registerChild goalId blockedBy targetAgent).Balanced := by
  unfold registerChild
  split
  · rename_i id rest hnext
    have hchild : (s.addChild id goalId).Owing f :=
      owing_congr (s := s) rfl rfl (fun _ => held_addChild goalId) h
    exact balanced_suspend hchild fun a => (hf a).symm
  · rename_i hnext
    split
    · rename_i agentId
      obtain ⟨goal, hgoal, hstatus, hassignee⟩ := hassigns agentId rfl hnext
      unfold assignDirect
      rw [if_pos (JsMap.has_iff.mpr ⟨goal, hgoal⟩)]
      refine balanced_suspend (f := f) ?_ fun a => (hf a).symm
      refine owing_congr (s := s) rfl rfl (fun a => ?_) h
      -- the goal is the agent's already
      have hheld := held_update
        (fun goal => { goal with status := .inProgress, assignee := some agentId }) hgoal a
      have hsame : holds a (goalId, { goal with status := .inProgress, assignee := some agentId }) =
          holds a (goalId, goal) := by
        simp [holds, hstatus, hassignee]
      rw [hsame] at hheld
      omega
    · exact balanced_suspend h fun a => (hf a).symm

theorem balanced_resume (h : s.Owing f) (dispatch : DispatchResult)
    (hassigns : ∀ goalId agentId, s.assigns f = some (goalId, agentId) →
      ∃ goal, s.graph.get? goalId = some goal ∧ goal.status = .inProgress ∧ goal.assignee = some agentId) :
    (s.resume dispatch f).Balanced := by
  have hawards : ∀ agent a : String, (some agent == some a) = (agent == a) := fun _ _ => rfl
  cases f with
  | added goalId parentGoal blockedBy targetAgent =>
      simp only [resume]
      split
      · rename_i parent hparent
        have hchild : (s.addChild parent goalId).Owing (.added goalId parentGoal blockedBy targetAgent) :=
          owing_congr (s := s) rfl rfl (fun _ => held_addChild goalId) h
        exact balanced_suspend hchild fun _ => rfl
      · rename_i hparent
        refine balanced_registerChild h (fun _ => rfl) ?_
        rintro agentId rfl hnext
        exact hassigns goalId agentId (by rw [assigns, if_pos ⟨hparent, hnext⟩])
  | registering goalId blockedBy targetAgent =>
      refine balanced_registerChild h (fun _ => rfl) ?_
      rintro agentId rfl hnext
      exact hassigns goalId agentId (by rw [assigns, if_pos hnext])
  | broadcast taskId => exact balanced_of_owing h fun _ => rfl
  | assigned agentId => exact balanced_count h fun _ => rfl
  | scored taskId agent =>
      have hbalanced := balanced_of_owing h fun _ => rfl
      simp only [resume, addBid]
      split
      · exact hbalanced
      · exact hbalanced
  | claimed taskId agentId =>
      have hbalanced := balanced_count (s := s.deleteBids taskId) h fun _ => rfl
      refine balanced_suspend (f := .broadcast taskId) ?_ fun _ => rfl
      exact hbalanced
  | notified taskId =>
      have hbalanced := balanced_of_owing h fun _ => rfl
      simp only [resume]
      split
      · exact hbalanced
      · exact hbalanced
  | completed taskId children | unblocked childId children =>
      have hbalanced := balanced_of_owing h fun _ => rfl
      refine balanced_unblock ?_ children
      exact hbalanced
  | failed taskId expired =>
      have hbalanced := balanced_of_owing h fun _ => rfl
      simp only [resume]
      split
      · refine balanced_suspend (f := .broadcast taskId) ?_ fun _ => rfl
        exact hbalanced
      · exact hbalanced
  | gaveUp taskId => exact balanced_of_owing h fun _ => rfl

end TaskAuctioneer

end WrongStack.Auction
