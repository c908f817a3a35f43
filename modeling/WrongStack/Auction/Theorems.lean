import WrongStack.Auction.Lemmas.Accounts

/-!
# Auctions over whole runs
-/

namespace WrongStack.Auction

open Lib TaskAuctioneer

variable {s : TaskAuctioneer}

/-! ## Waiting and available work -/

/-- A window that expires fails no blocked goal. -/
def SparesBlocked (s : TaskAuctioneer) : Op → Prop
  | .expire taskId => ∀ id goal, s.graph.get? id = some goal → goal.status = .blocked →
      ∀ goal', (step s (.expire taskId)).graph.get? id = some goal' → goal'.status ≠ .failed
  | _ => True

/-- The window of a blocked goal does not expire for the last time. -/
def RetriesBlocked (s : TaskAuctioneer) : Op → Prop
  | .expire taskId => taskId ∈ s.bidTimers → s.bidsFor taskId = [] →
      (∃ goal, s.graph.get? taskId = some goal ∧ goal.status = .blocked) →
      s.retryCount taskId < s.maxBidRetries
  | _ => True

/-- No goal with blockers becomes pending: at publication it has none or one that is not done, and no
completed goal releases one. -/
def ReleasesNone (s : TaskAuctioneer) : Op → Prop
  | .publishTask goalId _ blockedBy targetAgent => s.graph.has goalId = false → targetAgent = none →
      blockedBy = [] ∨ s.hasOpenBlockers blockedBy = true
  | .resume i _ => ∀ f, s.inFlight[i]? = some f → ∀ children, f.children = some children →
      ∀ id rest goal, s.nextUnblocked children = some (id, rest) → s.graph.get? id = some goal →
        goal.blockedBy = []
  | _ => True

theorem publishTask_workable (h : Workable s.graph) (goalId : String) (parentGoal : Option String)
    (blockedBy : List String) (targetAgent : Option String) :
    Workable (s.publishTask goalId parentGoal blockedBy targetAgent).graph ↔
      ReleasesNone s (.publishTask goalId parentGoal blockedBy targetAgent) := by
  unfold publishTask ReleasesNone
  split
  · rename_i hhas
    simp [h, hhas]
  · rename_i hhas
    simp only [suspend_graph, workable_set h, Bool.not_eq_true] at hhas ⊢
    simp only [hhas, forall_const, newStatus]
    cases targetAgent with
    | some agentId => simp
    | none =>
        cases hopen : s.hasOpenBlockers blockedBy with
        | true => simp
        | false => simp

theorem step_workable (h : Workable s.graph) (op : Op) :
    Workable (step s op).graph ↔ ReleasesNone s op := by
  cases op with
  | publishTask goalId parentGoal blockedBy targetAgent =>
      exact publishTask_workable h goalId parentGoal blockedBy targetAgent
  | bid taskId agent =>
      refine iff_of_true ?_ trivial
      rw [step, bid_graph]
      exact h
  | claim taskId agentId => exact iff_of_true (workable_claim h taskId agentId) trivial
  | complete taskId => exact iff_of_true (workable_complete h taskId) trivial
  | fail taskId => exact iff_of_true (workable_fail h taskId false) trivial
  | expire taskId => exact iff_of_true (workable_expire h taskId) trivial
  | resume i dispatch =>
      simp only [ReleasesNone]
      cases hf : s.inFlight[i]? with
      | none =>
          rw [step_resume_none hf]
          simpa using h
      | some f =>
          have hnext : { s with inFlight := s.inFlight.eraseIdx i }.nextUnblocked = s.nextUnblocked :=
            funext (nextUnblocked_congr rfl)
          rw [step_resume_some hf, workable_resume (s := { s with inFlight := s.inFlight.eraseIdx i }) h]
          simp only [Option.some.injEq, forall_eq', hnext]

theorem get?_evaluateBids_last {taskId : String} {goal : GoalNode}
    (hgoal : s.graph.get? taskId = some goal) (hnone : s.bidsFor taskId = [])
    (hlast : s.retryCount taskId ≥ s.maxBidRetries) :
    (s.evaluateBids taskId).graph.get? taskId = some { goal with status := .failed } := by
  rw [evaluateBids, if_pos hnone]
  simp only [if_pos hlast, fail, hgoal, suspend_graph, update_graph, agentTaskCount_graph,
    JsMap.get?_modify, ↓reduceIte, Option.map_some]

theorem sparesBlocked_iff (s : TaskAuctioneer) (op : Op) : SparesBlocked s op ↔ RetriesBlocked s op := by
  cases op with
  | expire taskId =>
      simp only [SparesBlocked, RetriesBlocked, step, expire]
      by_cases htimer : taskId ∈ s.bidTimers
      · rw [if_pos htimer]
        constructor
        · rintro h - hnone ⟨goal, hgoal, hblocked⟩
          by_contra hlast
          have hfailed := get?_evaluateBids_last (s := s.cancelBidWindow taskId) hgoal hnone
            (Nat.not_lt.mp hlast)
          exact h taskId goal hgoal hblocked _ hfailed rfl
        · intro h id goal hgoal hblocked goal' hgoal'
          rcases evaluateBids_get? (s := s.cancelBidWindow taskId) taskId hgoal with
            hsame | ⟨rfl, hnone, hlast, -⟩ | ⟨bid, -, -, -, hpending, -⟩
          · cases hsame.symm.trans hgoal'
            rw [hblocked]
            exact fun hf => by cases hf
          · exact absurd (h htimer hnone ⟨goal, hgoal, hblocked⟩) (Nat.not_lt.mpr hlast)
          · cases hblocked.symm.trans hpending
      · rw [if_neg htimer]
        refine iff_of_true (fun id goal hgoal hblocked goal' hgoal' => ?_) fun h => absurd h htimer
        cases hgoal.symm.trans hgoal'
        rw [hblocked]
        exact fun hf => by cases hf
  | _ => exact Iff.rfl

/-- In a run from any state, goals stay available and expiring windows spare the blocked ones exactly
if no pending goal has blockers at its start and every step meets the two conditions. -/
theorem work_kept_iff (s : TaskAuctioneer) (ops : List Op) :
    ((∀ pre, pre <+: ops → Available (run step s pre)) ∧
      ∀ pre op, pre ++ [op] <+: ops → SparesBlocked (run step s pre) op) ↔
    Workable s.graph ∧ Under step ReleasesNone s ops ∧ Under step RetriesBlocked s ops := by
  simp only [available_iff]
  rw [← under_iff_forall_concat, under_congr sparesBlocked_iff, ← and_assoc]
  refine and_congr_left' ⟨fun h => ?_, fun h => ?_⟩
  · have hstart : Workable s.graph := h [] List.nil_prefix
    exact ⟨hstart, (forall_prefix_iff_under (I := fun _ => True) (J := fun s => Workable s.graph)
      (fun _ _ _ => trivial) (fun _ op _ hj => step_workable hj op) trivial hstart ops).mp h⟩
  · exact (forall_prefix_iff_under (I := fun _ => True) (J := fun s => Workable s.graph)
      (fun _ _ _ => trivial) (fun _ op _ hj => step_workable hj op) trivial h.1 ops).mpr h.2

/-- The goal `b` waits for `a`; when `a` is completed, bids for `b` are taken and no one is shown it. -/
theorem hidden_after_unblocking : ¬ ∀ (s : TaskAuctioneer) (ops : List Op),
    (∀ pre, pre <+: ops → Available (run step s pre)) ∧
      ∀ pre op, pre ++ [op] <+: ops → SparesBlocked (run step s pre) op := by
  intro h
  let goOn : Op := .resume 0 { confidence := 1, role := "r" }
  have hshown := (h {} [.publishTask "a" none [] none, goOn, goOn, .publishTask "b" none ["a"] none, goOn,
    goOn, goOn, .complete "a", goOn]).1 _ (List.prefix_refl _)
  have hb := available_iff.mp hshown "b" { status := .pending, blockedBy := ["a"] } (by decide +kernel) rfl
  cases hb

/-! ## Counts and caps -/

/-- With nothing in flight, the count of an agent is the number of goals it holds. -/
def CountsHeld (s : TaskAuctioneer) : Prop :=
  s.inFlight = [] → ∀ a, s.getAgentTaskCount a = s.held a

/-- A window that expires awards to agents only that hold fewer goals than the cap. -/
def AwardsUnderCap (s : TaskAuctioneer) : Op → Prop
  | .expire taskId => ∀ id goal goal' a, s.graph.get? id = some goal → holds a (id, goal) = false →
      (step s (.expire taskId)).graph.get? id = some goal' → holds a (id, goal') = true →
      s.held a < s.maxTasksPerAgent
  | _ => True

/-- A goal that is completed or failed is counted for its assignee exactly if the assignee holds it; a
winner has room also for the awards that are still being written; a goal that is assigned directly
has not been taken away meanwhile. -/
def Accounted (s : TaskAuctioneer) : Op → Prop
  | .complete taskId | .fail taskId => s.Counted taskId
  | .expire taskId => taskId ∈ s.bidTimers →
      (s.bidsFor taskId = [] → s.retryCount taskId ≥ s.maxBidRetries → s.Counted taskId) ∧
      ∀ bid, s.bidsFor taskId ≠ [] → s.winner taskId = some bid → s.refusesStatus taskId = false →
        s.getAgentTaskCount bid.agentId + s.awarding bid.agentId < s.maxTasksPerAgent
  | .resume i _ => ∀ f, s.inFlight[i]? = some f → ∀ goalId agentId, s.assigns f = some (goalId, agentId) →
      ∃ goal, s.graph.get? goalId = some goal ∧ goal.status = .inProgress ∧ goal.assignee = some agentId
  | .publishTask .. | .bid .. | .claim .. => True

theorem step_balanced (h : s.Balanced) (op : Op) (hop : Accounted s op) : (step s op).Balanced := by
  cases op with
  | publishTask goalId parentGoal blockedBy targetAgent =>
      exact balanced_publishTask h goalId parentGoal blockedBy targetAgent
  | bid taskId agent => exact balanced_bid h taskId agent
  | claim taskId agentId => exact balanced_claim h taskId agentId
  | complete taskId => exact balanced_complete h hop
  | fail taskId => exact balanced_fail h hop false
  | expire taskId =>
      simp only [step, expire]
      split
      · rename_i htimer
        refine balanced_evaluateBids ?_ (hop htimer).1
        exact h
      · exact h
  | resume i dispatch =>
      cases hf : s.inFlight[i]? with
      | none =>
          rw [step_resume_none hf]
          exact h
      | some f =>
          rw [step_resume_some hf]
          refine balanced_resume (owing_of_balanced h hf) dispatch fun goalId agentId hassigns => ?_
          refine hop f hf goalId agentId ((assigns_congr (s := s) ?_ f).symm.trans hassigns)
          rfl

theorem countsHeld_of_balanced (h : s.Balanced) : CountsHeld s := by
  intro hquiet a
  have hbalanced := h a
  simp only [awarding, hquiet, List.countP_nil, Nat.add_zero] at hbalanced
  exact hbalanced

theorem awardsUnderCap_of_balanced (h : s.Balanced) (op : Op) (hop : Accounted s op) :
    AwardsUnderCap s op := by
  cases op with
  | expire taskId =>
      intro id goal goal' a hgoal hfree hgoal' hholds
      simp only [step, expire] at hgoal'
      split at hgoal'
      · rename_i htimer
        rcases evaluateBids_get? (s := s.cancelBidWindow taskId) taskId hgoal with
          hsame | ⟨-, -, -, hfailed⟩ | ⟨bid, rfl, hbids, hwinner, hpending, hawarded⟩
        · cases hsame.symm.trans hgoal'
          rw [hfree] at hholds
          cases hholds
        · cases hfailed.symm.trans hgoal'
          cases hholds
        · cases hawarded.symm.trans hgoal'
          obtain rfl : bid.agentId = a := by simpa [holds] using hholds
          rw [← h bid.agentId]
          exact (hop htimer).2 bid hbids hwinner (refusesStatus_eq_false.mpr ⟨goal, hgoal, hpending⟩)
      · cases hgoal.symm.trans hgoal'
        rw [hfree] at hholds
        cases hholds
  | _ => trivial

/-- A new auctioneer over a graph. -/
def create (maxTasksPerAgent : Nat) (minConfidence : ℚ) (maxBidRetries : Nat) (fleet : Bool)
    (graph : JsMap String GoalNode) : TaskAuctioneer :=
  { maxTasksPerAgent, minConfidence, maxBidRetries, fleet, graph }

/-- Over a graph in which no agent holds a goal yet, the counts are right and no award exceeds the cap
in every run whose steps are all accounted for. -/
theorem accounts_kept {maxTasksPerAgent : Nat} {minConfidence : ℚ} {maxBidRetries : Nat} {fleet : Bool}
    {graph : JsMap String GoalNode} {ops : List Op}
    (hgraph : ∀ a, (create maxTasksPerAgent minConfidence maxBidRetries fleet graph).held a = 0)
    (hops : Under step Accounted (create maxTasksPerAgent minConfidence maxBidRetries fleet graph) ops) :
    let s := create maxTasksPerAgent minConfidence maxBidRetries fleet graph
    (∀ pre, pre <+: ops → CountsHeld (run step s pre)) ∧
      ∀ pre op, pre ++ [op] <+: ops → AwardsUnderCap (run step s pre) op := by
  have hstart : (create maxTasksPerAgent minConfidence maxBidRetries fleet graph).Balanced := by
    intro a
    rw [hgraph]
    rfl
  have hrun : ∀ pre, pre <+: ops →
      (run step (create maxTasksPerAgent minConfidence maxBidRetries fleet graph) pre).Balanced := by
    rintro pre ⟨post, rfl⟩
    exact run_invariant_under (I := Balanced) (C := Accounted) (fun _ op h hop => step_balanced h op hop)
      hstart ((under_append pre post).mp hops).1
  refine ⟨fun pre hpre => countsHeld_of_balanced (hrun pre hpre), fun pre op hpre => ?_⟩
  exact awardsUnderCap_of_balanced (hrun pre ((List.prefix_append pre [op]).trans hpre)) op
    (under_iff_forall_concat.mp hops pre op hpre)

/-- A goal is assigned directly, written and counted, and completed. -/
theorem accounts_kept_direct :
    let goOn : Op := .resume 0 { confidence := 1, role := "r" }
    let ops : List Op := [.publishTask "a" none [] (some "x"), goOn, goOn, .complete "a", goOn]
    (∀ pre, pre <+: ops → CountsHeld (run step (create 3 (3 / 10) 3 true .empty) pre)) ∧
      ∀ pre op, pre ++ [op] <+: ops →
        AwardsUnderCap (run step (create 3 (3 / 10) 3 true .empty) pre) op := by
  refine accounts_kept (fun _ => rfl) ⟨trivial, ?_, ?_, ?_, ?_, trivial⟩
  · intro f hf goalId agentId hassigns
    cases hf
    cases hassigns
    exact ⟨_, rfl, rfl, rfl⟩
  · intro f hf goalId agentId hassigns
    cases hf
    cases hassigns
  · intro goal hgoal
    cases hgoal
    decide +kernel
  · intro f hf goalId agentId hassigns
    cases hf
    cases hassigns

/-- Agent `x` holds `a` and `b`, and completes `a` twice. -/
theorem miscounted_repeat : ¬ ∀ (maxTasksPerAgent : Nat) (ops : List Op),
    let s := create maxTasksPerAgent (3 / 10) 3 true .empty
    (∀ pre, pre <+: ops → CountsHeld (run step s pre)) ∧
      ∀ pre op, pre ++ [op] <+: ops → AwardsUnderCap (run step s pre) op := by
  intro h
  let goOn : Op := .resume 0 { confidence := 1, role := "r" }
  have hcount := (h 3 [.publishTask "a" none [] (some "x"), goOn, goOn,
    .publishTask "b" none [] (some "x"), goOn, goOn, .complete "a", goOn, .complete "a", goOn]).1 _
    (List.prefix_refl _) (by decide +kernel) "x"
  revert hcount
  decide +kernel

end WrongStack.Auction
