import WrongStack.ParallelRun.Lemmas.Progress

/-!
# What a dispatched task builds on

A turn dispatches only tasks whose blockers are finished. A task that is not a container gets completed
by a call that has its worker's success, the verifier's acceptance and the integration behind it.
-/

namespace WrongStack.ParallelRun

open Lib Sdd

namespace State

open Board

variable {s s' : State} {t x : TaskId} {a a' : Await} {op : Op} {e : Nat} {w : Nat}
  {S : TaskStatus → Prop}

/-! ## Blockers -/

theorem finished_fill (s : State) : (∀ x, s.fill.board.graph.finished x = s.board.graph.finished x) ∧
    s.fill.board.graph.getBlockers = s.board.graph.getBlockers := by
  refine fill_induction (I := fun s' => (∀ x, s'.board.graph.finished x = s.board.graph.finished x) ∧
    s'.board.graph.getBlockers = s.board.graph.getBlockers) ⟨fun _ => rfl, rfl⟩ ?_ fun _ h _ => h
  intro s' t h hready _
  obtain ⟨hpend, -, -⟩ := mem_ready.mp hready
  exact ⟨fun x => (finished_dispatch hpend).trans (h.1 x),
    (wrote_dispatch hpend).shape.getBlockers.trans h.2⟩

/-- A turn that dispatches leaves the board as `fill` does. -/
theorem board_turn (h : s.dispatched.length < (s.turn e).dispatched.length) :
    (s.turn e).board = s.fill.board := by
  have hf := filled_fill s
  rcases turn_cases s e with ⟨-, heq⟩ | ⟨-, ⟨hz, heq⟩ | ⟨-, ⟨-, heq⟩ | heq⟩⟩
  · simp [heq] at h
  · -- nothing was in flight, so nothing was dispatched
    have hsize := hf.size
    have hdisp : (s.turn e).dispatched = s.fill.dispatched := by
      rw [heq]
      rcases quiesce_cases s.fill e with ⟨d, hq⟩ | ⟨s₁, hsw, hq⟩
      · rw [hq]
      · rw [hq, (head_fields s₁ e).2.2.2.1, hsw.dispatched]
    rw [hdisp] at h
    omega
  · rw [heq, (head_fields s.fill e).2.1]
  · rw [heq]

/-- What a step has dispatched. -/
def newlyDispatched (s : State) (op : Op) : List TaskId := (step s op).dispatched.drop s.dispatched.length

theorem newlyDispatched_ready (ht : t ∈ newlyDispatched s op) : t ∈ s.ready := by
  obtain ⟨l, hl, hmem⟩ := dispatched_step s op
  rw [newlyDispatched, hl, List.drop_left] at ht
  exact hmem t ht

theorem finished_step (ht : t ∈ newlyDispatched s op) :
    (∀ x, (step s op).board.graph.finished x = s.board.graph.finished x) ∧
      (step s op).board.graph.getBlockers = s.board.graph.getBlockers := by
  have hlt : s.dispatched.length < (step s op).dispatched.length := by
    by_contra hle
    rw [newlyDispatched, List.drop_eq_nil_of_le (Nat.not_lt.mp hle)] at ht
    simp at ht
  rcases step_eq s op with heq | hs
  · simp [heq] at hlt
  · rcases step?_cases hs with ⟨-, t, a, -, -, hone⟩ | ⟨e, -, -, heq⟩ | ⟨e, -, -, heq⟩ |
      ⟨e, -, ⟨-, heq⟩ | ⟨-, heq⟩⟩ | ⟨d, -, -, -, heq⟩ | ⟨-, hc⟩
    · rw [(kept_fields (resumeOne_resumed hone).kept).2.1] at hlt
      omega
    · rw [heq, start, (head_fields _ e).2.2.2.1] at hlt
      exact absurd hlt (lt_irrefl _)
    · rw [heq] at hlt ⊢
      rw [board_turn hlt]
      exact finished_fill s
    · rw [heq, (head_fields s e).2.2.2.1] at hlt
      exact absurd hlt (lt_irrefl _)
    · simp [heq] at hlt
    · rw [heq, finish] at hlt
      split at hlt <;> simp at hlt
    · rw [hc.dispatched] at hlt
      omega

/-! ## What a call has behind it -/

inductive Gate
  | worked | verified
  deriving DecidableEq

/-- The gate that the step passes. -/
def passes (s : State) : Op → List (TaskId × Gate)
  | .awaitTasks t =>
      match s.running.get? t with
      | some (.awaitTasks id cached since) =>
          if (s.awaited id cached since).any fun r => decide (r.status = .success) then [(t, .worked)]
          else []
      | _ => []
  | .verified t .ok => if s.running.get? t = some .verifyTask then [(t, .verified)] else []
  | _ => []

/-- The gates that the calls have passed since their tasks were last dispatched. -/
def record (g : List (TaskId × Gate)) (s : State) (op : Op) : List (TaskId × Gate) :=
  g.filter (fun p => !(newlyDispatched s op).contains p.1) ++ passes s op

/-- A call that verifies has a worker's success behind it, and one that integrates the verifier's
acceptance too. -/
structure Gated (s : State) (g : List (TaskId × Gate)) : Prop where
  verify : ∀ t, s.running.get? t = some .verifyTask → (t, .worked) ∈ g
  integrate : ∀ t stage, s.running.get? t = some (.integrateWorktree stage) →
    (t, .worked) ∈ g ∧ (s.config.verifyTask = true → (t, .verified) ∈ g)

theorem Continues.running_lt (h : Continues t S w s s') (hget : s'.running.get? t = some a) :
    a.weight < w := by
  obtain ⟨s₁, n, rfl, hown, hgo⟩ := h
  rcases goOn_cases s₁ t n with ⟨a', rfl, heq⟩ | ⟨rfl, heq⟩ | ⟨e, rfl, ⟨board, hw, heq⟩ | ⟨hnone, heq⟩⟩
  · rw [heq] at hget
    obtain rfl := Option.some.inj ((JsMap.get?_set_self ..).symm.trans hget)
    rcases hgo with ⟨st, -, -, h | ⟨stage, h, hlt⟩⟩ | ⟨-, -, e, h⟩ | ⟨-, a'', h, -, hlt⟩
    · simp at h
    · rw [Next.await.inj h]
      exact hlt
    · simp at h
    · rw [Next.await.inj h]
      exact hlt
  all_goals
    rw [heq] at hget
    simp [JsMap.get?_delete] at hget

theorem Ends.running_lt (h : Ends t w s s') (hget : s'.running.get? t = some a) : a.weight < w := by
  obtain ⟨s₁, n, rfl, -, -, hset⟩ := h
  rcases hset with rfl | ⟨stage, rfl, hlt⟩
  · simp [goOn, JsMap.get?_delete] at hget
  · obtain rfl := Option.some.inj ((JsMap.get?_set_self ..).symm.trans hget)
    exact hlt

theorem integrateWorktree_next (hget : (s.integrateWorktree t).running.get? t = some a) :
    a.weight < 14 ∨ a = .integrateWorktree .commitAll := by
  unfold integrateWorktree at hget
  split at hget
  · exact .inr (Option.some.inj ((JsMap.get?_set_self ..).symm.trans hget)).symm
  · exact .inl ((continues_integrated (w := 14) (by decide) .ok).running_lt hget)

theorem afterWorker_next {result : Coordination.TaskResult}
    (hget : (s.afterWorker t result).running.get? t = some a) : a.weight < 14 ∨ result.status = .success ∧
      (a = .verifyTask ∨ s.config.verifyTask = false ∧ a = .integrateWorktree .commitAll) := by
  simp only [afterWorker] at hget
  split at hget
  · exact .inl ((ends_resolveWorktrees (w := 14) (by decide)).running_lt hget)
  · split at hget
    · rename_i hok
      split at hget
      · exact .inr ⟨hok, .inl (Option.some.inj ((JsMap.get?_set_self ..).symm.trans hget)).symm⟩
      · rename_i hv
        exact (integrateWorktree_next hget).imp_right fun h => ⟨hok, .inr ⟨by simpa using hv, h⟩⟩
    · exact .inl ((continues_applyTaskFailure (w := 14) (by decide) _ true).running_lt hget)

theorem verified_next {verdict : Worktree.Verdict}
    (hget : (s.verified t verdict).running.get? t = some a) :
    a.weight < 14 ∨ verdict = .ok ∧ a = .integrateWorktree .commitAll := by
  unfold verified at hget
  cases verdict with
  | ok => exact (integrateWorktree_next hget).imp_right fun h => ⟨rfl, h⟩
  | rejected reason =>
      exact .inl ((continues_applyTaskFailure (w := 14) (by decide) _ true).running_lt hget)
  | threw err =>
      exact .inl ((continues_applyTaskFailure (w := 14) (by decide) _ true).running_lt hget)

/-- A light await is neither of the two that need a gate. -/
theorem light (hlt : a.weight < 14) : a ≠ .verifyTask ∧ ∀ stage, a ≠ .integrateWorktree stage := by
  constructor
  · rintro rfl
    simp [Await.weight] at hlt
  · rintro stage rfl
    have := stage.weight_pos
    simp only [Await.weight] at hlt
    omega

/-! ## Steps -/

theorem running_fill (hget : s.fill.running.get? x = some a) :
    a = .allocateWorktrees ∨ s.running.get? x = some a := by
  revert hget
  refine fill_induction (I := fun s' => s'.running.get? x = some a →
    a = .allocateWorktrees ∨ s.running.get? x = some a) .inr ?_ fun _ h _ => h
  intro s' t h _ _ hget
  have hget' : (if t = x then some Await.allocateWorktrees else s'.running.get? x) = some a :=
    (JsMap.get?_set ..).symm.trans hget
  split at hget'
  · exact .inl (Option.some.inj hget').symm
  · exact h hget'

/-- A call starts with its worktree, and goes on by itself. -/
theorem running_step? (hs : s.step? op = some s') :
    (∃ t a, op.call = some t ∧ s.running.get? t = some a ∧ s.resumeOne t a op = some s') ∨
      ∀ x a, s'.running.get? x = some a → a = .allocateWorktrees ∨ s.running.get? x = some a := by
  rcases step?_cases hs with ⟨-, h⟩ | ⟨e, -, -, rfl⟩ | ⟨e, -, -, rfl⟩ |
    ⟨e, -, ⟨-, rfl⟩ | ⟨-, rfl⟩⟩ | ⟨d, -, -, -, rfl⟩ | ⟨-, hc⟩
  · exact .inl h
  · exact .inr fun x a hget => .inr (by rwa [start, (head_fields _ e).2.2.1] at hget)
  · refine .inr fun x a hget => ?_
    rcases turn_cases s e with ⟨-, heq⟩ | ⟨-, ⟨-, heq⟩ | ⟨-, ⟨-, heq⟩ | heq⟩⟩
    · rw [heq] at hget
      exact .inr hget
    · rw [heq] at hget
      rcases quiesce_cases s.fill e with ⟨d, hq⟩ | ⟨s₁, hsw, hq⟩
      · rw [hq] at hget
        exact running_fill hget
      · rw [hq, (head_fields s₁ e).2.2.1, hsw.running] at hget
        exact running_fill hget
    · rw [heq, (head_fields s.fill e).2.2.1] at hget
      exact running_fill hget
    · rw [heq] at hget
      exact running_fill hget
  · exact .inr fun x a hget => .inr (by rwa [(head_fields s e).2.2.1] at hget)
  · exact .inr fun x a hget => .inr hget
  · refine .inr fun x a hget => .inr ?_
    unfold finish at hget
    split at hget <;> exact hget
  · exact .inr fun x a hget => .inr (hc.running ▸ hget)

variable {g : List (TaskId × Gate)} {y : Gate}

/-- The entries of a call last as long as it does. -/
theorem record_keeps (hm : (x, y) ∈ g) (hget : s.running.get? x = some a) : (x, y) ∈ record g s op := by
  refine List.mem_append_left _ (List.mem_filter.mpr ⟨hm, ?_⟩)
  simp only [Bool.not_eq_eq_eq_not, Bool.not_true]
  rw [← Bool.not_eq_true, List.contains_iff_mem]
  intro hnew
  obtain ⟨-, -, hnone⟩ := mem_ready.mp (newlyDispatched_ready hnew)
  exact absurd (hnone.symm.trans hget) (by simp)

theorem record_adds (hm : (x, y) ∈ passes s op) : (x, y) ∈ record g s op := List.mem_append_right _ hm

theorem passes_awaitTasks {id : String} {cached : Option Coordination.TaskResult} {since : Nat}
    {result : Coordination.TaskResult} (hget : s.running.get? t = some (.awaitTasks id cached since))
    (hw : s.awaited id cached since = some result) (hok : result.status = .success) :
    passes s (.awaitTasks t) = [(t, .worked)] := by
  simp [passes, hget, hw, hok]

theorem passes_verified (hget : s.running.get? t = some .verifyTask) :
    passes s (.verified t .ok) = [(t, .verified)] := by
  simp [passes, hget]

/-- What the call of `t` has behind it where it goes on to. -/
theorem Gated.resumeOne (h : Gated s g) (hget : s.running.get? t = some a)
    (hcall : op.call = some t)
    (hone : s.resumeOne t a op = some s') (ha' : s'.running.get? t = some a') :
    (a' = .verifyTask → (t, .worked) ∈ record g s op) ∧
      ∀ stage, a' = .integrateWorktree stage → (t, .worked) ∈ record g s op ∧
        (s.config.verifyTask = true → (t, .verified) ∈ record g s op) := by
  have hlight : a'.weight < 14 → (a' = .verifyTask → (t, .worked) ∈ record g s op) ∧
      ∀ stage, a' = .integrateWorktree stage → (t, .worked) ∈ record g s op ∧
        (s.config.verifyTask = true → (t, .verified) ∈ record g s op) := fun hlt =>
    ⟨fun heq => absurd heq (light hlt).1, fun stage heq => absurd heq ((light hlt).2 stage)⟩
  cases a with
  | allocateWorktrees =>
      cases op <;> simp only [State.resumeOne, reduceCtorEq] at hone
      simp only [Option.ite_none_left_eq_some] at hone
      obtain rfl := Option.some.inj hone.2
      simp only [allocated] at ha'
      split at ha'
      · generalize hn : Next.threw _ = n at ha'
        rcases goOn_cases _ t n with ⟨_, rfl, -⟩ | ⟨rfl, -⟩ | ⟨-, -, ⟨board, -, heq⟩ | ⟨-, heq⟩⟩
        · simp at hn
        · simp at hn
        all_goals
          rw [heq] at ha'
          simp [JsMap.get?_delete] at ha'
      · obtain rfl := Option.some.inj ((JsMap.get?_set_self ..).symm.trans ha')
        exact ⟨by simp, by simp⟩
  | awaitTasks id cached since =>
      cases op <;> simp only [State.resumeOne, reduceCtorEq] at hone
      · obtain ⟨result, hw, rfl⟩ := Option.map_eq_some_iff.mp hone
        obtain rfl := Option.some.inj hcall.symm
        rcases afterWorker_next ha' with hlt | ⟨hok, hnext⟩
        · exact hlight hlt
        · have hworked : (t, Gate.worked) ∈ record g s (.awaitTasks t) :=
            record_adds (passes_awaitTasks hget hw hok ▸ List.mem_singleton.mpr rfl)
          refine ⟨fun _ => hworked, fun stage heq => ⟨hworked, fun hv => ?_⟩⟩
          rcases hnext with rfl | ⟨hno, -⟩
          · simp at heq
          · simp [hno] at hv
      · simp only [Option.ite_none_left_eq_some] at hone
        obtain rfl := Option.some.inj hone.2
        rcases afterWorker_next ha' with hlt | ⟨hok, -⟩
        · exact hlight hlt
        · simp [timedOutResult] at hok
  | verifyTask =>
      cases op <;> simp only [State.resumeOne, reduceCtorEq] at hone
      obtain rfl := Option.some.inj hone
      obtain rfl := Option.some.inj hcall.symm
      rcases verified_next ha' with hlt | ⟨rfl, rfl⟩
      · exact hlight hlt
      · refine ⟨by simp, fun stage _ => ⟨record_keeps (h.verify _ hget) hget, fun _ => record_adds ?_⟩⟩
        rw [passes_verified hget]
        exact List.mem_singleton.mpr rfl
  | integrateWorktree stage =>
      cases op <;> simp only [State.resumeOne, reduceCtorEq] at hone
      obtain rfl := Option.some.inj hone
      have hold := h.integrate t stage hget
      refine ⟨fun heq => ?_, fun _ _ => ⟨record_keeps hold.1 hget, fun hv => record_keeps (hold.2 hv) hget⟩⟩
      exact record_keeps hold.1 hget
  | superviseFailure errMsg attempts resolve =>
      cases op <;> simp only [State.resumeOne, reduceCtorEq] at hone
      obtain rfl := Option.some.inj hone
      exact hlight (lt_trans ((continues_supervised (w := 13) (by decide) errMsg attempts resolve _
        _).running_lt ha') (by decide))
  | resolveWorktrees stage =>
      have hr := resumeOne_resumed hone
      rcases hr.ends with ⟨b, hrun, -, hlt, -⟩ | ⟨ok, hrun, -⟩
      · rw [hrun, JsMap.get?_set_self] at ha'
        obtain rfl := Option.some.inj ha'
        refine hlight (hlt.trans_le ?_)
        cases stage with
        | merging m => cases m <;> simp [Await.weight, ResolveStage.weight, Worktree.MergeStage.weight]
        | _ => simp [Await.weight, ResolveStage.weight]
      · rw [hrun] at ha'
        simp [JsMap.get?_delete] at ha'

theorem Gated.step (h : Gated s g) (op : Op) : Gated (step s op) (record g s op) := by
  have hkeep : ∀ s' : State, s'.config = s.config → (∀ x a, s'.running.get? x = some a →
      a = .allocateWorktrees ∨ s.running.get? x = some a) → Gated s' (record g s op) := by
    intro s' hc hrun
    refine ⟨fun x hx => ?_, fun x stage hx => ?_⟩
    · have hold := (hrun x _ hx).resolve_left (by simp)
      exact record_keeps (h.verify x hold) hold
    · have hold := (hrun x _ hx).resolve_left (by simp)
      obtain ⟨h1, h2⟩ := h.integrate x stage hold
      exact ⟨record_keeps h1 hold, fun hv => record_keeps (h2 (hc ▸ hv)) hold⟩
  rcases step_eq s op with heq | hs
  · exact hkeep _ (by rw [heq]) fun x a hx => .inr (heq ▸ hx)
  · rcases running_step? hs with ⟨t, a, hcall, hget, hone⟩ | hrun
    · have hr := resumeOne_resumed hone
      have hconfig := (kept_fields hr.kept).1
      have hown : ∀ a', (ParallelRun.step s op).running.get? t = some a' → _ := fun a' ha' =>
        h.resumeOne hget hcall hone ha'
      refine ⟨fun x hx => ?_, fun x stage hx => ?_⟩
      · by_cases hxt : x = t
        · subst hxt
          exact (hown _ hx).1 rfl
        · have hold := (running_off hr hxt).symm.trans hx
          exact record_keeps (h.verify x hold) hold
      · rw [hconfig]
        by_cases hxt : x = t
        · subst hxt
          exact (hown _ hx).2 stage rfl
        · have hold := (running_off hr hxt).symm.trans hx
          obtain ⟨h1, h2⟩ := h.integrate x stage hold
          exact ⟨record_keeps h1 hold, fun hv => record_keeps (h2 hv) hold⟩
    · exact hkeep _ (config_step s op) hrun

theorem gated_init (config : Config) (board : Board) : Gated (init config board) [] := by
  refine ⟨fun t h => ?_, fun t stage h => ?_⟩ <;> simp [init, JsMap.get?_empty] at h

/-! ## Completions -/

/-- The task is split into subtasks. -/
def Splits (t : TaskId) : Op → Prop
  | .splitTask x _ _ => x = t
  | .supervised x verdict _ => x = t ∧ ∃ subtasks, verdict = some (.split subtasks)
  | _ => False

/-- The call of `t` completes it: its worker has succeeded, the verifier has accepted it when there is
one, and its worktree is integrated when it has one. -/
structure CompletedBy (g : List (TaskId × Gate)) (s : State) (op : Op) (t : TaskId) : Prop where
  worked : (t, .worked) ∈ record g s op
  verified : s.config.verifyTask = true → (t, .verified) ∈ record g s op
  integrated : t ∉ s.taskWorktrees ∨ ∃ stage answer, op = .git t answer ∧
    s.running.get? t = some (.integrateWorktree stage) ∧
      (stage.advance s.config.merge t s.base answer).2 = .inr .ok

theorem Ends.statusOf (h : Ends t w s s') : s'.board.statusOf t = s.board.statusOf t := by
  obtain ⟨s₁, n, rfl, -, hsame, hset⟩ := h
  rcases hset with rfl | ⟨stage, rfl, -⟩ <;> exact hsame

theorem board_resolveAnswer (s : State) (t : TaskId) (answer : Worktree.Answer) (stage : ResolveStage) :
    (s.resolveAnswer t answer stage).board = s.board := by
  cases stage with
  | commitAll =>
      simp only [resolveAnswer]
      split <;> rfl
  | merging m =>
      simp only [resolveAnswer]
      split
      · rfl
      · split <;> rfl
  | release => rfl

theorem completed_allocated {active : Bool} {randomUUID : Coordination.Uuid}
    (hst : (s.allocated t active randomUUID).board.statusOf t = some .completed) :
    s.board.statusOf t = some .completed := by
  simp only [allocated] at hst
  split at hst
  · generalize hn : Next.threw _ = n at hst
    rcases goOn_cases _ t n with ⟨_, rfl, -⟩ | ⟨rfl, -⟩ | ⟨-, -, ⟨board, hw, heq⟩ | ⟨-, heq⟩⟩
    · simp at hn
    · simp at hn
    · rw [heq] at hst
      have hfailed := hw.own.resolve_right (by simp)
      exact absurd (hst.symm.trans hfailed) (by simp)
    · rwa [heq] at hst
  · exact hst

theorem Gated.completed_resumeOne (h : Gated s g) (hget : s.running.get? t = some a)
    (hcall : op.call = some t) (hone : s.resumeOne t a op = some s')
    (hst : s'.board.statusOf t = some .completed) :
    s.board.statusOf t = some .completed ∨ Splits t op ∨ CompletedBy g s op t := by
  have hfailing : ¬ Failing .completed := by simp [Failing]
  have hworker : ∀ {result : Coordination.TaskResult}, (s.afterWorker t result).board.statusOf t =
      some .completed → s.board.statusOf t = some .completed ∨
        result.status = .success ∧ s.config.verifyTask = false ∧ t ∉ s.taskWorktrees := by
    intro result hst
    rcases continues_afterWorker (w := 29) (s := s) (t := t) (by decide) result with ⟨-, hend⟩ | hcont
    · exact .inl (hend.statusOf.symm.trans hst)
    · exact (hcont.completed hst).imp_right fun hS => (hS.resolve_left hfailing).2
  cases a with
  | allocateWorktrees =>
      cases op <;> simp only [State.resumeOne, reduceCtorEq] at hone
      simp only [Option.ite_none_left_eq_some] at hone
      obtain rfl := Option.some.inj hone.2
      exact .inl (completed_allocated hst)
  | awaitTasks id cached since =>
      cases op <;> simp only [State.resumeOne, reduceCtorEq] at hone
      · obtain ⟨result, hw, rfl⟩ := Option.map_eq_some_iff.mp hone
        obtain rfl := Option.some.inj hcall.symm
        refine (hworker hst).imp_right fun hdone => ?_
        obtain ⟨hok, hv, hno⟩ := hdone
        refine .inr ⟨?_, fun hv' => ?_, .inl hno⟩
        · exact record_adds (passes_awaitTasks hget hw hok ▸ List.mem_singleton.mpr rfl)
        · simp [hv] at hv'
      · simp only [Option.ite_none_left_eq_some] at hone
        obtain rfl := Option.some.inj hone.2
        exact (hworker hst).imp_right fun h => absurd h.1 (by simp [timedOutResult])
  | verifyTask =>
      cases op <;> simp only [State.resumeOne, reduceCtorEq] at hone
      obtain rfl := Option.some.inj hone
      obtain rfl := Option.some.inj hcall.symm
      refine ((continues_verified (w := 28) (by decide) _).completed hst).imp_right fun hS => .inr ?_
      obtain ⟨-, rfl, hno⟩ := hS.resolve_left hfailing
      refine ⟨record_keeps (h.verify _ hget) hget, fun _ => record_adds ?_, .inl hno⟩
      rw [passes_verified hget]
      exact List.mem_singleton.mpr rfl
  | integrateWorktree stage =>
      cases op <;> simp only [State.resumeOne, reduceCtorEq] at hone
      obtain rfl := Option.some.inj hone
      obtain rfl := Option.some.inj hcall.symm
      rename_i answer
      obtain ⟨hworked, hverified⟩ := h.integrate _ stage hget
      unfold integrateAnswer at hst
      split at hst
      · exact .inl hst
      · rename_i base outcome hadv
        refine ((continues_integrated (w := 14) (by decide) outcome).completed hst).imp_right fun hS => .inr ?_
        obtain ⟨-, rfl⟩ := hS.resolve_left hfailing
        refine ⟨record_keeps hworked hget, fun hv => record_keeps (hverified hv) hget,
          .inr ⟨stage, answer, rfl, hget, ?_⟩⟩
        rw [hadv]
  | superviseFailure errMsg attempts resolve =>
      cases op <;> simp only [State.resumeOne, reduceCtorEq] at hone
      obtain rfl := Option.some.inj hone
      refine ((continues_supervised (w := 13) (by decide) errMsg attempts resolve _ _).completed
        hst).imp_right fun hS => .inl ?_
      exact ⟨Option.some.inj hcall, (hS.resolve_left hfailing).2⟩
  | resolveWorktrees stage =>
      cases op <;> simp only [State.resumeOne, reduceCtorEq] at hone
      obtain rfl := Option.some.inj hone
      rw [board_resolveAnswer] at hst
      exact .inl hst

theorem completed_turn (hst : (s.turn e).board.statusOf x = some .completed) :
    s.board.statusOf x = some .completed := by
  have hfill : s.fill.board.statusOf x = some .completed → s.board.statusOf x = some .completed := by
    refine fill_induction (I := fun s' => s'.board.statusOf x = some .completed →
      s.board.statusOf x = some .completed) id ?_ fun _ h _ => h
    intro s' t h hready _ hx
    have hw := wrote_dispatch (mem_ready.mp hready).1
    refine h (hw.spares.came ?_ hx (by simp))
    rintro rfl
    rcases hw.own with hown | ⟨-, hown⟩ <;> exact absurd (hx.symm.trans hown) (by simp)
  rcases turn_cases s e with ⟨-, heq⟩ | ⟨-, ⟨-, heq⟩ | ⟨-, ⟨-, heq⟩ | heq⟩⟩
  · rwa [heq] at hst
  · rw [heq] at hst
    rcases quiesce_cases s.fill e with ⟨d, hq⟩ | ⟨s₁, hsw, hq⟩
    · rw [hq] at hst
      exact hfill hst
    · rw [hq, (head_fields s₁ e).2.1] at hst
      rcases hsw.requeued with ⟨-, -, -, hb⟩ | ⟨-, -, -, -, hb⟩
      · exact hfill ((requeued_requeueFailedTasks _).came (hb ▸ hst) (by simp))
      · exact hfill (requeued_recoverFailedBlockers.came (hb ▸ hst) (by simp))
  · rw [heq, (head_fields s.fill e).2.1] at hst
    exact hfill hst
  · rw [heq] at hst
    exact hfill hst

/-- A task gets completed by being split, or by its call. -/
theorem Gated.completed_step? (h : Gated s g) (hs : s.step? op = some s')
    (hst : s'.board.statusOf x = some .completed) :
    s.board.statusOf x = some .completed ∨ Splits x op ∨ CompletedBy g s op x := by
  cases op with
  | start e =>
      simp only [State.step?, Option.ite_none_right_eq_some] at hs
      obtain rfl := Option.some.inj hs.2
      rw [start, (head_fields _ e).2.1] at hst
      exact .inl hst
  | turn e =>
      simp only [State.step?, Option.ite_none_right_eq_some] at hs
      obtain rfl := Option.some.inj hs.2
      exact .inl (completed_turn hst)
  | wake e =>
      rcases step?_cases hs with ⟨hsys, t, a, hcall, -⟩ | ⟨_, h', -⟩ | ⟨_, h', -⟩ |
        ⟨e', h', ⟨-, rfl⟩ | ⟨-, rfl⟩⟩ | ⟨_, h', -⟩ | ⟨h', -⟩
      · simp [Op.call] at hcall
      · simp at h'
      · simp at h'
      · rw [(head_fields s e').2.1] at hst
        exact .inl hst
      · exact .inl hst
      · simp at h'
      · simp [Op.system] at h'
  | drained =>
      simp only [State.step?] at hs
      split at hs
      · simp only [Option.ite_none_right_eq_some] at hs
        obtain rfl := Option.some.inj hs.2
        unfold finish at hst
        split at hst
        · exact .inl ((requeued_resetInProgress "run stopped").came hst (by simp))
        · exact .inl hst
      · simp at hs
  | settle _ _ | stop | pause | resume =>
      obtain rfl := Option.some.inj hs
      exact .inl hst
  | cancelTask t =>
      obtain rfl := Option.some.inj hs
      rw [board_cancelTask] at hst
      rcases cancelTask_spec (b := s.board) (t := t) with ⟨-, heq⟩ | ⟨-, -, b₁, ht, -, hw⟩
      · rw [heq] at hst
        exact .inl hst
      · refine .inl ?_
        have hold : b₁.statusOf x = some .completed := by
          refine hw.spares.came ?_ hst (by simp)
          rintro rfl
          exact absurd (hst.symm.trans (hw.own.resolve_right (by simp))) (by simp)
        rwa [Board.statusOf, Board.graph, ht] at hold
  | retryTask t =>
      obtain rfl := Option.some.inj hs
      obtain ⟨b₁, ht, -, hreq⟩ := retryTask_spec (b := s.board) (t := t)
      have hold := hreq.came hst (by simp)
      rw [Board.statusOf, Board.graph, ht] at hold
      exact .inl hold
  | retryAllFailed =>
      obtain rfl := Option.some.inj hs
      obtain ⟨b₁, ht, -, hreq⟩ := retryAllFailed_spec (b := s.board)
      have hold := hreq.came hst (by simp)
      rw [Board.statusOf, Board.graph, ht] at hold
      exact .inl hold
  | deleteTask t =>
      obtain rfl := Option.some.inj hs
      rcases deleteTask_spec (b := s.board) (t := t) s.taskSubagents with heq | ⟨-, -, hsp, hnone, -⟩
      · simp only [heq] at hst
        exact .inl hst
      · refine .inl (hsp.came ?_ hst (by simp))
        rintro rfl
        exact absurd (hst.symm.trans hnone) (by simp)
  | splitTask t now subtasks =>
      obtain rfl := Option.some.inj hs
      rcases splitTask_spec (b := s.board) (t := t) s.taskSubagents now subtasks with heq | ⟨-, hsp, -⟩
      · simp only [heq] at hst
        exact .inl hst
      · by_cases hx : x = t
        · exact .inr (.inl hx.symm)
        · exact .inl (hsp.came hx hst (by simp))
  | allocated t _ _ | awaitTasks t | awaitTimeout t | verified t _ | git t _ | supervised t _ _ =>
      obtain ⟨a, hget, hone⟩ := Option.bind_eq_some_iff.mp hs
      by_cases hx : x = t
      · subst hx
        exact h.completed_resumeOne hget rfl hone hst
      · exact .inl ((resumeOne_resumed hone).spares.came hx hst (by simp))

theorem Gated.completed_step (h : Gated s g) (hst : (ParallelRun.step s op).board.statusOf x = some .completed) :
    s.board.statusOf x = some .completed ∨ Splits x op ∨ CompletedBy g s op x := by
  rcases step_eq s op with heq | hs
  · rw [heq] at hst
    exact .inl hst
  · exact h.completed_step? hs hst

end State

end WrongStack.ParallelRun
