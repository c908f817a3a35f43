import Mathlib.Data.Fintype.EquivFin
import WrongStack.ParallelRun.Lemmas.Loop

/-!
# The run comes to an end

Every step of the run, and every answer it waits for, uses something up: a dispatch, an await of a call,
a sweep or a round of recovery. The controls of the user give none of it back.
-/

namespace WrongStack.ParallelRun

open Lib Sdd

namespace State

open Board

variable {s s' : State} {t : TaskId} {a : Await} {op : Op} {e : Nat}

/-- The loop checks the number of dispatches before it fills the free slots. -/
structure Bounded (s : State) : Prop where
  top : s.loop = .top → s.dispatched.length < s.config.maxTotalWaves
  bound : s.dispatched.length ≤ s.config.maxTotalWaves + s.config.slots - 1
  racing : s.loop = .racing → s.running.size ≠ 0
  returned : ∀ d, s.loop = .returned d → s.running.size = 0

theorem Bounded.congr (h : Bounded s) (hc : s'.config = s.config) (hd : s'.dispatched = s.dispatched)
    (hr : s'.running = s.running) (hl : s'.loop = s.loop) : Bounded s' :=
  ⟨by rw [hl, hd, hc]; exact h.top, by rw [hd, hc]; exact h.bound, by rw [hl, hr]; exact h.racing,
    by rw [hl, hr]; exact h.returned⟩

/-- With the loop at its head or past it, only the number of dispatches matters. -/
theorem bounded_head (h : s.dispatched.length ≤ s.config.maxTotalWaves + s.config.slots - 1) (e : Nat) :
    Bounded (s.head e) := by
  rcases head_cases s e with heq | ⟨heq, hlt⟩
  · rw [heq]
    exact ⟨by simp, h, by simp, by simp⟩
  · rw [heq]
    exact ⟨fun _ => hlt, h, by simp, by simp⟩

/-- `fill` never holds more than `slots` tasks in flight, so it overshoots by less than that. -/
theorem Bounded.fill (h : Bounded s) (htop : s.loop = .top) :
    s.fill.dispatched.length ≤ s.fill.config.maxTotalWaves + s.fill.config.slots - 1 := by
  have hf := filled_fill s
  have hlt := h.top htop
  have hpos := s.config.slots_pos
  rw [hf.config]
  rcases hf.grows with heq | ⟨-, hsize⟩
  · rw [heq]
    exact h.bound
  · have := hf.size
    omega

theorem Bounded.turn (h : Bounded s) (htop : s.loop = .top) : Bounded (s.turn e) := by
  have hf := h.fill htop
  rcases turn_cases s e with ⟨-, heq⟩ | ⟨-, ⟨-, heq⟩ | ⟨hne, ⟨-, heq⟩ | heq⟩⟩
  · rw [heq]
    exact ⟨by simp, h.bound, by simp, by simp⟩
  · rw [heq]
    rcases quiesce_cases s.fill e with ⟨d, heq⟩ | ⟨s₁, hsw, heq⟩
    · rw [heq]
      exact ⟨by simp, hf, by simp, by simp⟩
    · rw [heq]
      exact bounded_head (by rw [hsw.dispatched, hsw.config]; exact hf) e
  · rw [heq]
    exact bounded_head hf e
  · rw [heq]
    exact ⟨by simp, hf, fun _ => hne, by simp⟩

/-! ## The calls in flight -/

theorem running_ne_zero (h : s.running.get? t = some a) : s.running.size ≠ 0 := by
  intro hz
  simp [JsMap.size_eq_zero.mp hz t] at h

theorem settled_eq (ok : Bool) (l : Loop) : (l = .racing ∧ l.settled ok = (if ok then .woken else .broken)) ∨
    l ≠ .racing ∧ l.settled ok = l := by
  cases l <;> simp [Loop.settled]

theorem kept_fields (h : s'.kept = s.kept) : s'.config = s.config ∧ s'.dispatched = s.dispatched ∧
    s'.recoveryRounds = s.recoveryRounds ∧ s'.failedSweeps = s.failedSweeps := by
  simp only [kept, Prod.mk.injEq] at h
  exact ⟨h.1, h.2.1, h.2.2.2.1, h.2.2.2.2.1⟩

theorem Bounded.resumed (h : Bounded s) (hget : s.running.get? t = some a) (hr : Resumed t a s s') :
    Bounded s' := by
  obtain ⟨hc, hd, -, -⟩ := kept_fields hr.kept
  have hnot : ∀ d, s.loop ≠ .returned d := fun d hl => running_ne_zero hget (h.returned d hl)
  rcases hr.ends with ⟨a', hrun, hl, -, -⟩ | ⟨ok, hrun, hl, -, -⟩
  · refine ⟨by rw [hl, hd, hc]; exact h.top, by rw [hd, hc]; exact h.bound, fun _ => ?_,
      fun d hd => absurd (hl ▸ hd) (hnot d)⟩
    exact running_ne_zero (t := t) (a := a') (by rw [hrun, JsMap.get?_set_self])
  · rcases settled_eq ok s.loop with ⟨hrace, hset⟩ | ⟨hrace, hset⟩
    · have hl' : s'.loop = if ok then .woken else .broken := hl.trans hset
      refine ⟨fun h => ?_, by rw [hd, hc]; exact h.bound, fun h => ?_, fun d h => ?_⟩ <;>
        · rw [hl'] at h
          split at h <;> simp at h
    · have hl' : s'.loop = s.loop := hl.trans hset
      refine ⟨by rw [hl', hd, hc]; exact h.top, by rw [hd, hc]; exact h.bound,
        fun h => absurd (hl' ▸ h) hrace, fun d h => absurd (hl' ▸ h) (hnot d)⟩

theorem Bounded.step? (h : Bounded s) (hs : s.step? op = some s') : Bounded s' := by
  rcases step?_cases hs with ⟨-, t, a, -, hget, hone⟩ | ⟨e, -, -, rfl⟩ | ⟨e, -, htop, rfl⟩ |
    ⟨e, -, ⟨-, rfl⟩ | ⟨-, rfl⟩⟩ | ⟨d, -, -, hz, rfl⟩ | ⟨-, hc⟩
  · exact h.resumed hget (resumeOne_resumed hone)
  · refine bounded_head ?_ e
    exact h.bound
  · exact h.turn htop
  · exact bounded_head h.bound e
  · exact ⟨by simp, h.bound, by simp, by simp⟩
  · unfold finish
    split <;> exact ⟨by simp, h.bound, by simp, fun _ _ => hz⟩
  · exact h.congr hc.config hc.dispatched hc.running hc.loop

theorem Bounded.step (h : Bounded s) (op : Op) : Bounded (step s op) := by
  rcases step_eq s op with heq | hs
  · rw [heq]
    exact h
  · exact h.step? hs

theorem bounded_init (config : Config) (board : Board) : Bounded (init config board) :=
  ⟨by simp [init], by simp [init], by simp [init], by simp [init]⟩

/-! ## The measure -/

end State

def Loop.weight : Loop → Nat
  | .idle => 5
  | .top => 2
  | .racing => 1
  | .woken => 3
  | .broken => 3
  | .draining _ => 1
  | .returned _ => 0
  | .rejected => 0

namespace State

open Board

variable {s s' : State} {t : TaskId} {a : Await} {op : Op} {e : Nat}

/-- What the run can still use up. -/
def remaining (s : State) : Nat :=
  34 * (s.config.maxTotalWaves + s.config.slots - 1 - s.dispatched.length) +
    s.running.weigh Await.weight + s.loop.weight + (s.config.maxFailedSweeps - s.failedSweeps) +
    (s.config.maxRecoveryRounds - s.recoveryRounds)

theorem remaining_head (s : State) (e : Nat) :
    (s.head e).remaining + s.loop.weight ≤ s.remaining + 2 := by
  rcases head_cases s e with heq | ⟨heq, -⟩ <;>
    · rw [heq]
      simp only [remaining, Loop.weight]
      omega

theorem remaining_quiesce (htop : s.loop = .top) (e : Nat) : (s.quiesce e).remaining < s.remaining := by
  rcases quiesce_cases s e with ⟨d, heq⟩ | ⟨s₁, hsw, heq⟩
  · rw [heq]
    simp only [remaining, htop, Loop.weight]
    omega
  · rw [heq]
    have hhead := remaining_head s₁ e
    rw [hsw.loop, htop] at hhead
    have hlt : s₁.remaining < s.remaining := by
      simp only [remaining, hsw.config, hsw.dispatched, hsw.running, hsw.loop]
      rcases hsw.requeued with ⟨hlt, h1, h2, -⟩ | ⟨hlt, h1, h2, -⟩ <;>
        · rw [h1, h2]
          omega
    simp only [Loop.weight] at hhead
    omega

/-- Each dispatch pays for the call that it starts. -/
theorem remaining_fill (hb : Bounded s) (htop : s.loop = .top) :
    s.fill.remaining + 4 * s.fill.dispatched.length ≤ s.remaining + 4 * s.dispatched.length := by
  have hf := filled_fill s
  have hbound := hb.fill htop
  have hweigh := hf.weigh
  have hmono : s.dispatched.length ≤ s.fill.dispatched.length := by
    rcases hf.grows with heq | ⟨hlt, -⟩
    · rw [heq]
    · exact hlt.le
  rw [hf.config] at hbound
  simp only [remaining, hf.config, hf.loop, hf.failedSweeps, hf.recoveryRounds]
  omega

theorem remaining_turn (hb : Bounded s) (htop : s.loop = .top) (e : Nat) :
    (s.turn e).remaining < s.remaining := by
  have hfill := remaining_fill hb htop
  have hf := filled_fill s
  have hloop : s.fill.loop = .top := hf.loop.trans htop
  have hmono : s.dispatched.length ≤ s.fill.dispatched.length := by
    rcases hf.grows with heq | ⟨hlt, -⟩
    · rw [heq]
    · exact hlt.le
  rcases turn_cases s e with ⟨-, heq⟩ | ⟨-, ⟨-, heq⟩ | ⟨-, ⟨hmore, heq⟩ | heq⟩⟩
  · rw [heq]
    simp only [remaining, htop, Loop.weight]
    omega
  · rw [heq]
    have := remaining_quiesce hloop e
    omega
  · -- with more to dispatch, something has been dispatched
    rw [heq]
    have hhead := remaining_head s.fill e
    simp only [hloop, Loop.weight] at hhead
    have hgrew : s.dispatched.length < s.fill.dispatched.length := by
      rcases hf.grows with hsame | ⟨hlt, -⟩
      · exact fill_grows (hsame ▸ hmore)
      · exact hlt
    omega
  · rw [heq]
    have hrace : ({ s.fill with loop := Loop.racing } : State).remaining + 1 = s.fill.remaining := by
      simp only [remaining, hloop, Loop.weight]
      omega
    omega

theorem remaining_resumed (hget : s.running.get? t = some a) (hr : Resumed t a s s') :
    s'.remaining < s.remaining := by
  obtain ⟨hc, hd, hrec, hsweep⟩ := kept_fields hr.kept
  rcases hr.ends with ⟨a', hrun, hl, hlt, -⟩ | ⟨ok, hrun, hl, -, -⟩
  · have hweigh : (s.running.set t a').weigh Await.weight + a.weight = s.running.weigh Await.weight + a'.weight :=
      JsMap.weigh_set hget
    simp only [remaining, hc, hd, hrec, hsweep, hrun, hl]
    omega
  · have hweigh := JsMap.weigh_delete (f := Await.weight) hget
    have hthree := a.three_le_weight
    have hloop : s'.loop.weight ≤ s.loop.weight + 2 := by
      rw [hl]
      cases s.loop <;> cases ok <;> simp [Loop.settled, Loop.weight]
    simp only [remaining, hc, hd, hrec, hsweep, hrun]
    omega

/-- A step of the run uses something up, and a control nothing. -/
theorem remaining_step? (hb : Bounded s) (hs : s.step? op = some s') :
    if op.system then s'.remaining < s.remaining else s'.remaining = s.remaining := by
  rcases step?_cases hs with ⟨hsys, t, a, -, hget, hone⟩ | ⟨e, rfl, hl, rfl⟩ | ⟨e, rfl, htop, rfl⟩ |
    ⟨e, rfl, ⟨hl, rfl⟩ | ⟨hl, rfl⟩⟩ | ⟨d, rfl, hl, -, rfl⟩ | ⟨hsys, hc⟩
  · rw [if_pos hsys]
    exact remaining_resumed hget (resumeOne_resumed hone)
  · have h := remaining_head { s with board := s.board.restoreRetryMap, stopRequested := false } e
    change (s.start e).remaining + s.loop.weight ≤ s.remaining + 2 at h
    have hw : s.loop.weight = 5 := by rw [hl]; rfl
    simp only [Op.system, if_true]
    omega
  · simpa [Op.system] using remaining_turn hb htop e
  · have h := remaining_head s e
    simp only [hl, Loop.weight] at h
    simp only [Op.system, if_true]
    omega
  · simp only [Op.system, if_true, remaining, hl, Loop.weight]
    omega
  · have hfin : (s.finish d).remaining + 1 = s.remaining := by
      unfold finish
      split <;>
        · simp only [remaining, hl, Loop.weight]
          omega
    simp only [Op.system, if_true]
    omega
  · rw [if_neg (by simp [hsys])]
    simp only [remaining, hc.config, hc.dispatched, hc.running, hc.loop, hc.failedSweeps,
      hc.recoveryRounds]

/-! ## What a turn does -/

theorem head_fields (s : State) (e : Nat) : (s.head e).config = s.config ∧
    (s.head e).board = s.board ∧ (s.head e).running = s.running ∧
    (s.head e).dispatched = s.dispatched ∧ (s.head e).recoveryRounds = s.recoveryRounds ∧
    (s.head e).failedSweeps = s.failedSweeps ∧
    ((s.head e).loop = .top ∨ (s.head e).loop = .draining false) := by
  rcases head_cases s e with heq | ⟨heq, -⟩ <;>
    · rw [heq]
      simp

theorem head_base (s : State) (e : Nat) : (s.head e).base = s.base := by
  rcases head_cases s e with heq | ⟨heq, -⟩ <;> rw [heq]

/-- What an iteration of the loop comes to. -/
inductive Iterates (s s' : State) : Prop
  | dispatches (h : s.dispatched.length < s'.dispatched.length)
  | waits (hl : s'.loop = .racing) (hr : s'.running.size ≠ 0)
  | recovers (h : s'.recoveryRounds = s.recoveryRounds + 1)
  | sweeps (h : s'.failedSweeps = s.failedSweeps + 1)
  | exits (d : Bool) (h : s'.loop = .draining d)

theorem iterates_turn (s : State) (e : Nat) : Iterates s (s.turn e) := by
  have hf := filled_fill s
  rcases turn_cases s e with ⟨-, heq⟩ | ⟨-, ⟨-, heq⟩ | ⟨hne, ⟨hmore, heq⟩ | heq⟩⟩
  · rw [heq]
    exact .exits false rfl
  · rw [heq]
    rcases quiesce_cases s.fill e with ⟨d, hq⟩ | ⟨s₁, hsw, hq⟩
    · rw [hq]
      exact .exits d rfl
    · rw [hq]
      obtain ⟨-, -, -, -, hrec, hfail, -⟩ := head_fields s₁ e
      rcases hsw.requeued with ⟨-, h, -⟩ | ⟨-, h, -⟩
      · exact .sweeps (by rw [hfail, h, hf.failedSweeps])
      · exact .recovers (by rw [hrec, h, hf.recoveryRounds])
  · rw [heq]
    obtain ⟨-, -, -, hd, -, -, -⟩ := head_fields s.fill e
    refine .dispatches (hd ▸ ?_)
    rcases hf.grows with hsame | ⟨hlt, -⟩
    · exact fill_grows (hsame ▸ hmore)
    · exact hlt
  · rw [heq]
    exact .waits rfl hne

/-! ## Someone can always go on -/

theorem exists_uuid (ids : List String) : ∃ u : Coordination.Uuid, u.1 ∉ ids := by
  obtain ⟨u, hu⟩ := Infinite.exists_notMem_finset ("" :: ids).toFinset
  simp only [List.toFinset_cons, Finset.mem_insert, List.mem_toFinset, not_or] at hu
  exact ⟨⟨u, hu.1⟩, hu.2⟩

theorem call_goes_on (hget : s.running.get? t = some a) :
    ∃ op : Op, op.system = true ∧ (s.step? op).isSome = true := by
  cases a with
  | allocateWorktrees =>
      obtain ⟨u, hu⟩ := exists_uuid (s.assigned.map Prod.snd)
      refine ⟨.allocated t true u, rfl, ?_⟩
      have hnot : s.assigned.any (·.2 == u.1) = false := by
        rw [List.any_eq_false]
        intro p hp heq
        exact hu (List.mem_map.mpr ⟨p, hp, beq_iff_eq.mp heq⟩)
      simp [step?, hget, resumeOne, hnot]
  | awaitTasks id cached since =>
      cases h : s.awaited id cached since with
      | none => exact ⟨.awaitTimeout t, rfl, by simp [step?, hget, resumeOne, h]⟩
      | some result => exact ⟨.awaitTasks t, rfl, by simp [step?, hget, resumeOne, h]⟩
  | verifyTask => exact ⟨.verified t .ok, rfl, by simp [step?, hget, resumeOne]⟩
  | integrateWorktree stage => exact ⟨.git t {}, rfl, by simp [step?, hget, resumeOne]⟩
  | superviseFailure errMsg attempts resolve =>
      exact ⟨.supervised t none 0, rfl, by simp [step?, hget, resumeOne]⟩
  | resolveWorktrees stage => exact ⟨.git t {}, rfl, by simp [step?, hget, resumeOne]⟩

theorem someone_goes_on (hsize : s.running.size ≠ 0) :
    ∃ op : Op, op.system = true ∧ (s.step? op).isSome = true := by
  by_contra hno
  refine hsize (JsMap.size_eq_zero.mpr fun t => ?_)
  cases hget : s.running.get? t with
  | none => rfl
  | some a => exact absurd (call_goes_on hget) hno

/-- `run()` has settled. -/
def ended (s : State) : Prop := s.loop = .rejected ∨ ∃ d, s.loop = .returned d

theorem Bounded.goes_on (h : Bounded s) (hstart : s.loop ≠ .idle) (hend : ¬ s.ended)
    (hpause : s.paused = true → s.stopRequested = true) :
    ∃ op : Op, op.system = true ∧ (s.step? op).isSome = true := by
  cases hl : s.loop with
  | idle => exact absurd hl hstart
  | top =>
      refine ⟨.turn 0, rfl, ?_⟩
      cases hp : s.paused with
      | false => simp [State.step?, hl, hp]
      | true => simp [State.step?, hl, hp, hpause hp]
  | racing => exact someone_goes_on (h.racing hl)
  | woken => exact ⟨.wake 0, rfl, by simp [State.step?, hl]⟩
  | broken => exact ⟨.wake 0, rfl, by simp [State.step?, hl]⟩
  | draining d =>
      by_cases hz : s.running.size = 0
      · exact ⟨.drained, rfl, by simp [State.step?, hl, hz]⟩
      · exact someone_goes_on hz
  | returned d => exact absurd (.inr ⟨d, hl⟩) hend
  | rejected => exact absurd (.inl hl) hend

/-! ## No call is rejected -/

/-- Every call that has a status to write finds its node, so none is rejected and `run()` neither. -/
structure Rooted (s : State) : Prop where
  node : ∀ t a, s.running.get? t = some a → a.owing = true → s.board.statusOf t ≠ none
  alive : s.loop ≠ .broken ∧ s.loop ≠ .rejected

/-- `deleteTask` does not take the node from under a call that still writes its status. A refused
deletion takes no node. -/
def KeepsNodes (s : State) : Op → Prop
  | .deleteTask t => ∀ a, s.running.get? t = some a →
      a.owing = false ∨ s.board.isRunning s.taskSubagents t = true
  | _ => True

/-- Of the controls only a deletion takes a node away. -/
theorem control_stays {x : TaskId} (hop : op.system = false) (hs : s.step? op = some s')
    (hx : s.board.statusOf x ≠ none) : s'.board.statusOf x ≠ none ∨
      op = .deleteTask x ∧ s.board.isRunning s.taskSubagents x = false := by
  have htracker : ∀ {b b₁ : Board}, b₁.tracker = b.tracker → b.statusOf x ≠ none →
      b₁.statusOf x ≠ none := fun h hx => by rwa [statusOf, graph, h]
  cases op with
  | start _ | turn _ | wake _ | drained | allocated _ _ _ | awaitTasks _ | awaitTimeout _
  | verified _ _ | git _ _ | supervised _ _ _ => simp [Op.system] at hop
  | settle _ _ | stop | pause | resume =>
      obtain rfl := Option.some.inj hs
      exact .inl hx
  | cancelTask t =>
      obtain rfl := Option.some.inj hs
      rw [board_cancelTask]
      rcases cancelTask_spec (b := s.board) (t := t) with ⟨-, heq⟩ | ⟨-, -, b₁, htr, -, hw⟩
      · rw [heq]
        exact .inl hx
      · exact .inl (stays_of_shape hw.shape (htracker htr hx))
  | retryTask t =>
      obtain rfl := Option.some.inj hs
      obtain ⟨b₁, htr, -, hreq⟩ := retryTask_spec (b := s.board) (t := t)
      exact .inl (stays_of_shape hreq.shape (htracker htr hx))
  | retryAllFailed =>
      obtain rfl := Option.some.inj hs
      obtain ⟨b₁, htr, -, hreq⟩ := retryAllFailed_spec (b := s.board)
      exact .inl (stays_of_shape hreq.shape (htracker htr hx))
  | deleteTask t =>
      obtain rfl := Option.some.inj hs
      rcases deleteTask_spec (b := s.board) (t := t) s.taskSubagents with heq | ⟨-, hrun, hsp, -, -⟩
      · rw [heq]
        exact .inl hx
      · by_cases hxt : x = t
        · subst hxt
          exact .inr ⟨rfl, hrun⟩
        · exact .inl (hsp.stays hxt hx)
  | splitTask t now subtasks =>
      obtain rfl := Option.some.inj hs
      rcases splitTask_spec (b := s.board) (t := t) s.taskSubagents now subtasks with heq | ⟨-, hsp, hst, -⟩
      · rw [heq]
        exact .inl hx
      · by_cases hxt : x = t
        · subst hxt
          exact .inl (by rw [hst]; simp)
        · exact .inl (hsp.stays hxt hx)

theorem Rooted.alive_loop (h : Rooted s) (hl : s'.loop ≠ .broken ∧ s'.loop ≠ .rejected)
    (hrun : s'.running = s.running) (hb : ∀ x, s.board.statusOf x ≠ none → s'.board.statusOf x ≠ none) :
    Rooted s' :=
  ⟨fun t a hget ho => hb t (h.node t a (hrun ▸ hget) ho), hl⟩

theorem Rooted.head (h : Rooted s) (e : Nat) : Rooted (s.head e) := by
  obtain ⟨-, hb, hr, -, -, -, hl⟩ := head_fields s e
  refine h.alive_loop ?_ hr fun x hx => hb ▸ hx
  rcases hl with hl | hl <;> simp [hl]

theorem Rooted.dispatch (h : Rooted s) (hready : t ∈ s.ready) : Rooted (s.dispatch t) := by
  obtain ⟨hpend, -, -⟩ := mem_ready.mp hready
  have hw := wrote_dispatch hpend
  refine ⟨fun x a hget ho => stays_of_shape hw.shape ?_, h.alive⟩
  by_cases hx : x = t
  · subst hx
    simp [hpend]
  · have hold : s.running.get? x = some a := by
      rw [← hget]
      exact (JsMap.get?_set ..).trans (if_neg (Ne.symm hx)) |>.symm
    exact h.node x a hold ho

theorem Rooted.fill (h : Rooted s) : Rooted s.fill :=
  fill_induction h (fun _ _ h hready _ => h.dispatch hready) fun _ h _ => ⟨h.node, h.alive⟩

theorem Rooted.turn (h : Rooted s) (e : Nat) : Rooted (s.turn e) := by
  have hf := h.fill
  rcases turn_cases s e with ⟨-, heq⟩ | ⟨-, ⟨-, heq⟩ | ⟨-, ⟨-, heq⟩ | heq⟩⟩
  · rw [heq]
    exact ⟨h.node, by simp⟩
  · rw [heq]
    rcases quiesce_cases s.fill e with ⟨d, hq⟩ | ⟨s₁, hsw, hq⟩
    · rw [hq]
      exact ⟨hf.node, by simp⟩
    · rw [hq]
      refine Rooted.head (hf.alive_loop (hsw.loop ▸ hf.alive) hsw.running fun x hx => ?_) e
      rcases hsw.requeued with ⟨-, -, -, hb⟩ | ⟨-, -, -, -, hb⟩
      · rw [hb]
        exact stays_of_shape (requeued_requeueFailedTasks _).shape hx
      · rw [hb]
        exact stays_of_shape requeued_recoverFailedBlockers.shape hx
  · rw [heq]
    exact hf.head e
  · rw [heq]
    exact ⟨hf.node, by simp⟩

/-- A call that goes on keeps its node, and so do the others. -/
theorem Rooted.resumed (h : Rooted s) (hget : s.running.get? t = some a) (hr : Resumed t a s s') :
    Rooted s' := by
  have hoff : ∀ x a', x ≠ t → s.running.get? x = some a' → a'.owing = true →
      s'.board.statusOf x ≠ none := fun x a' hx hx' ho => hr.spares.stays hx (h.node x a' hx' ho)
  rcases hr.ends with ⟨a', hrun, hl, -, hst⟩ | ⟨ok, hrun, hl, -, hok⟩
  · refine ⟨fun x a'' hx ho => ?_, hl ▸ h.alive⟩
    rw [hrun, JsMap.get?_set] at hx
    split at hx
    · rename_i heq
      obtain rfl := Option.some.inj hx
      subst heq
      rw [if_pos ho] at hst
      rw [hst.2]
      exact h.node t a hget hst.1
    · rename_i hne
      exact hoff x a'' (Ne.symm hne) hx ho
  · cases ok with
    | false => exact absurd (hok rfl).1 (h.node t a hget (hok rfl).2)
    | true =>
        refine ⟨fun x a'' hx ho => ?_, ?_⟩
        · rw [hrun, JsMap.get?_delete] at hx
          split at hx
          · simp at hx
          · rename_i hne
            exact hoff x a'' (Ne.symm hne) hx ho
        · rcases settled_eq true s.loop with ⟨-, hset⟩ | ⟨-, hset⟩
          · rw [hl, hset]
            simp
          · rw [hl, hset]
            exact h.alive

theorem Rooted.step? (h : Rooted s) (hkeep : KeepsNodes s op) (hs : s.step? op = some s') : Rooted s' := by
  rcases step?_cases hs with ⟨-, t, a, -, hget, hone⟩ | ⟨e, -, -, rfl⟩ | ⟨e, -, -, rfl⟩ |
    ⟨e, -, ⟨-, rfl⟩ | ⟨hbroken, -⟩⟩ | ⟨d, -, -, -, rfl⟩ | ⟨hop, hc⟩
  · exact h.resumed hget (resumeOne_resumed hone)
  · have h' : Rooted { s with board := s.board.restoreRetryMap, stopRequested := false } :=
      ⟨h.node, h.alive⟩
    exact h'.head e
  · exact h.turn e
  · exact h.head e
  · exact absurd hbroken h.alive.1
  · have hreq := (requeued_resetInProgress (b := s.board) "run stopped").shape
    refine h.alive_loop ?_ ?_ ?_ <;> unfold finish
    · split <;> simp
    · split <;> rfl
    · split
      · exact fun x hx => stays_of_shape hreq hx
      · exact fun x hx => hx
  · refine ⟨fun t a hget ho => ?_, hc.loop ▸ h.alive⟩
    have hold : s.running.get? t = some a := hc.running ▸ hget
    rcases control_stays hop hs (h.node t a hold ho) with hstay | ⟨rfl, hrun⟩
    · exact hstay
    · rcases hkeep a hold with hfree | hbusy
      · simp [ho] at hfree
      · simp [hrun] at hbusy

theorem Rooted.step (h : Rooted s) (hkeep : KeepsNodes s op) : Rooted (step s op) := by
  rcases step_eq s op with heq | hs
  · rw [heq]
    exact h
  · exact h.step? hkeep hs

theorem rooted_init (config : Config) (board : Board) : Rooted (init config board) :=
  ⟨fun t a h => by simp [init] at h, by simp [init]⟩

/-! ## Whole runs -/

theorem config_step (s : State) (op : Op) : (step s op).config = s.config := by
  rcases step_eq s op with heq | hs
  · rw [heq]
  · rcases step?_cases hs with ⟨-, t, a, -, -, hone⟩ | ⟨e, -, -, heq⟩ | ⟨e, -, -, heq⟩ |
      ⟨e, -, ⟨-, heq⟩ | ⟨-, heq⟩⟩ | ⟨d, -, -, -, heq⟩ | ⟨-, hc⟩
    · exact (kept_fields (resumeOne_resumed hone).kept).1
    · rw [heq, start, (head_fields _ e).1]
    · rw [heq]
      have hf := filled_fill s
      rcases turn_cases s e with ⟨-, heq⟩ | ⟨-, ⟨-, heq⟩ | ⟨-, ⟨-, heq⟩ | heq⟩⟩
      · rw [heq]
      · rw [heq]
        rcases quiesce_cases s.fill e with ⟨d, hq⟩ | ⟨s₁, hsw, hq⟩
        · rw [hq]
          exact hf.config
        · rw [hq, (head_fields s₁ e).1, hsw.config, hf.config]
      · rw [heq, (head_fields s.fill e).1, hf.config]
      · rw [heq]
        exact hf.config
    · rw [heq, (head_fields s e).1]
    · rw [heq]
    · rw [heq, finish]
      split <;> rfl
    · exact hc.config

theorem config_run (s : State) (os : List Op) : (run step s os).config = s.config :=
  run_invariant (I := fun x => x.config = s.config) (fun x op h => (config_step x op).trans h) rfl os

theorem dispatched_step (s : State) (op : Op) :
    ∃ l, (step s op).dispatched = s.dispatched ++ l ∧ ∀ t ∈ l, t ∈ s.ready := by
  have hnone : ∀ s' : State, s'.dispatched = s.dispatched →
      ∃ l, s'.dispatched = s.dispatched ++ l ∧ ∀ t ∈ l, t ∈ s.ready :=
    fun s' h => ⟨[], by rw [h, List.append_nil], by simp⟩
  rcases step_eq s op with heq | hs
  · exact hnone _ (by rw [heq])
  · rcases step?_cases hs with ⟨-, t, a, -, -, hone⟩ | ⟨e, -, -, heq⟩ | ⟨e, -, -, heq⟩ |
      ⟨e, -, ⟨-, heq⟩ | ⟨-, heq⟩⟩ | ⟨d, -, -, -, heq⟩ | ⟨-, hc⟩
    · exact hnone _ (kept_fields (resumeOne_resumed hone).kept).2.1
    · exact hnone _ (by rw [heq, start, (head_fields _ e).2.2.2.1])
    · obtain ⟨l, hl, hmem⟩ := dispatched_fill s
      rw [heq]
      rcases turn_cases s e with ⟨-, heq⟩ | ⟨-, ⟨-, heq⟩ | ⟨-, ⟨-, heq⟩ | heq⟩⟩
      · exact hnone _ (by rw [heq])
      · refine ⟨l, ?_, hmem⟩
        rw [heq]
        rcases quiesce_cases s.fill e with ⟨d, hq⟩ | ⟨s₁, hsw, hq⟩
        · rw [hq]
          exact hl
        · rw [hq, (head_fields s₁ e).2.2.2.1, hsw.dispatched, hl]
      · exact ⟨l, by rw [heq, (head_fields s.fill e).2.2.2.1, hl], hmem⟩
      · exact ⟨l, by rw [heq]; exact hl, hmem⟩
    · exact hnone _ (by rw [heq, (head_fields s e).2.2.2.1])
    · exact hnone _ (by rw [heq])
    · refine hnone _ ?_
      rw [heq, finish]
      split <;> rfl
    · exact hnone _ hc.dispatched

/-- How many steps of the run itself, or answers that it waits for, are among `os`. -/
def systemSteps : State → List Op → Nat
  | _, [] => 0
  | s, op :: os => (if op.system && (s.step? op).isSome then 1 else 0) + systemSteps (step s op) os

theorem systemSteps_le (h : Bounded s) (os : List Op) :
    systemSteps s os + (run step s os).remaining ≤ s.remaining := by
  induction os generalizing s with
  | nil => simp [systemSteps]
  | cons op os ih =>
      have hrest := ih (h.step op)
      simp only [systemSteps, run_cons]
      cases hs : s.step? op with
      | none =>
          have heq : step s op = s := by simp [ParallelRun.step, hs]
          rw [heq] at hrest ⊢
          simpa using hrest
      | some s' =>
          have heq : step s op = s' := by simp [ParallelRun.step, hs]
          have hdrop := remaining_step? h hs
          rw [heq] at hrest ⊢
          cases hop : op.system <;> simp only [hop, Bool.false_eq_true, if_true, if_false] at hdrop <;>
            simp <;> omega

end State

end WrongStack.ParallelRun
