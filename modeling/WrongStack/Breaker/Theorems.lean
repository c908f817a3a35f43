import WrongStack.Lib.Run

/-!
# The circuit breaker of bash and exec

`CircuitBreaker` (`tools/src/circuit-breaker.ts`). The methods that read the clock take `now`, and those that
notify a listener return what they notify it of. `snapshot` changes what `canProceed` changes and is left out.
-/

namespace WrongStack.Breaker

open Lib

structure CircuitBreakerConfig where
  maxConsecutiveFailures : Int := 5
  slowCallThresholdMs : Int := 180000
  maxSlowCalls : Int := 3
  windowMs : Int := 60000
  maxCallsPerWindow : Int := 30
  cooldownMs : Int := 30000

structure CallRecord where
  atMs : Int
  failed : Bool
  slow : Bool

inductive BreakerState
  | closed | «open» | halfOpen
  deriving DecidableEq

inductive Event
  | onTrip | onReset
  /-- `beforeCall` returns true. -/
  | admitted
  deriving DecidableEq

structure CircuitBreaker extends CircuitBreakerConfig where
  state : BreakerState := .closed
  consecutiveFailures : Nat := 0
  window : List CallRecord := []
  lastFailureAt : Option Int := none
  lastSlowAt : Option Int := none
  openedAt : Option Int := none
  enabled : Bool := true

namespace CircuitBreaker

variable (b : CircuitBreaker) (now : Int)

def trip : CircuitBreaker × List Event :=
  if b.state = .open then (b, [])
  else ({ b with state := .open, openedAt := some now, window := [] }, [.onTrip])

def reset : CircuitBreaker × List Event :=
  ({ b with state := .closed, consecutiveFailures := 0, window := [], openedAt := none },
    if b.state = .closed then [] else [.onReset])

/-- From open to half-open when the cooldown has elapsed. -/
def checkStateTransition : CircuitBreaker :=
  match b.state, b.openedAt with
  | .open, some openedAt =>
      if b.cooldownMs ≤ now - openedAt then { b with state := .halfOpen, openedAt := none } else b
  | _, _ => b

def pruneWindow : CircuitBreaker := { b with window := b.window.filter fun c => now - b.windowMs ≤ c.atMs }

def setEnabled (enabled : Bool) : CircuitBreaker × List Event :=
  if b.enabled = enabled then (b, [])
  else
    let b := { b with enabled }
    if enabled then (b, []) else b.reset

def canProceed : Bool × CircuitBreaker :=
  if !b.enabled then (true, b)
  else
    let b := b.checkStateTransition now
    (b.state != .open, b)

def beforeCall (bypass : Bool) : Bool × CircuitBreaker :=
  if bypass || !b.enabled then (true, b)
  else
    let b := b.checkStateTransition now
    (b.state != .open, b)

/-- A trip after others in the same call. -/
def tripIf (condition : Bool) (r : CircuitBreaker × List Event) : CircuitBreaker × List Event :=
  if condition then ((r.1.trip now).1, r.2 ++ (r.1.trip now).2) else r

def isSlow (durationMs : Int) : Bool := decide (b.slowCallThresholdMs ≤ durationMs)

/-- Old records are pruned, and the call gets its own. -/
def record (call : CallRecord) : CircuitBreaker :=
  { b.pruneWindow now with window := (b.pruneWindow now).window ++ [call] }

def afterFailure : CircuitBreaker × List Event :=
  let b := { b with consecutiveFailures := b.consecutiveFailures + 1, lastFailureAt := some now }
  tripIf now (decide (b.maxConsecutiveFailures ≤ b.consecutiveFailures)) (b, [])

def afterSuccess (slow : Bool) : CircuitBreaker × List Event :=
  let b := { b with consecutiveFailures := 0, lastSlowAt := if slow then some now else b.lastSlowAt }
  let r := tripIf now (slow && decide (b.maxSlowCalls ≤ (b.window.filter CallRecord.slow).length)) (b, [])
  tripIf now (decide (b.maxCallsPerWindow ≤ r.1.window.length)) r

def afterCall (durationMs : Int) (failed bypass : Bool) : CircuitBreaker × List Event :=
  if bypass || !b.enabled then (b, [])
  else if b.state = .halfOpen then if failed then b.trip now else b.reset
  else if failed then (b.record now ⟨now, true, b.isSlow durationMs⟩).afterFailure now
  else (b.record now ⟨now, false, b.isSlow durationMs⟩).afterSuccess now (b.isSlow durationMs)

def forceOpen : CircuitBreaker × List Event := b.trip now

def forceReset : CircuitBreaker × List Event := b.reset

end CircuitBreaker

/-! ## Runs of an enabled breaker -/

structure World where
  breaker : CircuitBreaker
  now : Int
  /-- The calls in flight, each with the number of trips before it was admitted. -/
  inFlight : List Nat := []
  log : List Event := []

def init (config : CircuitBreakerConfig) (now : Int) : World :=
  { breaker := { toCircuitBreakerConfig := config }, now }

inductive Op
  | beforeCall
  /-- A call in flight ends. -/
  | afterCall (i : Nat) (durationMs : Int) (failed : Bool)
  | canProceed
  | forceOpen
  | forceReset
  | advance (ms : Nat)

namespace World

variable (w : World)

def trips : Nat := w.log.count .onTrip

def becomes (r : CircuitBreaker × List Event) : World := { w with breaker := r.1, log := w.log ++ r.2 }

def step : Op → World
  | .beforeCall =>
      let (ok, breaker) := w.breaker.beforeCall w.now false
      if ok then { w with breaker, inFlight := w.inFlight ++ [w.trips], log := w.log ++ [.admitted] }
      else { w with breaker }
  | .afterCall i durationMs failed =>
      if i < w.inFlight.length then
        { w with inFlight := w.inFlight.eraseIdx i }.becomes (w.breaker.afterCall w.now durationMs failed false)
      else w
  | .canProceed => { w with breaker := (w.breaker.canProceed w.now).2 }
  | .forceOpen => w.becomes (w.breaker.forceOpen w.now)
  | .forceReset => w.becomes w.breaker.forceReset
  | .advance ms => { w with now := w.now + ms }

end World

end WrongStack.Breaker

/-!
# The half-open breaker

After a trip the breaker lets one call through as long as its callers hold back while that call is out. A
call is judged by its own result as long as no older one ends while the breaker is half-open.
-/

namespace WrongStack.Breaker

open Lib CircuitBreaker

variable {b : CircuitBreaker} {now durationMs : Int} {failed bypass condition : Bool} {s s' : BreakerState}
  {es log : List Event} {r : CircuitBreaker × List Event} {w : World} {i : Nat}

/-! ## Turns of the state -/

/-- What a method makes of the state, and what it notifies of. -/
inductive Turns (s : BreakerState) : BreakerState → List Event → Prop
  | stays : Turns s s []
  | trips (hs : s ≠ .open) : Turns s .open [.onTrip]
  | resets (hs : s ≠ .closed) : Turns s .closed [.onReset]

theorem turns_trip (b : CircuitBreaker) (now : Int) : Turns b.state (b.trip now).1.state (b.trip now).2 := by
  unfold trip
  split
  · exact .stays
  · rename_i hs
    exact .trips hs

theorem turns_reset (b : CircuitBreaker) : Turns b.state b.reset.1.state b.reset.2 := by
  unfold reset
  cases hs : b.state with
  | closed => exact .stays
  | «open» | halfOpen => exact .resets (by simp)

/-- A second trip in the same call changes nothing. -/
theorem turns_tripIf (h : r.1.state = s ∧ r.2 = [] ∨ s ≠ .open ∧ r.1.state = .open ∧ r.2 = [.onTrip]) :
    (tripIf now condition r).1.state = s ∧ (tripIf now condition r).2 = [] ∨
      s ≠ .open ∧ (tripIf now condition r).1.state = .open ∧ (tripIf now condition r).2 = [.onTrip] := by
  unfold tripIf
  split
  · rcases h with ⟨hs, hes⟩ | ⟨hs, hopen, hes⟩
    · by_cases hopen : s = .open
      · simp [trip, hs, hes, hopen]
      · simp [trip, hs, hes, hopen]
    · simp [trip, hs, hes, hopen]
  · exact h

theorem turns_afterCall (b : CircuitBreaker) (now durationMs : Int) (failed bypass : Bool) :
    Turns b.state (b.afterCall now durationMs failed bypass).1.state
      (b.afterCall now durationMs failed bypass).2 := by
  unfold afterCall
  split
  · exact .stays
  · split
    · split
      · exact turns_trip b now
      · exact turns_reset b
    · have hturns : ∀ {r : CircuitBreaker × List Event}, r.1.state = b.state ∧ r.2 = [] ∨
          b.state ≠ .open ∧ r.1.state = .open ∧ r.2 = [.onTrip] → Turns b.state r.1.state r.2 := by
        rintro r (⟨hs, hes⟩ | ⟨hopen, hs, hes⟩)
        · rw [hs, hes]
          exact .stays
        · rw [hs, hes]
          exact .trips hopen
      split
      · exact hturns (turns_tripIf (.inl ⟨rfl, rfl⟩))
      · exact hturns (turns_tripIf (turns_tripIf (.inl ⟨rfl, rfl⟩)))

theorem trip_enabled : (b.trip now).1.enabled = b.enabled := by
  unfold trip
  split <;> rfl

theorem tripIf_enabled : (tripIf now condition r).1.enabled = r.1.enabled := by
  unfold tripIf
  split
  · exact trip_enabled
  · rfl

theorem afterCall_enabled : (b.afterCall now durationMs failed bypass).1.enabled = b.enabled := by
  unfold afterCall
  split
  · rfl
  · split
    · split
      · exact trip_enabled
      · rfl
    · split
      · exact tripIf_enabled
      · exact tripIf_enabled.trans tripIf_enabled

theorem checkStateTransition_cases (b : CircuitBreaker) (now : Int) :
    (b.checkStateTransition now).enabled = b.enabled ∧
      ((b.checkStateTransition now).state = b.state ∨
        b.state = .open ∧ (b.checkStateTransition now).state = .halfOpen) := by
  unfold checkStateTransition
  split
  · rename_i hs _
    split
    · exact ⟨rfl, .inr ⟨hs, rfl⟩⟩
    · exact ⟨rfl, .inl rfl⟩
  · exact ⟨rfl, .inl rfl⟩

/-! ## Probes -/

/-- The calls that have been let through since the latest trip, unless the breaker has been reset since. -/
def probes (log : List Event) : Option Nat :=
  log.foldl (fun n e =>
    match e with
    | .onTrip => some 0
    | .onReset => none
    | .admitted => n.map (· + 1)) none

theorem probes_append (log es : List Event) : probes (log ++ es) = es.foldl (fun n e =>
    match e with
    | .onTrip => some 0
    | .onReset => none
    | .admitted => n.map (· + 1)) (probes log) := List.foldl_append

theorem probes_between (before between : List Event) (htrip : .onTrip ∉ between) (hreset : .onReset ∉ between) :
    probes (before ++ .onTrip :: between) = some (between.count .admitted) := by
  induction between using List.reverseRecOn with
  | nil => simp [probes]
  | append_singleton between e ih =>
      simp only [List.mem_append, List.mem_singleton, not_or] at htrip hreset
      rw [← List.cons_append, ← List.append_assoc, probes_append, ih htrip.1 hreset.1]
      cases e with
      | onTrip => exact absurd rfl htrip.2
      | onReset => exact absurd rfl hreset.2
      | admitted => simp

/-- Between two trips without a reset, at most one call is let through. -/
def OneProbe (log : List Event) : Prop :=
  ∀ before between after, log = before ++ .onTrip :: between ++ .onTrip :: after → .onTrip ∉ between →
    .onReset ∉ between → between.count .admitted ≤ 1

/-- The state of the breaker is what its log says. -/
structure Consistent (w : World) : Prop where
  enabled : w.breaker.enabled = true
  closed : w.breaker.state = .closed ↔ probes w.log = none
  opened : w.breaker.state = .open → probes w.log = some 0
  one : ∀ log, log <+: w.log → ∀ n, probes log = some n → n ≤ 1

theorem consistent_init (config : CircuitBreakerConfig) (now : Int) : Consistent (init config now) := by
  refine ⟨rfl, by simp [init, probes], by simp [init], fun log hlog n hn => ?_⟩
  obtain rfl := List.prefix_nil.mp hlog
  cases hn

theorem Consistent.oneProbe (h : Consistent w) : OneProbe w.log := by
  intro before between after hlog htrip hreset
  refine h.one (before ++ .onTrip :: between) ?_ _ (probes_between before between htrip hreset)
  rw [hlog]
  exact List.prefix_append _ _

theorem Consistent.append (h : Consistent w) {e : Event} (hone : ∀ n, probes (w.log ++ [e]) = some n → n ≤ 1) :
    ∀ log, log <+: w.log ++ [e] → ∀ n, probes log = some n → n ≤ 1 := by
  intro log hlog n hn
  rcases List.prefix_concat_iff.mp hlog with rfl | hlog
  · exact hone n hn
  · exact h.one log hlog n hn

theorem Consistent.becomes (h : Consistent w) (inFlight : List Nat) (henabled : r.1.enabled = w.breaker.enabled)
    (hturns : Turns w.breaker.state r.1.state r.2) : Consistent ({ w with inFlight }.becomes r) := by
  unfold World.becomes
  generalize hs : r.1.state = s', r.2 = es at hturns
  cases hturns with
  | stays =>
      refine ⟨henabled.trans h.enabled, ?_, ?_, ?_⟩
      · simpa only [List.append_nil, hs] using h.closed
      · simpa only [List.append_nil, hs] using h.opened
      · simpa only [List.append_nil] using h.one
  | trips =>
      have hprobes : probes (w.log ++ [.onTrip]) = some 0 := by rw [probes_append]; rfl
      refine ⟨henabled.trans h.enabled, ?_, fun _ => hprobes, h.append fun n hn => ?_⟩
      · simp [hs, hprobes]
      · rw [hprobes] at hn
        cases hn
        exact Nat.zero_le 1
  | resets =>
      have hprobes : probes (w.log ++ [.onReset]) = none := by rw [probes_append]; rfl
      refine ⟨henabled.trans h.enabled, ?_, ?_, h.append fun n hn => ?_⟩
      · simp [hs, hprobes]
      · simp [hs]
      · rw [hprobes] at hn
        cases hn

theorem Consistent.checks (h : Consistent w) :
    Consistent { w with breaker := w.breaker.checkStateTransition w.now } := by
  obtain ⟨henabled, hs | ⟨hopen, hs⟩⟩ := checkStateTransition_cases w.breaker w.now
  · exact ⟨henabled.trans h.enabled, by simpa only [hs] using h.closed, by simpa only [hs] using h.opened, h.one⟩
  · refine ⟨henabled.trans h.enabled, ?_, by simp [hs], h.one⟩
    simp [hs, h.opened hopen]

/-! ## Conditions on the calls -/

/-- The call would make a closed breaker trip. -/
def Exceeds (b : CircuitBreaker) (now durationMs : Int) (failed : Bool) : Prop :=
  if failed then b.maxConsecutiveFailures ≤ b.consecutiveFailures + 1
  else
    b.slowCallThresholdMs ≤ durationMs ∧
        b.maxSlowCalls ≤ ((b.pruneWindow now).window.filter CallRecord.slow).length + 1 ∨
      b.maxCallsPerWindow ≤ (b.pruneWindow now).window.length + 1

/-- No call is begun while one that has been let through since the trip is not decided, and a call that was
admitted before the latest trip does not end while the breaker is half-open, nor as the one too many for a
closed breaker. -/
def HoldsBack (w : World) : Op → Prop
  | .beforeCall => probes w.log = none ∨ probes w.log = some 0
  | .afterCall i durationMs failed => ∀ k, w.inFlight[i]? = some k → k < w.trips →
      w.breaker.state = .open ∨ w.breaker.state = .closed ∧ ¬ Exceeds w.breaker w.now durationMs failed
  | _ => True

theorem state_trip_open (hs : b.state = .open) : (b.trip now).1.state = .open := by
  unfold trip
  rw [if_pos hs]
  exact hs

theorem state_tripIf_open (hs : r.1.state = .open) : (tripIf now condition r).1.state = .open := by
  unfold tripIf
  split
  · exact state_trip_open hs
  · exact hs

theorem afterCall_open (hs : b.state = .open) :
    (b.afterCall now durationMs failed bypass).1.state = .open := by
  unfold afterCall
  split
  · exact hs
  · rw [if_neg (by simp [hs])]
    split
    · exact state_tripIf_open hs
    · exact state_tripIf_open (state_tripIf_open hs)

theorem tripIf_false (h : condition = false) : tripIf now condition r = r := by
  unfold tripIf
  rw [h]
  rfl

theorem afterSuccess_state (slow : Bool)
    (hslow : slow = true → ¬ b.maxSlowCalls ≤ (b.window.filter CallRecord.slow).length)
    (hcalls : ¬ b.maxCallsPerWindow ≤ b.window.length) : (b.afterSuccess now slow).1.state = b.state := by
  have hfew : (slow && decide (b.maxSlowCalls ≤ (b.window.filter CallRecord.slow).length)) = false := by
    cases slow with
    | false => rfl
    | true => exact decide_eq_false (hslow rfl)
  unfold afterSuccess
  simp only [tripIf_false hfew, tripIf_false (decide_eq_false hcalls)]

theorem afterCall_closed (hs : b.state = .closed) (h : ¬ Exceeds b now durationMs failed) :
    (b.afterCall now durationMs failed bypass).1.state = .closed := by
  unfold afterCall
  split
  · exact hs
  · rw [if_neg (by simp [hs])]
    unfold Exceeds at h
    cases failed with
    | true =>
        have hfew : ¬ b.maxConsecutiveFailures ≤ (b.consecutiveFailures + 1 : Nat) := h
        simp only [if_true]
        unfold afterFailure
        simp only [record, pruneWindow, tripIf_false (decide_eq_false hfew), hs]
    | false =>
        simp only [Bool.false_eq_true, if_false, not_or, not_and] at h ⊢
        refine (afterSuccess_state _ (fun hd => ?_) ?_).trans hs
        · simpa [record, pruneWindow, hd] using h.1 (by simpa [isSlow] using hd)
        · simpa [record, pruneWindow] using h.2

/-! ## Runs -/

theorem Consistent.step (op : Op) (h : Consistent w) (hc : HoldsBack w op) : Consistent (w.step op) := by
  cases op with
  | beforeCall =>
      have hchecked := h.checks
      have hbefore : w.breaker.beforeCall w.now false =
          ((w.breaker.checkStateTransition w.now).state != .open, w.breaker.checkStateTransition w.now) := by
        simp [beforeCall, h.enabled]
      unfold World.step
      rw [hbefore]
      generalize w.breaker.checkStateTransition w.now = breaker at hchecked
      simp only
      split
      · rename_i hok
        have hprobes : probes (w.log ++ [.admitted]) = (probes w.log).map (· + 1) := by rw [probes_append]; rfl
        refine ⟨hchecked.enabled, ?_, fun hopen => ?_, h.append fun n hn => ?_⟩
        · simpa [hprobes] using hchecked.closed
        · exact absurd hopen (by simpa using hok)
        · rw [hprobes] at hn
          rcases hc with hc | hc <;> simp_all
      · exact hchecked
  | afterCall i durationMs failed =>
      unfold World.step
      simp only
      split
      · exact h.becomes _ afterCall_enabled (turns_afterCall ..)
      · exact h
  | canProceed =>
      have hcan : w.breaker.canProceed w.now =
          ((w.breaker.checkStateTransition w.now).state != .open, w.breaker.checkStateTransition w.now) := by
        simp [canProceed, h.enabled]
      unfold World.step
      rw [hcan]
      exact h.checks
  | forceOpen => exact h.becomes _ trip_enabled (turns_trip ..)
  | forceReset => exact h.becomes _ rfl (turns_reset _)
  | advance ms => exact ⟨h.enabled, h.closed, h.opened, h.one⟩

/-- A run of an enabled breaker: one probe between two trips, and no result of a call from before the latest
trip changes the state. -/
structure ProbeJudged (w : World) (ops : List Op) : Prop where
  one : OneProbe (run World.step w ops).log
  own : ∀ pre i durationMs failed, pre ++ [.afterCall i durationMs failed] <+: ops →
    ∀ k, (run World.step w pre).inFlight[i]? = some k → k < (run World.step w pre).trips →
      (run World.step w (pre ++ [.afterCall i durationMs failed])).breaker.state =
        (run World.step w pre).breaker.state

theorem state_afterCall (hc : HoldsBack w (.afterCall i durationMs failed)) {k : Nat}
    (hk : w.inFlight[i]? = some k) (hlt : k < w.trips) :
    (w.step (.afterCall i durationMs failed)).breaker.state = w.breaker.state := by
  have hi : i < w.inFlight.length := (List.getElem?_eq_some_iff.mp hk).1
  unfold World.step
  simp only [if_pos hi, World.becomes]
  rcases hc k hk hlt with hs | ⟨hs, hfew⟩
  · rw [hs, afterCall_open hs]
  · rw [hs, afterCall_closed hs hfew]

/-- As long as the callers hold back. -/
theorem probe_judged (config : CircuitBreakerConfig) (now : Int) (ops : List Op)
    (h : Under World.step HoldsBack (init config now) ops) : ProbeJudged (init config now) ops := by
  refine ⟨?_, fun pre i durationMs failed hpre k hk hlt => ?_⟩
  · exact (run_invariant_under (fun w op hw hc => Consistent.step op hw hc) (consistent_init config now) h).oneProbe
  · rw [run_concat]
    exact state_afterCall (under_iff_forall_concat.mp h pre _ hpre) hk hlt

/-- One call is let through after the cooldown, and fails. -/
def probed : List Op := [.forceOpen, .advance 30000, .beforeCall, .afterCall 0 10 true]

theorem probe_judged_probed : ProbeJudged (init {} 0) probed := by
  refine probe_judged {} 0 probed ⟨trivial, trivial, .inr rfl, fun k hk hlt => ?_, trivial⟩
  cases hk
  exact absurd hlt (by decide +kernel)

/-- Two calls are let through while the breaker is half-open. -/
theorem two_probes : ¬ ProbeJudged (init {} 0)
    [.forceOpen, .advance 30000, .beforeCall, .beforeCall, .afterCall 0 10 true] := by
  intro h
  have hone := h.one [] [.admitted, .admitted] [] (by decide +kernel) (by decide) (by decide)
  exact absurd hone (by decide)

end WrongStack.Breaker
