import Mathlib.Data.Rat.Defs
import Mathlib.Algebra.Order.Ring.Rat
import WrongStack.Lib.Run

/-!
# Spawning subagents

`Director.spawn` (`core/src/coordination/director.ts`) with and without a `FleetManager`
(`core/src/coordination/fleet-manager.ts`), as far as it accepts and counts calls. A call runs up to
`await this.coordinator.spawn(config)`, is suspended there for any time, and then runs to its end. A limit on
spawns or on the depth is a natural number or `Infinity`.
-/

namespace WrongStack.Spawning

open Lib

/-! ## Limits -/

structure Limits where
  /-- `none` is `Infinity`, here and below. -/
  maxSpawns : Option Nat := none
  maxSpawnDepth : Option Nat := some 2
  spawnDepth : Nat := 0
  maxFleetCostUsd : Option ℚ := none
  maxLeaderContextLoad : ℚ := 85 / 100
  /-- The product of two numbers, rounded as floating point does it. -/
  times : ℚ → ℚ → ℚ := (· * ·)

inductive RejectionKind
  | maxSpawns | maxSpawnDepth | maxCostUsd | maxContextLoad
  deriving DecidableEq

structure Rejection where
  kind : RejectionKind
  limit : Option ℚ
  observed : ℚ
  deriving DecidableEq

inductive SpawnError
  | budget (rejection : Rejection) (message : Option String)
  | costCap (rejection : Rejection)
  | contextOverflow (rejection : Rejection)
  deriving DecidableEq

/-- `count >= limit` -/
def reached (count : Nat) (limit : Option Nat) : Bool := limit.any (· ≤ count)

/-- `resolveMaxContext`, for what the option or the resolver gives at the moment. -/
def resolveMaxContext (resolved : Option ℚ) : ℚ :=
  match resolved with
  | some n => if 0 < n then n else 128000
  | none => 128000

/-! ## The two owners of a counter -/

structure FleetManager where
  limits : Limits
  spawnCount : Nat := 0
  leaderContextPressure : ℚ := 0

structure Director where
  limits : Limits
  fleetManager : Option FleetManager := none
  spawnCount : Nat := 0
  leaderContextPressure : ℚ := 0
  workCompleteFlag : Bool := false

def FleetManager.canSpawn (fm : FleetManager) (totalCost : ℚ) (maxContext : Option ℚ) : Option Rejection :=
  if reached fm.limits.spawnDepth fm.limits.maxSpawnDepth then
    some ⟨.maxSpawnDepth, fm.limits.maxSpawnDepth.map Nat.cast, fm.limits.spawnDepth⟩
  else if reached fm.spawnCount fm.limits.maxSpawns then
    some ⟨.maxSpawns, fm.limits.maxSpawns.map Nat.cast, fm.spawnCount + 1⟩
  else if fm.limits.maxFleetCostUsd.any (· ≤ totalCost) then
    some ⟨.maxCostUsd, fm.limits.maxFleetCostUsd, totalCost⟩
  else if fm.limits.maxLeaderContextLoad < 1 then
    let threshold := fm.limits.times (resolveMaxContext maxContext) fm.limits.maxLeaderContextLoad
    if threshold ≤ fm.leaderContextPressure then
      some ⟨.maxContextLoad, some threshold, fm.leaderContextPressure⟩
    else none
  else none

namespace Director

variable (d : Director)

def rejectionError (rejection : Rejection) : SpawnError :=
  match rejection.kind with
  | .maxSpawnDepth => .budget rejection none
  | .maxSpawns => .budget rejection none
  | .maxCostUsd => .costCap rejection
  | .maxContextLoad => .contextOverflow rejection

/-- The checks of a director without a fleet manager. -/
def inlineChecks (totalCost : ℚ) (maxContext : Option ℚ) : Option SpawnError :=
  if reached d.limits.spawnDepth d.limits.maxSpawnDepth then
    some (.budget ⟨.maxSpawnDepth, d.limits.maxSpawnDepth.map Nat.cast, d.limits.spawnDepth⟩ none)
  else if reached d.spawnCount d.limits.maxSpawns then
    some (.budget ⟨.maxSpawns, d.limits.maxSpawns.map Nat.cast, d.spawnCount + 1⟩ none)
  else if d.limits.maxFleetCostUsd.any (· ≤ totalCost) then
    some (.costCap ⟨.maxCostUsd, d.limits.maxFleetCostUsd, totalCost⟩)
  else if d.limits.maxLeaderContextLoad < 1 then
    let threshold := d.limits.times (resolveMaxContext maxContext) d.limits.maxLeaderContextLoad
    if threshold ≤ d.leaderContextPressure then
      some (.contextOverflow ⟨.maxContextLoad, some threshold, d.leaderContextPressure⟩)
    else none
  else none

/-- What `spawn` throws before it awaits anything. -/
def refusal (totalCost : ℚ) (maxContext : Option ℚ) : Option SpawnError :=
  if d.workCompleteFlag then
    some (.budget ⟨.maxSpawns, d.limits.maxSpawns.map Nat.cast, d.spawnCount + 1⟩
      (some "workComplete() has been called — director closed further spawning"))
  else
    match d.fleetManager with
    | some fm => (fm.canSpawn totalCost maxContext).map rejectionError
    | none => d.inlineChecks totalCost maxContext

/-- What `spawn` counts once `coordinator.spawn` has returned. -/
def recordSpawn : Director :=
  match d.fleetManager with
  | some fm => { d with fleetManager := some { fm with spawnCount := fm.spawnCount + 1 } }
  | none => { d with spawnCount := d.spawnCount + 1 }

def setLeaderContextPressure (tokens : ℚ) : Director :=
  { d with
    leaderContextPressure := tokens
    fleetManager := d.fleetManager.map fun fm => { fm with leaderContextPressure := tokens } }

def workComplete : Director := { d with workCompleteFlag := true }

/-- The counter that the limit is compared with. -/
def counter : Nat :=
  match d.fleetManager with
  | some fm => fm.spawnCount
  | none => d.spawnCount

end Director

/-! ## Runs -/

inductive Event
  | refused (call : Nat) (err : SpawnError)
  | failed (call : Nat)
  | returned (call : Nat)
  | workComplete
  deriving DecidableEq

structure State where
  director : Director
  /-- `usage.snapshot().total?.cost ?? 0` -/
  totalCost : ℚ := 0
  /-- What the option `maxContext` gives at the moment. -/
  maxContext : Option ℚ := some 128000
  /-- The calls that are suspended in `coordinator.spawn`. -/
  suspended : List Nat := []
  log : List Event := []

inductive Op
  /-- `spawn` is called -/
  | spawn (call : Nat)
  /-- `coordinator.spawn` returns or throws in that call -/
  | settle (call : Nat) (ok : Bool)
  | workComplete
  | spend (totalCost : ℚ)
  | pressure (tokens : ℚ)
  | context (resolved : Option ℚ)

def step (s : State) : Op → State
  | .spawn call =>
      match s.director.refusal s.totalCost s.maxContext with
      | some err => { s with log := s.log ++ [.refused call err] }
      | none => { s with suspended := s.suspended ++ [call] }
  | .settle call ok =>
      if call ∉ s.suspended then s
      else
        let s := { s with suspended := s.suspended.erase call }
        if ok then { s with director := s.director.recordSpawn, log := s.log ++ [.returned call] }
        else { s with log := s.log ++ [.failed call] }
  | .workComplete => { s with director := s.director.workComplete, log := s.log ++ [.workComplete] }
  | .spend totalCost => { s with totalCost }
  | .pressure tokens => { s with director := s.director.setLeaderContextPressure tokens }
  | .context resolved => { s with maxContext := resolved }

/-- A director, with a fleet manager that has the same limits if it is `managed`. -/
def init (limits : Limits) (managed : Bool) : State where
  director := { limits, fleetManager := if managed then some { limits } else none }

end WrongStack.Spawning

/-!
# Spawn limits over whole runs

What bounds the number of spawn calls that return, and why a fleet manager changes nothing about which calls
are accepted.
-/

namespace WrongStack.Spawning

open Lib

variable {s t : State} {o : Op} {limits : Limits}

/-! ## What the log says -/

def Event.isReturned : Event → Bool
  | .returned _ => true
  | _ => false

/-- How many spawn calls have returned a subagent id. -/
def returns (log : List Event) : Nat := log.countP Event.isReturned

theorem returns_append (log : List Event) (e : Event) :
    returns (log ++ [e]) = returns log + if e.isReturned then 1 else 0 := by
  simp [returns, List.countP_append, List.countP_cons]

theorem returns_append_other (log : List Event) (e : Event) (he : e.isReturned = false) :
    returns (log ++ [e]) = returns log := by
  simp [returns_append, he]

/-- No more calls have returned than `maxSpawns` and none after `workComplete`, and only calls that returned
are counted. -/
structure Lawful (s : State) : Prop where
  bounded : ∀ n, s.director.limits.maxSpawns = some n → returns s.log ≤ n
  closed : ∀ pre post, s.log = pre ++ .workComplete :: post → ∀ call, .returned call ∉ post
  counted : s.director.counter = returns s.log

/-- There is room for the call beside the suspended ones, and when the director closes no call is suspended. -/
def SpareRoom (s : State) : Op → Prop
  | .spawn _ => ∀ n ∈ s.director.limits.maxSpawns, s.director.counter < n →
      s.director.counter + s.suspended.length < n
  | .workComplete => s.suspended = []
  | _ => True

instance (s : State) (o : Op) : Decidable (SpareRoom s o) := by
  cases o <;> unfold SpareRoom <;> infer_instance

/-! ## One step -/

/-- The limits are those the director was made with, and its fleet manager has the same. -/
structure Equipped (limits : Limits) (d : Director) : Prop where
  own : d.limits = limits
  managed : ∀ fm, d.fleetManager = some fm → fm.limits = limits

theorem Equipped.recordSpawn {d : Director} (h : Equipped limits d) : Equipped limits d.recordSpawn := by
  unfold Director.recordSpawn
  cases hfm : d.fleetManager with
  | none => exact ⟨h.own, fun fm hfm' => by simp at hfm'⟩
  | some fm =>
      refine ⟨h.own, fun fm' hfm' => ?_⟩
      cases hfm'
      exact h.managed fm hfm

theorem counter_recordSpawn (d : Director) : d.recordSpawn.counter = d.counter + 1 := by
  unfold Director.counter Director.recordSpawn
  cases hfm : d.fleetManager with
  | none => simp
  | some fm => simp

theorem Equipped.step (h : Equipped limits s.director) (o : Op) : Equipped limits (step s o).director := by
  cases o with
  | spawn call =>
      unfold Spawning.step
      cases s.director.refusal s.totalCost s.maxContext <;> exact h
  | settle call ok =>
      simp only [Spawning.step]
      split
      · exact h
      · split
        · exact h.recordSpawn
        · exact h
  | workComplete => exact ⟨h.own, h.managed⟩
  | spend totalCost => exact h
  | pressure tokens =>
      refine ⟨h.own, fun fm hfm => ?_⟩
      obtain ⟨fm', hfm', rfl⟩ := Option.map_eq_some_iff.mp hfm
      exact h.managed fm' hfm'
  | context resolved => exact h

/-- A call that is not refused has found the counter below the limit and the director open. -/
theorem accepted (h : Equipped limits s.director) (hok : s.director.refusal s.totalCost s.maxContext = none) :
    s.director.workCompleteFlag = false ∧ ∀ n, limits.maxSpawns = some n → s.director.counter < n := by
  have hroom : ∀ (count : Nat), reached count limits.maxSpawns = false → ∀ n, limits.maxSpawns = some n →
      count < n := by
    intro count hcount n hn
    rw [hn] at hcount
    simpa [reached] using hcount
  unfold Director.refusal at hok
  cases hflag : s.director.workCompleteFlag with
  | true =>
      rw [hflag] at hok
      cases hok
  | false =>
      refine ⟨rfl, ?_⟩
      simp only [hflag, Bool.false_eq_true, ↓reduceIte] at hok
      unfold Director.counter
      cases hfm : s.director.fleetManager with
      | some fm =>
          simp only [hfm, Option.map_eq_none_iff] at hok
          simp only
          refine hroom _ ?_
          rw [← h.managed fm hfm]
          by_contra hreached
          rw [Bool.not_eq_false] at hreached
          unfold FleetManager.canSpawn at hok
          rw [hreached] at hok
          split at hok <;> cases hok
      | none =>
          simp only [hfm] at hok
          simp only
          refine hroom _ ?_
          rw [← h.own]
          by_contra hreached
          rw [Bool.not_eq_false] at hreached
          unfold Director.inlineChecks at hok
          rw [hreached] at hok
          split at hok <;> cases hok

/-- What holds at every point of a run in which there was room for every call. -/
structure Inv (limits : Limits) (s : State) : Prop where
  equipped : Equipped limits s.director
  counted : s.director.counter = returns s.log
  room : ∀ n, limits.maxSpawns = some n → s.director.counter + s.suspended.length ≤ n
  closed : s.director.workCompleteFlag = true → s.suspended = []
  flagged : .workComplete ∈ s.log → s.director.workCompleteFlag = true
  last : ∀ pre post, s.log = pre ++ .workComplete :: post → ∀ call, .returned call ∉ post

/-- The new event is no return, or there is no end of work before it. -/
theorem last_append {log : List Event} {e : Event}
    (h : ∀ pre post, log = pre ++ .workComplete :: post → ∀ call, .returned call ∉ post)
    (he : e.isReturned = false ∨ .workComplete ∉ log) :
    ∀ pre post, log ++ [e] = pre ++ .workComplete :: post → ∀ call, .returned call ∉ post := by
  intro pre post heq call hcall
  rcases List.eq_nil_or_concat post with rfl | ⟨post, x, rfl⟩
  · cases hcall
  · have hsplit : log ++ [e] = (pre ++ .workComplete :: post) ++ [x] := by rw [heq]; simp
    obtain ⟨hlog, hx⟩ := List.append_inj' hsplit rfl
    cases hx
    rw [List.concat_eq_append] at hcall
    rcases List.mem_append.mp hcall with hold | hnew
    · exact h pre post hlog call hold
    · rw [List.mem_singleton] at hnew
      rcases he with hno | hno
      · rw [← hnew] at hno
        cases hno
      · exact hno (hlog ▸ List.mem_append_right _ List.mem_cons_self)

theorem Inv.step (h : Inv limits s) (hroom : SpareRoom s o) : Inv limits (step s o) := by
  have hequipped := h.equipped.step o
  cases o with
  | spawn call =>
      unfold Spawning.step at hequipped ⊢
      cases hrefusal : s.director.refusal s.totalCost s.maxContext with
      | some err =>
          refine ⟨h.equipped, ?_, h.room, h.closed, fun hmem => h.flagged ?_, last_append h.last (.inl rfl)⟩
          · exact h.counted.trans (returns_append_other s.log (.refused call err) rfl).symm
          · simpa using hmem
      | none =>
          obtain ⟨hopen, hbelow⟩ := accepted h.equipped hrefusal
          refine ⟨h.equipped, h.counted, fun n hn => ?_, fun hflag => ?_, h.flagged, h.last⟩
          · have hlt := hroom n (by rw [h.equipped.own, hn]; rfl) (hbelow n hn)
            simp only [List.length_append, List.length_singleton]
            omega
          · exact absurd (hopen.symm.trans hflag) Bool.false_ne_true
  | settle call ok =>
      simp only [Spawning.step] at hequipped ⊢
      split
      · exact h
      · rename_i hmem
        rw [not_not] at hmem
        have hlen : (s.suspended.erase call).length + 1 = s.suspended.length := by
          rw [List.length_erase_of_mem hmem]
          have := List.length_pos_of_mem hmem
          omega
        have hopen : s.director.workCompleteFlag = false := by
          by_contra hflag
          rw [h.closed (by simpa using hflag)] at hmem
          cases hmem
        have hno : .workComplete ∉ s.log := fun hlog => by
          rw [h.flagged hlog] at hopen
          cases hopen
        have hflagged : s.director.recordSpawn.workCompleteFlag = s.director.workCompleteFlag := by
          unfold Director.recordSpawn
          cases s.director.fleetManager <;> rfl
        cases ok with
        | true =>
            simp only [↓reduceIte]
            refine ⟨h.equipped.recordSpawn, ?_, fun n hn => ?_, fun hflag => ?_, fun hlog => ?_,
              last_append h.last (.inr hno)⟩
            · change s.director.recordSpawn.counter = returns (s.log ++ [.returned call])
              rw [counter_recordSpawn, returns_append, h.counted]
              rfl
            · have hle := h.room n hn
              rw [counter_recordSpawn]
              simp only
              omega
            · rw [hflagged, hopen] at hflag
              cases hflag
            · exact absurd (by simpa using hlog) hno
        | false =>
            simp only [Bool.false_eq_true, ↓reduceIte]
            refine ⟨h.equipped, ?_, fun n hn => ?_, fun hflag => ?_, fun hlog => ?_, last_append h.last (.inl rfl)⟩
            · exact h.counted.trans (returns_append_other s.log (.failed call) rfl).symm
            · have hle := h.room n hn
              simp only
              omega
            · rw [hopen] at hflag
              cases hflag
            · exact absurd (by simpa using hlog) hno
  | workComplete =>
      refine ⟨hequipped, ?_, h.room, fun _ => hroom, fun _ => rfl, last_append h.last (.inl rfl)⟩
      exact h.counted.trans (returns_append_other s.log .workComplete rfl).symm
  | spend totalCost => exact ⟨hequipped, h.counted, h.room, h.closed, h.flagged, h.last⟩
  | pressure tokens =>
      have hcounter : (s.director.setLeaderContextPressure tokens).counter = s.director.counter := by
        unfold Director.setLeaderContextPressure Director.counter
        cases s.director.fleetManager <;> rfl
      refine ⟨hequipped, hcounter.trans h.counted, fun n hn => ?_, h.closed, h.flagged, h.last⟩
      change (s.director.setLeaderContextPressure tokens).counter + _ ≤ n
      rw [hcounter]
      exact h.room n hn
  | context resolved => exact ⟨hequipped, h.counted, h.room, h.closed, h.flagged, h.last⟩

theorem inv_init (limits : Limits) (managed : Bool) : Inv limits (init limits managed) := by
  cases managed
  · exact ⟨⟨rfl, fun fm hfm => by cases hfm⟩, rfl, fun n _ => Nat.zero_le n, fun _ => rfl,
      fun hmem => absurd hmem List.not_mem_nil, fun pre post heq => by simp [init] at heq⟩
  · exact ⟨⟨rfl, fun fm hfm => by cases hfm; rfl⟩, rfl, fun n _ => Nat.zero_le n, fun _ => rfl,
      fun hmem => absurd hmem List.not_mem_nil, fun pre post heq => by simp [init] at heq⟩

theorem Inv.lawful (h : Inv limits s) : Lawful s := by
  refine ⟨fun n hn => ?_, h.last, h.counted⟩
  have hle := h.room n (by rw [← hn, h.equipped.own])
  rw [← h.counted]
  omega

/-! ## With and without a fleet manager -/

/-- What a call gets, the error apart. -/
inductive Answer
  | refused (call : Nat)
  | failed (call : Nat)
  | returned (call : Nat)
  | workComplete
  deriving DecidableEq

def Event.answer : Event → Answer
  | .refused call _ => .refused call
  | .failed call => .failed call
  | .returned call => .returned call
  | .workComplete => .workComplete

def State.answers (s : State) : List Answer := s.log.map Event.answer

theorem canSpawn_eq {fm : FleetManager} {d : Director} (hlimits : fm.limits = d.limits)
    (hcount : fm.spawnCount = d.spawnCount) (hpressure : fm.leaderContextPressure = d.leaderContextPressure)
    (totalCost : ℚ) (maxContext : Option ℚ) :
    (fm.canSpawn totalCost maxContext).map Director.rejectionError = d.inlineChecks totalCost maxContext := by
  unfold FleetManager.canSpawn Director.inlineChecks
  simp only [hlimits, hcount, hpressure]
  split
  · rfl
  · split
    · rfl
    · split
      · rfl
      · split
        · split <;> rfl
        · rfl

/-- The first director has a fleet manager that is where the second one is. -/
structure Twins (s t : State) : Prop where
  managed : ∃ fm, s.director.fleetManager = some fm ∧ fm.limits = t.director.limits ∧
    fm.spawnCount = t.director.spawnCount ∧ fm.leaderContextPressure = t.director.leaderContextPressure
  alone : t.director.fleetManager = none
  flag : s.director.workCompleteFlag = t.director.workCompleteFlag
  cost : s.totalCost = t.totalCost
  context : s.maxContext = t.maxContext
  suspended : s.suspended = t.suspended
  answers : s.answers = t.answers

theorem Twins.refusal (h : Twins s t) : (s.director.refusal s.totalCost s.maxContext).isSome =
    (t.director.refusal t.totalCost t.maxContext).isSome := by
  obtain ⟨fm, hfm, hlimits, hcount, hpressure⟩ := h.managed
  unfold Director.refusal
  rw [hfm, h.alone, h.flag, h.cost, h.context]
  simp only [canSpawn_eq hlimits hcount hpressure]
  split <;> rfl

theorem Twins.step (h : Twins s t) (o : Op) : Twins (step s o) (step t o) := by
  obtain ⟨fm, hfm, hlimits, hcount, hpressure⟩ := h.managed
  have hanswers : ∀ e e' : Event, e.answer = e'.answer →
      (s.log ++ [e]).map Event.answer = (t.log ++ [e']).map Event.answer := by
    intro e e' he
    rw [List.map_append, List.map_append, List.map_singleton, List.map_singleton, he]
    exact congrArg (· ++ _) h.answers
  cases o with
  | spawn call =>
      have hrefusal := h.refusal
      unfold Spawning.step
      cases hs : s.director.refusal s.totalCost s.maxContext with
      | none =>
          cases ht : t.director.refusal t.totalCost t.maxContext with
          | none =>
              exact ⟨h.managed, h.alone, h.flag, h.cost, h.context, congrArg (· ++ [call]) h.suspended, h.answers⟩
          | some err =>
              rw [hs, ht] at hrefusal
              cases hrefusal
      | some err =>
          cases ht : t.director.refusal t.totalCost t.maxContext with
          | none =>
              rw [hs, ht] at hrefusal
              cases hrefusal
          | some err' =>
              exact ⟨h.managed, h.alone, h.flag, h.cost, h.context, h.suspended, hanswers _ _ rfl⟩
  | settle call ok =>
      simp only [Spawning.step, h.suspended]
      split
      · exact h
      · cases ok with
        | true =>
            simp only [↓reduceIte, Director.recordSpawn, hfm, h.alone]
            exact ⟨⟨_, rfl, hlimits, congrArg (· + 1) hcount, hpressure⟩, rfl, h.flag, h.cost, h.context, rfl,
              hanswers _ _ rfl⟩
        | false =>
            simp only [Bool.false_eq_true, ↓reduceIte]
            exact ⟨h.managed, h.alone, h.flag, h.cost, h.context, rfl, hanswers _ _ rfl⟩
  | workComplete => exact ⟨h.managed, h.alone, rfl, h.cost, h.context, h.suspended, hanswers _ _ rfl⟩
  | spend totalCost => exact ⟨h.managed, h.alone, h.flag, rfl, h.context, h.suspended, h.answers⟩
  | pressure tokens =>
      refine ⟨⟨{ fm with leaderContextPressure := tokens }, ?_, hlimits, hcount, rfl⟩, ?_, h.flag, h.cost,
        h.context, h.suspended, h.answers⟩
      · simp [Spawning.step, Director.setLeaderContextPressure, hfm]
      · simp [Spawning.step, Director.setLeaderContextPressure, h.alone]
  | context resolved => exact ⟨h.managed, h.alone, h.flag, h.cost, rfl, h.suspended, h.answers⟩

theorem twins_run (h : Twins s t) (ops : List Op) : Twins (run step s ops) (run step t ops) := by
  induction ops generalizing s t with
  | nil => exact h
  | cons o ops ih => exact ih (h.step o)

/-! ## Runs -/

/-- Spawn limits hold in every run in which each call that passes the checks finds room beside the suspended
ones and no call is suspended when the director closes. A fleet manager changes no answer in any run. -/
theorem spawn_limits_hold (limits : Limits) (ops : List Op) :
    (∀ managed, Under step SpareRoom (init limits managed) ops → Lawful (run step (init limits managed) ops)) ∧
      (run step (init limits true) ops).answers = (run step (init limits false) ops).answers := by
  constructor
  · intro managed hroom
    exact (run_invariant_under (fun _ _ h ho => h.step ho) (inv_init limits managed) hroom).lawful
  · have htwins : Twins (init limits true) (init limits false) :=
      ⟨⟨_, rfl, rfl, rfl, rfl⟩, rfl, rfl, rfl, rfl, rfl, rfl⟩
    exact (twins_run htwins ops).answers

/-- A call, one that fails, a second one at the limit, and the end of the work. -/
def orderly : List Op :=
  [.spawn 0, .settle 0 false, .spawn 1, .settle 1 true, .spawn 2, .workComplete, .spawn 3]

theorem spawn_limits_hold_orderly : Lawful (run step (init { maxSpawns := some 1 } true) orderly) :=
  (spawn_limits_hold { maxSpawns := some 1 } orderly).1 true (by decide +kernel)

/-- Two calls that overlap pass the check of a limit of one, and a call that is suspended when the work ends
returns all the same. -/
theorem spawn_limits_overlap :
    ¬ Lawful (run step (init { maxSpawns := some 1 } true) [.spawn 0, .spawn 1, .settle 0 true, .settle 1 true]) ∧
      ¬ Lawful (run step (init {} false) [.spawn 0, .workComplete, .settle 0 true]) := by
  constructor
  · intro h
    exact absurd (h.bounded 1 (by decide +kernel)) (by decide +kernel)
  · intro h
    have hlog : (run step (init {} false) [.spawn 0, .workComplete, .settle 0 true]).log =
        [] ++ .workComplete :: [.returned 0] := by decide +kernel
    exact h.closed _ _ hlog 0 List.mem_cons_self

end WrongStack.Spawning
