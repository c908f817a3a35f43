import WrongStack.Lib.JsString

/-!
# The middleware pipeline

`Pipeline.run` (`core/src/kernel/pipeline.ts`). A handler is what it does next: it returns, it throws, or it calls
`next` and goes on with what that resolves to. It does not catch what `next` throws. The warning of a swallowed
error is left out.
-/

namespace WrongStack.Kernel

open Lib

inductive Handler (T E : Type)
  | ret (value : T)
  | throw (err : E)
  | next (value : T) (resume : T → Handler T E)

inductive PipelineErrorPolicy
  | rethrow | swallow
  deriving DecidableEq

inductive Failure (E : Type)
  | thrown (err : E)
  /-- Pipeline: next() called multiple times in "offender" -/
  | calledTwice (offender : Option JsString)
  deriving DecidableEq

structure PipelineErrorEvent (E : Type) where
  middleware : JsString
  owner : Option JsString
  err : Failure E
  deriving DecidableEq

structure Middleware (T E : Type) where
  name : JsString
  owner : Option JsString
  handler : T → Handler T E

/-- What the levels of a run share. -/
structure Shared (E : Type) where
  /-- One more than `index`. -/
  dispatched : Nat := 0
  /-- The calls of the error handler. -/
  events : List (PipelineErrorEvent E) := []
  /-- The failures, each with the position of the middleware that failed: a history, which no code reads. -/
  failures : List (Nat × Failure E) := []
  deriving DecidableEq

abbrev Outcome (T E : Type) := Except (Failure E) T × Shared E

variable {T E : Type}

/-- The handler of the middleware at position `i`; `dispatch` is that of the next level. -/
def runHandler (dispatch : T → Shared E → Outcome T E) (i : Nat) : Handler T E → Shared E → Outcome T E
  | .ret value, s => (.ok value, s)
  | .throw err, s => (.error (.thrown err), { s with failures := s.failures ++ [(i, .thrown err)] })
  | .next value resume, s =>
      match dispatch value s with
      | (.ok result, s) => runHandler dispatch i (resume result) s
      | (.error err, s) => (.error err, s)

/-- The `catch` of `dispatch`. -/
def caught (errorHandler : Option (PipelineErrorEvent E → PipelineErrorPolicy)) (mw : Middleware T E) (value : T) :
    Outcome T E → Outcome T E
  | (.ok result, s) => (.ok result, s)
  | (.error err, s) =>
      match errorHandler with
      | none => (.error err, s)
      | some errorHandler =>
          let ev := { middleware := mw.name, owner := mw.owner, err }
          let s := { s with events := s.events ++ [ev] }
          match errorHandler ev with
          | .rethrow => (.error err, s)
          | .swallow => (.ok value, s)

section
variable (names : List JsString) (errorHandler : Option (PipelineErrorEvent E → PipelineErrorPolicy))

/-- `dispatch` at position `i` of a chain, of which `chain` is what is left. -/
def dispatch (chain : List (Middleware T E)) (i : Nat) (value : T) (s : Shared E) : Outcome T E :=
  if i < s.dispatched then
    let err := .calledTwice names[s.dispatched - 1]?
    (.error err, { s with failures := s.failures ++ [(i - 1, err)] })
  else
    match chain with
    | [] => (.ok value, { s with dispatched := i + 1 })
    | mw :: rest =>
        caught errorHandler mw value
          (runHandler (dispatch rest (i + 1)) i (mw.handler value) { s with dispatched := i + 1 })

end

def run (errorHandler : Option (PipelineErrorEvent E → PipelineErrorPolicy)) (chain : List (Middleware T E))
    (input : T) : Outcome T E :=
  dispatch (chain.map (·.name)) errorHandler chain 0 input {}

end WrongStack.Kernel

/-!
# Who is blamed for a failure

A failure that is rethrown is caught again by the level above, which blames its own middleware and asks for the
policy of that one.
-/

namespace WrongStack.Kernel

open Lib

variable {T E : Type} {names : List JsString} {errorHandler : PipelineErrorEvent E → PipelineErrorPolicy}
  {next : T → Shared E → Outcome T E} {chain rest : List (Middleware T E)} {mw : Middleware T E} {h : Handler T E}
  {i p : Nat} {v w : T} {s s1 : Shared E} {err : Failure E}

/-! ## One level -/

theorem dispatch_again (hagain : i < s.dispatched) : dispatch names (some errorHandler) chain i v s =
    (.error (.calledTwice names[s.dispatched - 1]?),
      { s with failures := s.failures ++ [(i - 1, .calledTwice names[s.dispatched - 1]?)] }) := by
  unfold dispatch
  exact if_pos hagain

theorem dispatch_nil (hfirst : ¬ i < s.dispatched) : dispatch names (some errorHandler) ([] : List (Middleware T E)) i v s =
    (.ok v, { s with dispatched := i + 1 }) := by
  unfold dispatch
  exact if_neg hfirst

theorem dispatch_cons (hfirst : ¬ i < s.dispatched) : dispatch names (some errorHandler) (mw :: rest) i v s =
    caught (some errorHandler) mw v (runHandler (dispatch names (some errorHandler) rest (i + 1)) i (mw.handler v)
      { s with dispatched := i + 1 }) := by
  rw [dispatch]
  exact if_neg hfirst

theorem runHandler_ok {value : T} {resume : T → Handler T E} (hnext : next value s = (.ok w, s1)) :
    runHandler next i (.next value resume) s = runHandler next i (resume w) s1 := by
  rw [runHandler, hnext]

theorem runHandler_error {value : T} {resume : T → Handler T E} (hnext : next value s = (.error err, s1)) :
    runHandler next i (.next value resume) s = (.error err, s1) := by
  rw [runHandler, hnext]

/-- The event of a failure that the level of `mw` catches. -/
def blame (mw : Middleware T E) (err : Failure E) : PipelineErrorEvent E :=
  { middleware := mw.name, owner := mw.owner, err }

theorem caught_rethrow (hpolicy : errorHandler (blame mw err) = .rethrow) :
    caught (some errorHandler) mw v (.error err, s) = (.error err, { s with events := s.events ++ [blame mw err] }) := by
  unfold blame at hpolicy
  simp only [caught, hpolicy]
  rfl

theorem caught_swallow (hpolicy : errorHandler (blame mw err) = .swallow) :
    caught (some errorHandler) mw v (.error err, s) = (.ok v, { s with events := s.events ++ [blame mw err] }) := by
  unfold blame at hpolicy
  simp only [caught, hpolicy]
  rfl

/-! ## What a run adds -/

structure Extends (s s' : Shared E) : Prop where
  dispatched : s.dispatched ≤ s'.dispatched
  failures : s.failures <+: s'.failures
  events : s.events <+: s'.events

theorem Extends.refl (s : Shared E) : Extends s s := ⟨le_rfl, List.prefix_rfl, List.prefix_rfl⟩

theorem Extends.trans {s1 s2 s3 : Shared E} (h : Extends s1 s2) (h' : Extends s2 s3) : Extends s1 s3 :=
  ⟨h.dispatched.trans h'.dispatched, h.failures.trans h'.failures, h.events.trans h'.events⟩

theorem runHandler_extends (hnext : ∀ v s, Extends s (next v s).2) (h : Handler T E) (s : Shared E) :
    Extends s (runHandler next i h s).2 := by
  induction h generalizing s with
  | ret value => exact .refl s
  | throw err => exact ⟨le_rfl, List.prefix_append _ _, List.prefix_rfl⟩
  | next value resume ih =>
      have hstep := hnext value s
      cases hout : next value s with
      | mk result s1 =>
          rw [hout] at hstep
          cases result with
          | ok result =>
              rw [runHandler_ok hout]
              exact hstep.trans (ih result s1)
          | error err =>
              rw [runHandler_error hout]
              exact hstep

theorem caught_extends (mw : Middleware T E) (v : T) (out : Outcome T E) :
    Extends out.2 (caught (some errorHandler) mw v out).2 := by
  obtain ⟨result, s⟩ := out
  cases result with
  | ok result => exact .refl s
  | error err =>
      cases hpolicy : errorHandler (blame mw err) with
      | rethrow =>
          rw [caught_rethrow hpolicy]
          exact ⟨le_rfl, List.prefix_rfl, List.prefix_append _ _⟩
      | swallow =>
          rw [caught_swallow hpolicy]
          exact ⟨le_rfl, List.prefix_rfl, List.prefix_append _ _⟩

theorem dispatch_extends (names : List JsString) (errorHandler : PipelineErrorEvent E → PipelineErrorPolicy)
    (chain : List (Middleware T E)) (i : Nat) (v : T) (s : Shared E) :
    Extends s (dispatch names (some errorHandler) chain i v s).2 ∧
      i < (dispatch names (some errorHandler) chain i v s).2.dispatched := by
  induction chain generalizing i v s with
  | nil =>
      by_cases hagain : i < s.dispatched
      · rw [dispatch_again hagain]
        exact ⟨⟨le_rfl, List.prefix_append _ _, List.prefix_rfl⟩, hagain⟩
      · rw [dispatch_nil hagain]
        exact ⟨⟨by dsimp only; omega, List.prefix_rfl, List.prefix_rfl⟩, Nat.lt_succ_self i⟩
  | cons mw rest ih =>
      by_cases hagain : i < s.dispatched
      · rw [dispatch_again hagain]
        exact ⟨⟨le_rfl, List.prefix_append _ _, List.prefix_rfl⟩, hagain⟩
      · rw [dispatch_cons hagain]
        have hstart : Extends s { s with dispatched := i + 1 } :=
          ⟨by dsimp only; omega, List.prefix_rfl, List.prefix_rfl⟩
        have hrun : Extends { s with dispatched := i + 1 } (caught (some errorHandler) mw v
            (runHandler (dispatch names (some errorHandler) rest (i + 1)) i (mw.handler v)
              { s with dispatched := i + 1 })).2 :=
          (runHandler_extends (fun v s => (ih (i + 1) v s).1) (mw.handler v) _).trans (caught_extends mw v _)
        exact ⟨hstart.trans hrun, hrun.dispatched⟩

theorem caught_failures (mw : Middleware T E) (v : T) (out : Outcome T E) :
    (caught (some errorHandler) mw v out).2.failures = out.2.failures := by
  obtain ⟨result, s⟩ := out
  cases result with
  | ok result => rfl
  | error err =>
      cases hpolicy : errorHandler (blame mw err) with
      | rethrow => rw [caught_rethrow hpolicy]
      | swallow => rw [caught_swallow hpolicy]

/-- What a handler does, and what fails in it. -/
inductive Ran (dispatch : T → Shared E → Outcome T E) (i : Nat) (h : Handler T E) (s : Shared E) : Outcome T E → Prop
  | returned {w : T} (hret : h = .ret w) : Ran dispatch i h s (.ok w, s)
  /-- It fails before its `next`. -/
  | before {err : Failure E} : Ran dispatch i h s (.error err, { s with failures := s.failures ++ [(i, err)] })
  /-- The next level fails. -/
  | below {value : T} {resume : T → Handler T E} {err : Failure E} {s1 : Shared E} (hnext : h = .next value resume)
      (hout : dispatch value s = (.error err, s1)) : Ran dispatch i h s (.error err, s1)
  | through {value w u : T} {resume : T → Handler T E} {s1 : Shared E} (hnext : h = .next value resume)
      (hout : dispatch value s = (.ok w, s1)) (hret : resume w = .ret u) : Ran dispatch i h s (.ok u, s1)
  /-- It fails after its `next`, perhaps by calling it again. -/
  | after {value w : T} {resume : T → Handler T E} {err : Failure E} {s1 : Shared E} (hnext : h = .next value resume)
      (hout : dispatch value s = (.ok w, s1)) : Ran dispatch i h s (.error err, { s1 with failures := s1.failures ++ [(i, err)] })

theorem runHandler_ran (names : List JsString) (errorHandler : PipelineErrorEvent E → PipelineErrorPolicy)
    (rest : List (Middleware T E)) (i : Nat) (h : Handler T E) (s : Shared E) :
    Ran (dispatch names (some errorHandler) rest (i + 1)) i h s
      (runHandler (dispatch names (some errorHandler) rest (i + 1)) i h s) := by
  cases h with
  | ret w => exact .returned rfl
  | throw err => exact .before
  | next value resume =>
      cases hout : dispatch names (some errorHandler) rest (i + 1) value s with
      | mk result s1 =>
          cases result with
          | error err =>
              rw [runHandler_error hout]
              exact .below rfl hout
          | ok w =>
              have hagain := (dispatch_extends names errorHandler rest (i + 1) value s).2
              rw [hout] at hagain
              rw [runHandler_ok hout]
              cases hresume : resume w with
              | ret u => exact .through rfl hout hresume
              | throw err => exact .after rfl hout
              | next value' resume' =>
                  rw [runHandler_error (dispatch_again hagain)]
                  exact .after rfl hout

/-! ## Runs without a failure -/

theorem dispatch_quiet (hquiet : (dispatch names (some errorHandler) chain i v s).2.failures = s.failures) :
    ∃ w s1, dispatch names (some errorHandler) chain i v s = (.ok w, s1) ∧ s1.events = s.events := by
  induction chain generalizing i v s with
  | nil =>
      by_cases hagain : i < s.dispatched
      · rw [dispatch_again hagain] at hquiet
        simp at hquiet
      · exact ⟨v, _, dispatch_nil hagain, rfl⟩
  | cons mw rest ih =>
      by_cases hagain : i < s.dispatched
      · rw [dispatch_again hagain] at hquiet
        simp at hquiet
      · rw [dispatch_cons hagain, caught_failures] at hquiet
        rw [dispatch_cons hagain]
        have hran := runHandler_ran names errorHandler rest i (mw.handler v) { s with dispatched := i + 1 }
        generalize runHandler (dispatch names (some errorHandler) rest (i + 1)) i (mw.handler v)
          { s with dispatched := i + 1 } = out at hran hquiet
        cases hran with
        | returned hret => exact ⟨_, _, rfl, rfl⟩
        | before => simp at hquiet
        | @below value resume err s1 hnext hout =>
            have hsame : (dispatch names (some errorHandler) rest (i + 1) value { s with dispatched := i + 1 }).2.failures =
                s.failures := by rw [hout]; exact hquiet
            obtain ⟨w, s2, hok, -⟩ := ih hsame
            rw [hout] at hok
            cases hok
        | @through value w u resume s1 hnext hout hret =>
            have hsame : (dispatch names (some errorHandler) rest (i + 1) value { s with dispatched := i + 1 }).2.failures =
                s.failures := by rw [hout]; exact hquiet
            obtain ⟨w', s2, hok, hevents⟩ := ih hsame
            rw [hout] at hok
            cases hok
            exact ⟨u, s1, rfl, hevents⟩
        | @after value w resume err s1 hnext hout =>
            have hmore := (dispatch_extends names errorHandler rest (i + 1) value
              { s with dispatched := i + 1 }).1.failures.length_le
            rw [hout] at hmore
            have hlength := congrArg List.length hquiet
            simp at hlength hmore
            omega

/-! ## A run with one failure -/

/-- What becomes of the failure `err` of `mw`, which is at position `p`. -/
structure Failed (errorHandler : PipelineErrorEvent E → PipelineErrorPolicy) (chain : List (Middleware T E)) (i p : Nat)
    (v : T) (s : Shared E) (mw : Middleware T E) (err : Failure E) (out : Outcome T E) : Prop where
  position : i ≤ p ∧ chain[p - i]? = some mw
  events : ∃ more, out.2.events = s.events ++ blame mw err :: more ∧
    (errorHandler (blame mw err) = .swallow ∨ p = i → more = []) ∧
    (errorHandler (blame mw err) = .rethrow ∧ i < p → more ≠ [])
  rethrown : errorHandler (blame mw err) = .rethrow → p = i → out.1 = .error err
  swallowed : errorHandler (blame mw err) = .swallow → ∃ w, out.1 = .ok w ∧ ∀ names, ∃ s1,
    dispatch names (some errorHandler) (chain.take (p - i)) i v s = (.ok w, s1) ∧ s1.failures = s.failures

theorem Failed.here (hfirst : ¬ i < s.dispatched) {s1 : Shared E} (hevents : s1.events = s.events) :
    Failed errorHandler (mw :: rest) i i v s mw err (caught (some errorHandler) mw v (.error err, s1)) := by
  cases hpolicy : errorHandler (blame mw err) with
  | rethrow =>
      rw [caught_rethrow hpolicy]
      refine ⟨⟨le_rfl, by simp⟩, ⟨[], by simp [hevents], fun _ => rfl, fun h => absurd h.2 (lt_irrefl i)⟩, fun _ _ => rfl, ?_⟩
      intro hswallow
      rw [hpolicy] at hswallow
      cases hswallow
  | swallow =>
      rw [caught_swallow hpolicy]
      refine ⟨⟨le_rfl, by simp⟩, ⟨[], by simp [hevents], fun _ => rfl, fun h => absurd h.2 (lt_irrefl i)⟩, ?_, ?_⟩
      · intro hrethrow
        rw [hpolicy] at hrethrow
        cases hrethrow
      · intro _
        refine ⟨v, rfl, fun names => ⟨{ s with dispatched := i + 1 }, ?_, rfl⟩⟩
        rw [Nat.sub_self, List.take_zero, dispatch_nil hfirst]

/-- The failure of a lower level reaches this one: it was rethrown, and this level blames its own middleware. -/
theorem Failed.above {mw' : Middleware T E} {value : T} {err' : Failure E}
    (h : Failed errorHandler rest (i + 1) p value { s with dispatched := i + 1 } mw' err (.error err', s1))
    (mw : Middleware T E) :
    Failed errorHandler (mw :: rest) i p v s mw' err (caught (some errorHandler) mw v (.error err', s1)) := by
  obtain ⟨⟨hle, hget⟩, ⟨more, hevents, -, -⟩, -, hswallowed⟩ := h
  have hnot : errorHandler (blame mw' err) ≠ .swallow := by
    intro hswallow
    obtain ⟨w, hok, -⟩ := hswallowed hswallow
    cases hok
  have hcaught : (caught (some errorHandler) mw v (.error err', s1)).2.events = s1.events ++ [blame mw err'] := by
    cases hpolicy : errorHandler (blame mw err') with
    | rethrow => rw [caught_rethrow hpolicy]
    | swallow => rw [caught_swallow hpolicy]
  have hpos : p - i = p - (i + 1) + 1 := by omega
  refine ⟨⟨by omega, by rw [hpos, List.getElem?_cons_succ, hget]⟩, ⟨more ++ [blame mw err'], ?_, ?_, by simp⟩, ?_, ?_⟩
  · rw [hcaught, hevents]
    simp
  · rintro (hswallow | rfl)
    · exact absurd hswallow hnot
    · omega
  · rintro - rfl
    omega
  · exact fun hswallow => absurd hswallow hnot

/-- A lower level resolves although the middleware at `p` has failed, and this level returns. -/
theorem Failed.passed {mw' : Middleware T E} {value w u : T} {resume : T → Handler T E} (hfirst : ¬ i < s.dispatched)
    (h : Failed errorHandler rest (i + 1) p value { s with dispatched := i + 1 } mw' err (.ok w, s1))
    (hnext : mw.handler v = .next value resume) (hret : resume w = .ret u) :
    Failed errorHandler (mw :: rest) i p v s mw' err (caught (some errorHandler) mw v (.ok u, s1)) := by
  obtain ⟨⟨hle, hget⟩, ⟨more, hevents, hnone, hsome⟩, hrethrown, hswallowed⟩ := h
  have hpos : p - i = p - (i + 1) + 1 := by omega
  refine ⟨⟨by omega, by rw [hpos, List.getElem?_cons_succ, hget]⟩, ⟨more, hevents, ?_, ?_⟩, ?_, fun hswallow => ?_⟩
  · rintro (hswallow | rfl)
    · exact hnone (.inl hswallow)
    · omega
  · rintro ⟨hrethrow, -⟩
    by_cases hhere : p = i + 1
    · cases hrethrown hrethrow hhere
    · exact hsome ⟨hrethrow, by omega⟩
  · rintro - rfl
    omega
  · obtain ⟨w', hok, hcut⟩ := hswallowed hswallow
    cases hok
    refine ⟨u, rfl, fun names => ?_⟩
    obtain ⟨s2, hout, hquiet⟩ := hcut names
    refine ⟨s2, ?_, hquiet⟩
    rw [hpos, List.take_succ_cons, dispatch_cons hfirst, hnext, runHandler_ok hout, hret]
    rfl

theorem dispatch_failed (hfirst : ¬ i < s.dispatched)
    (hfail : (dispatch names (some errorHandler) chain i v s).2.failures = s.failures ++ [(p, err)]) :
    ∃ mw, Failed errorHandler chain i p v s mw err (dispatch names (some errorHandler) chain i v s) := by
  induction chain generalizing i v s with
  | nil =>
      rw [dispatch_nil hfirst] at hfail
      simp at hfail
  | cons mw rest ih =>
      rw [dispatch_cons hfirst, caught_failures] at hfail
      rw [dispatch_cons hfirst]
      have hran := runHandler_ran names errorHandler rest i (mw.handler v) { s with dispatched := i + 1 }
      generalize runHandler (dispatch names (some errorHandler) rest (i + 1)) i (mw.handler v)
        { s with dispatched := i + 1 } = out at hran hfail
      have hnextFirst : ¬ i + 1 < ({ s with dispatched := i + 1 } : Shared E).dispatched := lt_irrefl _
      cases hran with
      | returned hret => simp at hfail
      | before =>
          simp only [List.append_cancel_left_eq, List.cons.injEq, Prod.mk.injEq, and_true] at hfail
          obtain ⟨rfl, rfl⟩ := hfail
          exact ⟨mw, .here hfirst rfl⟩
      | @below value resume err' s1 hnext hout =>
          have hbelow := ih hnextFirst (by rw [hout]; exact hfail)
          rw [hout] at hbelow
          obtain ⟨mw', hfailed⟩ := hbelow
          exact ⟨mw', hfailed.above mw⟩
      | @through value w u resume s1 hnext hout hret =>
          have hbelow := ih hnextFirst (by rw [hout]; exact hfail)
          rw [hout] at hbelow
          obtain ⟨mw', hfailed⟩ := hbelow
          exact ⟨mw', hfailed.passed hfirst hnext hret⟩
      | @after value w resume err' s1 hnext hout =>
          obtain ⟨hquiet, hlast⟩ := List.append_inj' hfail rfl
          simp only [List.cons.injEq, Prod.mk.injEq, and_true] at hlast
          obtain ⟨rfl, rfl⟩ := hlast
          have hsame : (dispatch names (some errorHandler) rest (i + 1) value { s with dispatched := i + 1 }).2.failures =
              s.failures := by rw [hout]; exact hquiet
          obtain ⟨w', s2, hok, hevents⟩ := dispatch_quiet hsame
          rw [hout] at hok
          cases hok
          exact ⟨mw, .here hfirst hevents⟩

/-! ## Policies of a middleware and its owner -/

section
variable (policy : JsString → Option JsString → PipelineErrorPolicy)

/-- The error handler that has a policy for each middleware. -/
def handlerOf (ev : PipelineErrorEvent E) : PipelineErrorPolicy := policy ev.middleware ev.owner

/-- The error handler is called once, for the middleware at `p`, and its policy is what happens: the failure is
thrown, or the middleware and all after it are left out. -/
def Blamed (chain : List (Middleware T E)) (input : T) (p : Nat) (err : Failure E) : Prop :=
  ∃ mw, chain[p]? = some mw ∧
    (run (some (handlerOf policy)) chain input).2.events = [blame mw err] ∧
    (policy mw.name mw.owner = .rethrow → (run (some (handlerOf policy)) chain input).1 = .error err) ∧
    (policy mw.name mw.owner = .swallow → ∃ w, (run (some (handlerOf policy)) chain input).1 = .ok w ∧
      (run (some (handlerOf policy)) (chain.take p) input).1 = .ok w)

/-- The middleware that fails alone is blamed exactly if it is the first one or its failure is swallowed. -/
theorem blamed_iff (chain : List (Middleware T E)) (input : T) (p : Nat) (err : Failure E)
    (hfail : (run (some (handlerOf policy)) chain input).2.failures = [(p, err)]) :
    Blamed policy chain input p err ↔
      p = 0 ∨ ∃ mw, chain[p]? = some mw ∧ policy mw.name mw.owner = .swallow := by
  have hfirst : ¬ 0 < ({} : Shared E).dispatched := lt_irrefl 0
  obtain ⟨mw, ⟨-, hget⟩, ⟨more, hevents, hnone, hsome⟩, hrethrown, hswallowed⟩ := dispatch_failed hfirst hfail
  rw [Nat.sub_zero] at hget hswallowed
  constructor
  · rintro ⟨mw', hget', hone, -, -⟩
    rw [hget] at hget'
    obtain rfl := Option.some.inj hget'
    by_cases hzero : p = 0
    · exact .inl hzero
    · refine .inr ⟨mw, hget, ?_⟩
      cases hpolicy : policy mw.name mw.owner with
      | swallow => rfl
      | rethrow =>
          -- the levels above are asked too
          refine absurd ?_ (hsome ⟨hpolicy, Nat.pos_of_ne_zero hzero⟩)
          have hall : [blame mw err] = [] ++ blame mw err :: more := hone.symm.trans hevents
          simpa using hall.symm
  · intro h
    have halone : more = [] := by
      rcases h with hzero | ⟨mw', hget', hswallow⟩
      · exact hnone (.inr hzero)
      · rw [hget] at hget'
        obtain rfl := Option.some.inj hget'
        exact hnone (.inl hswallow)
    rw [halone] at hevents
    refine ⟨mw, hget, hevents, fun hrethrow => ?_, fun hswallow => ?_⟩
    · rcases h with hzero | ⟨mw', hget', hswallow⟩
      · exact hrethrown hrethrow hzero
      · rw [hget] at hget'
        obtain rfl := Option.some.inj hget'
        rw [hrethrow] at hswallow
        cases hswallow
    · obtain ⟨w, hok, hcut⟩ := hswallowed hswallow
      obtain ⟨s1, hout, -⟩ := hcut ((chain.take p).map (·.name))
      exact ⟨w, hok, congrArg Prod.fst hout⟩

end

/-- A middleware that passes its value on. -/
def passing (name : JsString) : Middleware Nat Unit := ⟨name, none, fun value => .next (value + 1) .ret⟩

/-- A middleware that fails. -/
def failing (name : JsString) : Middleware Nat Unit := ⟨name, none, fun _ => .throw ()⟩

/-- The policy of a host that tolerates its plugin only. -/
def tolerant (middleware : JsString) (_owner : Option JsString) : PipelineErrorPolicy :=
  if middleware = js "plugin" then .swallow else .rethrow

theorem blamed_iff_plugin : Blamed tolerant [passing (js "core"), failing (js "plugin")] 0 1 (.thrown ()) ↔
    1 = 0 ∨ ∃ mw, [passing (js "core"), failing (js "plugin")][1]? = some mw ∧ tolerant mw.name mw.owner = .swallow :=
  blamed_iff tolerant _ 0 1 (.thrown ()) rfl

/-- The failure of `core` is rethrown, and swallowed at the level of `plugin`. -/
theorem rethrown_swallowed :
    (run (some (handlerOf tolerant)) [passing (js "plugin"), failing (js "core")] 0).2.failures = [(1, .thrown ())] ∧
    ¬ Blamed tolerant [passing (js "plugin"), failing (js "core")] 0 1 (.thrown ()) := by
  refine ⟨rfl, ?_⟩
  rintro ⟨mw, -, hone, -, -⟩
  have htwo : (run (some (handlerOf tolerant)) [passing (js "plugin"), failing (js "core")] 0).2.events =
      [blame (failing (js "core")) (.thrown ()), blame (passing (js "plugin")) (.thrown ())] := rfl
  rw [htwo] at hone
  simp at hone

end WrongStack.Kernel
