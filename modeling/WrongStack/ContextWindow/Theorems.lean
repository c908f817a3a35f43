import Mathlib.Algebra.Order.Floor.Ring
import Mathlib.Data.Rat.Floor
import Mathlib.Tactic.GCongr
import WrongStack.Lib.Run

/-!
# Automatic compaction of the context window

`AutoCompactionMiddleware` (`core/src/execution/auto-compaction-middleware.ts`) with fixed thresholds and an estimator
of its own. Fractions are exact numbers.
-/

namespace WrongStack.ContextWindow

open Lib

inductive PressureLevel
  | warn | soft | hard
  deriving DecidableEq

def PressureLevel.rank : PressureLevel → Nat
  | warn => 0
  | soft => 1
  | hard => 2

def PressureLevel.name : PressureLevel → String
  | warn => "warn"
  | soft => "soft"
  | hard => "hard"

inductive CompactionFailureMode
  | throw | throwOnHard | continue
  deriving DecidableEq

structure Thresholds where
  warn : ℚ
  soft : ℚ
  hard : ℚ

/-- What the middleware sees of a context. -/
structure Context where
  /-- What the estimator returns. -/
  tokens : Nat
  contextOutputReserveTokens : Option ℚ := none
  contextSafetyBufferTokens : Option ℚ := none
  repeatedReadCount : Nat := 0
  deriving DecidableEq

structure CompactReport where
  before : Nat
  after : Nat
  fullRequestTokensBefore : Option Nat := none
  fullRequestTokensAfter : Option Nat := none
  repaired : Bool := false

/-- How the compactor ends. -/
inductive CompactOutcome
  /-- It returns, and then the session log can throw. -/
  | report (report : CompactReport) (appendThrows : Bool)
  | throws

structure AgentError where
  message : String
  code : String := "AGENT_CONTEXT_OVERFLOW"
  level : PressureLevel
  tokens : Nat
  maxContext : Nat
  deriving DecidableEq

structure NoopAttempt where
  level : PressureLevel
  tokens : Nat
  deriving DecidableEq

structure AutoCompactionMiddleware where
  maxContext : Nat
  thresholds : Thresholds
  aggressiveOn : PressureLevel := .soft
  failureMode : CompactionFailureMode := .throwOnHard
  enabled : Bool := true

inductive HandlerResult
  /-- `next(ctx)` -/
  | next (ctx : Context)
  | throws (error : AgentError)
  deriving DecidableEq

/-! ## The budget -/

structure ContextWindowBudget where
  inputTokens : Nat
  availableInputTokens : Int
  reservedOutputTokens : Int
  reservedSafetyTokens : Int
  load : ℚ

def readPositiveMetaNumber (value : Option ℚ) : Option Int :=
  match value with
  | some n => if 0 ≤ n then some ⌊n⌋ else none
  | none => none

def computeContextWindowBudget (ctx : Context) (inputTokens maxContext : Nat) : ContextWindowBudget :=
  let reservedOutputTokens := (readPositiveMetaNumber ctx.contextOutputReserveTokens).getD
    ⌊min 8192 ((maxContext : ℚ) * (8 / 100))⌋
  let reservedSafetyTokens := (readPositiveMetaNumber ctx.contextSafetyBufferTokens).getD
    ⌊min 4096 ((maxContext : ℚ) * (2 / 100))⌋
  let availableInputTokens := max 1 ((maxContext : Int) - reservedOutputTokens - reservedSafetyTokens)
  { inputTokens := inputTokens
    availableInputTokens := availableInputTokens
    reservedOutputTokens := reservedOutputTokens
    reservedSafetyTokens := reservedSafetyTokens
    load := inputTokens / availableInputTokens }

def adaptThresholdsForSignals (thresholds : Thresholds) (repeatedReadCount : Nat) : Thresholds :=
  if repeatedReadCount < 3 then thresholds
  else
    { warn := max (25 / 100) (thresholds.warn - 8 / 100)
      soft := max (35 / 100) (thresholds.soft - 4 / 100)
      hard := thresholds.hard }

namespace AutoCompactionMiddleware

def NOOP_RETRY_DELTA_TOKENS : Int := 2000

variable (m : AutoCompactionMiddleware)

def pressureLevel (load : ℚ) (thresholds : Thresholds) : Option PressureLevel :=
  if load ≥ thresholds.hard then some .hard
  else if load ≥ thresholds.soft then some .soft
  else if load ≥ thresholds.warn then some .warn
  else none

def shouldSkipNoopRetry (lastNoopAttempt : Option NoopAttempt) (level : PressureLevel) (tokens : Nat) : Bool :=
  match lastNoopAttempt with
  | none => false
  | some stuck =>
      if level.rank > stuck.level.rank then false
      else decide ((tokens : Int) - stuck.tokens < NOOP_RETRY_DELTA_TOKENS)

def recordAttempt (level : PressureLevel) (tokens : Nat) (report : CompactReport) : Option NoopAttempt :=
  let reduced := decide (report.fullRequestTokensBefore.getD report.before >
    report.fullRequestTokensAfter.getD report.after)
  if reduced || report.repaired then none else some { level := level, tokens := tokens }

/-- A failure at this level is thrown. -/
def fatalAt (level : PressureLevel) : Bool :=
  m.failureMode == .throw || (m.failureMode == .throwOnHard && level == .hard)

/-- The catch of `compact`. -/
def failed (level : PressureLevel) (tokens : Nat) : Option AgentError :=
  if m.fatalAt level then
    some
      { message := s!"Auto-compaction failed at {level.name} threshold"
        level := level
        tokens := tokens
        maxContext := m.maxContext }
  else none

/-- The load after a compaction, as `compact` computes it, against the whole window. -/
def afterLoad (afterTokens : Nat) : ℚ := if m.maxContext > 0 then afterTokens / m.maxContext else 0

/-- `compact`: the record of the attempt, and what it throws. -/
def compact (lastNoopAttempt : Option NoopAttempt) (level : PressureLevel) (tokens : Nat) (hardThreshold : ℚ)
    (outcome : CompactOutcome) : Option NoopAttempt × Option AgentError :=
  match outcome with
  | .throws => (lastNoopAttempt, m.failed level tokens)
  | .report report appendThrows =>
      let lastNoopAttempt := recordAttempt level tokens report
      if appendThrows then (lastNoopAttempt, m.failed level tokens)
      else
        let afterTokens := report.fullRequestTokensAfter.getD report.after
        let stillHard := decide (m.afterLoad afterTokens ≥ hardThreshold)
        if stillHard && m.fatalAt level then
          (lastNoopAttempt, some
            { message := "Auto-compaction did not reduce context below hard threshold"
              level := level
              tokens := afterTokens
              maxContext := m.maxContext })
        else (lastNoopAttempt, none)

/-- `handler`: the compactor, aggressive or not, also says how many tokens the context has then. -/
def handler (lastNoopAttempt : Option NoopAttempt) (ctx : Context) (compactor : Bool → CompactOutcome × Nat) :
    Option NoopAttempt × HandlerResult :=
  if !m.enabled then (lastNoopAttempt, .next ctx)
  else
    let tokens := ctx.tokens
    let budget := computeContextWindowBudget ctx tokens m.maxContext
    let adaptiveThresholds := adaptThresholdsForSignals m.thresholds ctx.repeatedReadCount
    match pressureLevel budget.load adaptiveThresholds with
    | none => (none, .next ctx)
    | some level =>
        if shouldSkipNoopRetry lastNoopAttempt level tokens then (lastNoopAttempt, .next ctx)
        else
          let aggressive := match level with
            | .hard => true
            | .soft => m.aggressiveOn != .hard
            | .warn => m.aggressiveOn == .warn
          let (outcome, tokensAfter) := compactor aggressive
          let (lastNoopAttempt, error) := m.compact lastNoopAttempt level tokens adaptiveThresholds.hard outcome
          match error with
          | some error => (lastNoopAttempt, .throws error)
          | none => (lastNoopAttempt, .next { ctx with tokens := tokensAfter })

end AutoCompactionMiddleware

/-! ## Runs -/

/-- An invocation of the handler. A compaction adds nothing, and its report has what the estimator returns then. -/
structure Call where
  ctx : Context
  compactor : Bool → CompactOutcome × Nat
  shrinks : ∀ aggressive, (compactor aggressive).2 ≤ ctx.tokens
  honest : ∀ aggressive report appendThrows, (compactor aggressive).1 = .report report appendThrows →
    report.fullRequestTokensAfter = some (compactor aggressive).2

def step (m : AutoCompactionMiddleware) (lastNoopAttempt : Option NoopAttempt) (call : Call) : Option NoopAttempt :=
  (m.handler lastNoopAttempt call.ctx call.compactor).1

end WrongStack.ContextWindow

/-!
# The hard threshold

Exactly which invocations go on with a context below the hard threshold, or throw.
-/

namespace WrongStack.ContextWindow

open Lib AutoCompactionMiddleware

variable {m : AutoCompactionMiddleware} {lastNoopAttempt : Option NoopAttempt} {call : Call} {ctx : Context}

/-- The load of a context, as the handler computes it. -/
def loadOf (m : AutoCompactionMiddleware) (ctx : Context) : ℚ :=
  (computeContextWindowBudget ctx ctx.tokens m.maxContext).load

/-- The handler goes on below the hard threshold, or throws the overflow. -/
def Bounded (m : AutoCompactionMiddleware) : HandlerResult → Prop
  | .next ctx => loadOf m ctx < m.thresholds.hard
  | .throws error => error.code = "AGENT_CONTEXT_OVERFLOW"

/-- At the hard level the attempt is not skipped, and a compaction that returns leaves a load that is below the
threshold, or that is not below it even as a fraction of the whole window. -/
def KeepsBoundary (m : AutoCompactionMiddleware) (lastNoopAttempt : Option NoopAttempt) (call : Call) : Prop :=
  m.thresholds.hard ≤ loadOf m call.ctx →
    shouldSkipNoopRetry lastNoopAttempt .hard call.ctx.tokens = false ∧
      ∀ report, (call.compactor true).1 = .report report false →
        loadOf m { call.ctx with tokens := (call.compactor true).2 } < m.thresholds.hard ∨
          m.thresholds.hard ≤ m.afterLoad (call.compactor true).2

/-! ## Loads -/

theorem loadOf_mono (m : AutoCompactionMiddleware) (ctx : Context) {tokens : Nat} (h : tokens ≤ ctx.tokens) :
    loadOf m { ctx with tokens := tokens } ≤ loadOf m ctx := by
  unfold loadOf computeContextWindowBudget
  simp only
  have havailable : ∀ n : Int, (0 : ℚ) ≤ (max 1 n : Int) := by
    intro n
    exact_mod_cast le_trans zero_le_one (le_max_left 1 n)
  exact div_le_div_of_nonneg_right (Nat.cast_le.mpr h) (havailable _)

@[simp] theorem adaptThresholds_hard (thresholds : Thresholds) (repeatedReadCount : Nat) :
    (adaptThresholdsForSignals thresholds repeatedReadCount).hard = thresholds.hard := by
  unfold adaptThresholdsForSignals
  split <;> rfl

theorem pressureLevel_hard {load : ℚ} {thresholds : Thresholds} (h : thresholds.hard ≤ load) :
    pressureLevel load thresholds = some .hard := if_pos h

/-! ## One invocation -/

theorem failed_code {level : PressureLevel} {tokens : Nat} {error : AgentError} (h : m.failed level tokens = some error) :
    error.code = "AGENT_CONTEXT_OVERFLOW" := by
  unfold failed at h
  split at h
  · cases h
    rfl
  · cases h

theorem compact_code {level : PressureLevel} {tokens : Nat} {hardThreshold : ℚ} {outcome : CompactOutcome}
    {error : AgentError} (h : (m.compact lastNoopAttempt level tokens hardThreshold outcome).2 = some error) :
    error.code = "AGENT_CONTEXT_OVERFLOW" := by
  cases outcome with
  | throws => exact failed_code h
  | report report appendThrows =>
      simp only [compact] at h
      split at h
      · exact failed_code h
      · split at h <;> cases h
        rfl

/-- Below the hard threshold a compaction adds nothing. -/
theorem bounded_below (call : Call) (h : loadOf m call.ctx < m.thresholds.hard) :
    Bounded m (m.handler lastNoopAttempt call.ctx call.compactor).2 := by
  have hless : ∀ aggressive, loadOf m { call.ctx with tokens := (call.compactor aggressive).2 } < m.thresholds.hard :=
    fun aggressive => lt_of_le_of_lt (loadOf_mono m call.ctx (call.shrinks aggressive)) h
  unfold handler
  split
  · exact h
  · simp only
    split
    · exact h
    · split
      · exact h
      · split
        · rename_i error herror
          exact compact_code herror
        · exact hless _

/-- At or above it, the handler compacts aggressively, unless it skips. -/
theorem handler_hard (henabled : m.enabled = true) (call : Call) (h : m.thresholds.hard ≤ loadOf m call.ctx)
    (hskip : shouldSkipNoopRetry lastNoopAttempt .hard call.ctx.tokens = false) :
    (m.handler lastNoopAttempt call.ctx call.compactor).2 =
      (m.compact lastNoopAttempt .hard call.ctx.tokens m.thresholds.hard (call.compactor true).1).2.elim
        (.next { call.ctx with tokens := (call.compactor true).2 }) .throws := by
  unfold handler
  rw [henabled]
  simp only [Bool.not_true, Bool.false_eq_true, ↓reduceIte]
  rw [pressureLevel_hard (by rw [adaptThresholds_hard]; exact h)]
  simp only [hskip, Bool.false_eq_true, ↓reduceIte, adaptThresholds_hard]
  split
  · rename_i error herror
    rw [herror]
    rfl
  · rename_i hnone
    rw [hnone]
    rfl

theorem handler_skips (henabled : m.enabled = true) (call : Call) (h : m.thresholds.hard ≤ loadOf m call.ctx)
    (hskip : shouldSkipNoopRetry lastNoopAttempt .hard call.ctx.tokens = true) :
    (m.handler lastNoopAttempt call.ctx call.compactor).2 = .next call.ctx := by
  unfold handler
  rw [henabled]
  simp only [Bool.not_true, Bool.false_eq_true, ↓reduceIte]
  rw [pressureLevel_hard (by rw [adaptThresholds_hard]; exact h)]
  simp only [hskip, ↓reduceIte]

theorem bounded_iff (henabled : m.enabled = true) (hmode : m.failureMode = .throwOnHard)
    (lastNoopAttempt : Option NoopAttempt) (call : Call) :
    Bounded m (m.handler lastNoopAttempt call.ctx call.compactor).2 ↔ KeepsBoundary m lastNoopAttempt call := by
  rcases lt_or_ge (loadOf m call.ctx) m.thresholds.hard with hless | hhard
  · exact iff_of_true (bounded_below call hless) fun h => absurd hless (not_lt.mpr h)
  · have hkeeps : KeepsBoundary m lastNoopAttempt call ↔
        shouldSkipNoopRetry lastNoopAttempt .hard call.ctx.tokens = false ∧
          ∀ report, (call.compactor true).1 = .report report false →
            loadOf m { call.ctx with tokens := (call.compactor true).2 } < m.thresholds.hard ∨
              m.thresholds.hard ≤ m.afterLoad (call.compactor true).2 :=
      ⟨fun h => h hhard, fun h _ => h⟩
    rw [hkeeps]
    cases hskip : shouldSkipNoopRetry lastNoopAttempt .hard call.ctx.tokens with
    | true =>
        rw [handler_skips henabled call hhard hskip]
        exact iff_of_false (not_lt.mpr hhard) fun h => nomatch h.1
    | false =>
        rw [handler_hard henabled call hhard hskip]
        have hfatal : m.fatalAt .hard = true := by simp [fatalAt, hmode]
        cases houtcome : (call.compactor true).1 with
        | throws =>
            simp only [compact, failed, hfatal, ↓reduceIte, Option.elim_some]
            exact iff_of_true rfl ⟨trivial, fun _ h => nomatch h⟩
        | report report appendThrows =>
            have hhonest := call.honest true report appendThrows houtcome
            cases appendThrows with
            | true =>
                simp only [compact, failed, hfatal, ↓reduceIte, Option.elim_some]
                exact iff_of_true rfl ⟨trivial, fun _ h => nomatch h⟩
            | false =>
                simp only [compact, hhonest, hfatal, Option.getD_some, Bool.and_true, Bool.false_eq_true, ↓reduceIte,
                  decide_eq_true_eq, ge_iff_le, true_and]
                by_cases hstill : m.thresholds.hard ≤ m.afterLoad (call.compactor true).2
                · simp only [hstill, ↓reduceIte, Option.elim_some]
                  exact iff_of_true rfl fun _ _ => .inr trivial
                · simp only [hstill, ↓reduceIte, Option.elim_none, or_false]
                  exact ⟨fun h _ _ => h, fun h => h report rfl⟩

/-- In a run every invocation that goes on does so below the hard threshold, and every other throws the overflow,
exactly if every invocation meets the condition. -/
theorem handler_bounded_iff (m : AutoCompactionMiddleware) (calls : List Call) (henabled : m.enabled = true)
    (hmode : m.failureMode = .throwOnHard) :
    (∀ pre call, pre ++ [call] <+: calls →
        Bounded m (m.handler (run (step m) none pre) call.ctx call.compactor).2) ↔
      Under (step m) (KeepsBoundary m) none calls := by
  rw [under_iff_forall_concat]
  exact forall_congr' fun pre => forall_congr' fun call => imp_congr_right fun _ => bounded_iff henabled hmode _ call

def window : AutoCompactionMiddleware :=
  { maxContext := 100000, thresholds := { warn := 60 / 100, soft := 75 / 100, hard := 90 / 100 } }

/-- A context that a compaction takes to so many tokens, at most those it had. -/
def shrinking (tokens after : Nat) : Call where
  ctx := { tokens := tokens }
  compactor _ := (.report { before := tokens, after := min after tokens, fullRequestTokensBefore := some tokens,
                            fullRequestTokensAfter := some (min after tokens) } false, min after tokens)
  shrinks _ := min_le_right ..
  honest _ _ _ h := by
    cases h
    rfl

theorem handler_bounded_compacts :
    Bounded window (window.handler none (shrinking 85000 50000).ctx (shrinking 85000 50000).compactor).2 :=
  (handler_bounded_iff window [shrinking 85000 50000] rfl rfl).mpr
    ⟨fun _ => ⟨rfl, fun _ _ => .inl (by decide +kernel)⟩, trivial⟩ [] _ (List.prefix_refl _)

/-- Nothing can be compacted: with 85000 tokens of 90000 available the handler goes on, and with 95000 it throws once
and goes on the next time. -/
theorem hard_goes_on :
    ¬Bounded window (window.handler none (shrinking 85000 85000).ctx (shrinking 85000 85000).compactor).2 ∧
      ¬Bounded window (window.handler (step window none (shrinking 95000 95000)) (shrinking 95000 95000).ctx
        (shrinking 95000 95000).compactor).2 := by
  rw [bounded_iff rfl rfl, bounded_iff rfl rfl]
  have hload : window.thresholds.hard ≤ loadOf window (shrinking 85000 85000).ctx ∧
      window.thresholds.hard ≤ loadOf window (shrinking 95000 95000).ctx := by decide +kernel
  constructor
  · intro h
    have hafter : ¬(loadOf window { (shrinking 85000 85000).ctx with tokens := 85000 } < window.thresholds.hard ∨
        window.thresholds.hard ≤ window.afterLoad 85000) := by decide +kernel
    exact hafter ((h hload.1).2 _ rfl)
  · intro h
    have hskip : shouldSkipNoopRetry (step window none (shrinking 95000 95000)) .hard 95000 = true := by decide +kernel
    have hnot := (h hload.2).1
    rw [show (shrinking 95000 95000).ctx.tokens = 95000 from rfl, hskip] at hnot
    cases hnot

end WrongStack.ContextWindow
