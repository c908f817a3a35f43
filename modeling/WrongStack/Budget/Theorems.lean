import Mathlib.Data.Rat.Floor
import Mathlib.Tactic.Linarith
import WrongStack.Lib.JsMap
import WrongStack.Lib.Run

/-!
# The budget of a subagent

`SubagentBudget` (`core/src/coordination/subagent-budget.ts`): the record methods and the negotiation
about exceeded limits. A call of a record method comes with the answers of the handler, which may
depend on anything. Numbers are exact. The two timeouts, which only `checkTimeout` looks at, and what
`requestDecision` sends over the bus are left out: the promise that a handler returns may settle at
any later time.
-/

namespace WrongStack.Budget

open Lib

/-! ## Limits and decisions -/

inductive BudgetKind
  | iterations | toolCalls | tokens | cost
  deriving DecidableEq

structure BudgetLimits where
  maxIterations : Option ℚ := none
  maxToolCalls : Option ℚ := none
  maxTokens : Option ℚ := none
  maxCostUsd : Option ℚ := none
  deriving DecidableEq

def BudgetLimits.of (limits : BudgetLimits) : BudgetKind → Option ℚ
  | .iterations => limits.maxIterations
  | .toolCalls => limits.maxToolCalls
  | .tokens => limits.maxTokens
  | .cost => limits.maxCostUsd

/-- Only the fields that are given. -/
def BudgetLimits.patch (limits ext : BudgetLimits) : BudgetLimits where
  maxIterations := ext.maxIterations.or limits.maxIterations
  maxToolCalls := ext.maxToolCalls.or limits.maxToolCalls
  maxTokens := ext.maxTokens.or limits.maxTokens
  maxCostUsd := ext.maxCostUsd.or limits.maxCostUsd

inductive BudgetNegotiationMode
  | auto | sync
  deriving DecidableEq

inductive BudgetThresholdDecision
  | «stop»
  | extend (ext : BudgetLimits)
  deriving DecidableEq

/-- What a handler does before it returns. -/
inductive Hook
  | extend (ext : BudgetLimits)
  | deny
  deriving DecidableEq

inductive HandlerResult
  | throw | «continue» | «stop»
  | extend (ext : BudgetLimits)
  | promise
  /-- The handler throws instead of returning. -/
  | raised
  deriving DecidableEq

structure Answer where
  hooks : List Hook := []
  result : HandlerResult
  deriving DecidableEq

def Answer.extensions (a : Answer) : List BudgetLimits :=
  a.hooks.filterMap fun
    | .extend ext => some ext
    | .deny => none

abbrev Answers := BudgetKind → Answer

structure Exceeded where
  kind : BudgetKind
  used : ℚ
  limit : ℚ
  deriving DecidableEq

inductive Negotiation
  | resolved (decision : BudgetThresholdDecision)
  | rejected
  | unsettled
  deriving DecidableEq

/-! ## The budget -/

inductive Microtask
  /-- `marker.finally` -/
  | clear (kind : BudgetKind)
  /-- After `await result`, where the handler returned no promise. -/
  | conclude (kind : BudgetKind) (decision : BudgetThresholdDecision)
  deriving DecidableEq

structure SubagentBudget where
  limits : BudgetLimits
  mode : BudgetNegotiationMode := .auto
  /-- Whether `onThreshold` is set. -/
  onThreshold : Bool
  /-- The bus, and whether something listens to `budget.threshold_reached`. -/
  events : Option Bool
  iterations : Nat := 0
  toolCalls : Nat := 0
  tokenInput : ℚ := 0
  tokenOutput : ℚ := 0
  costUsd : ℚ := 0
  pendingNegotiations : JsMap BudgetKind Negotiation := .empty
  microtasks : List Microtask := []
  /-- The negotiations that await the promise of a handler. -/
  awaiting : List BudgetKind := []

inductive CallOutcome
  | returned
  /-- `BudgetExceededError` -/
  | exceeded (entry : Exceeded)
  /-- `BudgetThresholdSignal` -/
  | signal (entry : Exceeded) (decision : Negotiation)
  | noNegotiation (kind : BudgetKind)
  /-- What the handler threw. -/
  | raised
  deriving DecidableEq

namespace SubagentBudget

variable (b : SubagentBudget)

def used : BudgetKind → ℚ
  | .iterations => b.iterations
  | .toolCalls => b.toolCalls
  | .tokens => b.tokenInput + b.tokenOutput
  | .cost => b.costUsd

def exceeded : List Exceeded :=
  [BudgetKind.iterations, .toolCalls, .tokens, .cost].filterMap fun kind =>
    match b.limits.of kind with
    | some limit => if b.used kind > limit then some { kind, used := b.used kind, limit } else none
    | none => none

def patchLimits (ext : BudgetLimits) : SubagentBudget := { b with limits := b.limits.patch ext }

def deletePending (kind : BudgetKind) : SubagentBudget :=
  { b with pendingNegotiations := b.pendingNegotiations.delete kind }

def setPending (kind : BudgetKind) (negotiation : Negotiation) : SubagentBudget :=
  { b with pendingNegotiations := b.pendingNegotiations.set kind negotiation }

/-- Up to its first `await`. Where it needs none, its `finally` runs before the caller has stored the
promise that it returns. -/
def negotiateExtension (kind : BudgetKind) (a : Answer) : SubagentBudget × Negotiation :=
  let b := a.extensions.foldl patchLimits b
  match a.result with
  | .throw => (b.deletePending kind, .resolved .stop)
  | .continue => (b.deletePending kind, .resolved (.extend {}))
  | .stop => ({ b with microtasks := b.microtasks ++ [.conclude kind .stop] }, .unsettled)
  | .extend ext => ({ b with microtasks := b.microtasks ++ [.conclude kind (.extend ext)] }, .unsettled)
  | .promise => ({ b with awaiting := b.awaiting ++ [kind] }, .unsettled)
  | .raised => (b.deletePending kind, .rejected)

/-- After `await result`; `none` where the promise was rejected. -/
def concludeNegotiation (kind : BudgetKind) (decision : Option BudgetThresholdDecision) :
    SubagentBudget :=
  match decision with
  | some (.extend ext) => (b.patchLimits ext).deletePending kind
  | some .stop | none => b.deletePending kind

/-- The loop of the listener-driven path. -/
def negotiate (answers : Answers) (entry : Exceeded) : SubagentBudget :=
  if b.pendingNegotiations.has entry.kind then b
  else
    let (b, promise) := b.negotiateExtension entry.kind (answers entry.kind)
    b.setPending entry.kind promise

/-- Whether the handler decided in place; `none` if it threw. -/
def invokeHandlerSync (a : Answer) : Option (SubagentBudget × Bool) :=
  match a.result with
  | .raised => none
  | .promise | .throw => some (b, false)
  | .extend ext => some (b.patchLimits ext, true)
  | .continue | .stop =>
      match a.extensions.getLast? with
      | some ext => some (b.patchLimits ext, true)
      | none => some (b, true)

/-- The marker for back-to-back overruns; a microtask deletes it. -/
def mark (kind : BudgetKind) : SubagentBudget :=
  { b.setPending kind (.resolved .stop) with microtasks := b.microtasks ++ [.clear kind] }

/-- The loop of the path without a listener. -/
def decideInPlace (answers : Answers) : List Exceeded → Option Exceeded → SubagentBudget →
    SubagentBudget × CallOutcome
  | [], none, b => (b, .returned)
  | [], some hardStop, b => (b, .exceeded hardStop)
  | entry :: rest, hardStop, b =>
      if b.pendingNegotiations.has entry.kind then decideInPlace answers rest hardStop b
      else
        let b := b.mark entry.kind
        match b.invokeHandlerSync (answers entry.kind) with
        | none => (b, .raised)
        | some (b, true) => decideInPlace answers rest hardStop b
        | some (b, false) => decideInPlace answers rest (hardStop.or (some entry)) b

def checkLimits (answers : Answers) : SubagentBudget × CallOutcome :=
  match b.exceeded with
  | [] => (b, .returned)
  | first :: rest =>
      if b.onThreshold = false then (b, .exceeded first)
      else if b.mode = .sync then (b, .exceeded first)
      else match b.events with
        | none => (b, .exceeded first)
        | some true =>
            let b := (first :: rest).foldl (fun b entry => b.negotiate answers entry) b
            match b.pendingNegotiations.get? first.kind with
            | some decision => (b, .signal first decision)
            | none => (b, .noNegotiation first.kind)
        | some false => decideInPlace answers (first :: rest) none b

def recordIteration (answers : Answers) : SubagentBudget × CallOutcome :=
  { b with iterations := b.iterations + 1 }.checkLimits answers

def recordToolCall (answers : Answers) : SubagentBudget × CallOutcome :=
  { b with toolCalls := b.toolCalls + 1 }.checkLimits answers

def recordUsage (input output costUsd : ℚ) (answers : Answers) : SubagentBudget × CallOutcome :=
  { b with
    tokenInput := b.tokenInput + input
    tokenOutput := b.tokenOutput + output
    costUsd := b.costUsd + costUsd }.checkLimits answers

end SubagentBudget

/-! ## Runs -/

inductive Op
  | recordIteration (answers : Answers)
  | recordToolCall (answers : Answers)
  | recordUsage (input output costUsd : ℚ) (answers : Answers)
  /-- From outside, or by a handler later on. -/
  | patchLimits (ext : BudgetLimits)
  | listen (attached : Bool)
  | microtask
  /-- The promise that a handler returned settles; `none` if it is rejected. -/
  | settle (kind : BudgetKind) (decision : Option BudgetThresholdDecision)

/-- The new state, and the outcome of a record call. -/
def perform (b : SubagentBudget) : Op → SubagentBudget × Option CallOutcome
  | .recordIteration answers => (b.recordIteration answers).map id some
  | .recordToolCall answers => (b.recordToolCall answers).map id some
  | .recordUsage input output costUsd answers =>
      (b.recordUsage input output costUsd answers).map id some
  | .patchLimits ext => (b.patchLimits ext, none)
  | .listen attached => ({ b with events := b.events.map fun _ => attached }, none)
  | .microtask =>
      match b.microtasks with
      | [] => (b, none)
      | .clear kind :: rest => ({ b with microtasks := rest }.deletePending kind, none)
      | .conclude kind decision :: rest =>
          ({ b with microtasks := rest }.concludeNegotiation kind (some decision), none)
  | .settle kind decision =>
      if kind ∈ b.awaiting then
        ({ b with awaiting := b.awaiting.erase kind }.concludeNegotiation kind decision, none)
      else (b, none)

def step (b : SubagentBudget) (op : Op) : SubagentBudget := (perform b op).1

end WrongStack.Budget

/-!
# Refusals

What the handler decided last about each kind is a history variable, the `Ledger`. A call that finds
no listener asks about the exceeded kinds that are not marked as pending, in order, and stops the
agent if one of them is answered by `'throw'` or by a promise.
-/

namespace WrongStack.Budget

open Lib

/-! ## Answers -/

def Answer.raises (a : Answer) : Bool := a.result == .raised

/-- `'throw'` or a promise. -/
def Answer.hardStops (a : Answer) : Bool := a.result == .throw || a.result == .promise

def Answer.denies (a : Answer) : Bool := a.hooks.any (· == .deny)

inductive Verdict
  | granted | refused
  deriving DecidableEq

/-- The decision in an answer. A promise decides nothing while there is a listener to decide it. -/
def Answer.verdict (listening : Bool) (a : Answer) : Option Verdict :=
  if a.denies then some .refused
  else match a.result with
    | .continue | .extend _ => some .granted
    | .throw | .stop => some .refused
    | .promise => if listening then none else some .refused
    | .raised => none

/-- What a call without a listener makes of the limits. -/
def Answer.extendInPlace (a : Answer) (limits : BudgetLimits) : BudgetLimits :=
  match a.result with
  | .extend ext => limits.patch ext
  | .continue | .stop => (a.extensions.getLast?).elim limits limits.patch
  | .throw | .promise | .raised => limits

def CallOutcome.stops : CallOutcome → Bool
  | .exceeded _ | .signal .. => true
  | _ => false

/-! ## The kinds that a call asks about -/

abbrev Ledger := BudgetKind → Option Verdict

namespace SubagentBudget

variable (b : SubagentBudget) (answers : Answers)

def exceeds (kind : BudgetKind) : Bool :=
  match b.limits.of kind with
  | some limit => b.used kind > limit
  | none => false

/-- Whether the handler is asked, and if so whether with a listener. -/
def asksWith : Option Bool := if b.onThreshold && b.mode == .auto then b.events else none

def unmarked (entries : List Exceeded) : List Exceeded :=
  entries.filter fun entry => !b.pendingNegotiations.has entry.kind

def asks : List BudgetKind := (b.unmarked b.exceeded).map Exceeded.kind

/-- The kinds that the handler decides about: without a listener, none after it has thrown. -/
def decides : List BudgetKind :=
  match b.asksWith with
  | none => []
  | some true => b.asks.filter fun kind => !(answers kind).raises
  | some false => b.asks.takeWhile fun kind => !(answers kind).raises

def noteCall (ledger : Ledger) : Ledger := fun kind =>
  if kind ∈ b.decides answers then (answers kind).verdict (b.asksWith == some true) else ledger kind

def extendedInPlace : BudgetLimits :=
  b.asks.foldl (fun limits kind => (answers kind).extendInPlace limits) b.limits

variable {b answers}

theorem exceeded_kinds :
    b.exceeded.map Exceeded.kind = [BudgetKind.iterations, .toolCalls, .tokens, .cost].filter b.exceeds := by
  rw [exceeded, List.map_filterMap, ← List.filterMap_eq_filter]
  refine congrArg (List.filterMap · _) (funext fun kind => ?_)
  show _ = if b.exceeds kind = true then some kind else none
  unfold exceeds
  cases b.limits.of kind with
  | none => rfl
  | some limit =>
      by_cases h : limit < b.used kind
      · simp [h]
      · simp [h]

theorem mem_exceeded_kinds {kind : BudgetKind} :
    kind ∈ b.exceeded.map Exceeded.kind ↔ b.exceeds kind = true := by
  rw [exceeded_kinds, List.mem_filter, and_iff_right]
  cases kind <;> decide

theorem nodup_exceeded_kinds : (b.exceeded.map Exceeded.kind).Nodup := by
  rw [exceeded_kinds]
  exact List.Nodup.filter _ (by decide)

theorem exceeded_eq_nil : b.exceeded = [] ↔ ∀ kind, b.exceeds kind = false := by
  rw [← List.map_eq_nil_iff (f := Exceeded.kind), List.eq_nil_iff_forall_not_mem]
  simp only [mem_exceeded_kinds, Bool.not_eq_true]

/-! ## The path without a listener -/

theorem invokeHandlerSync_eq (a : Answer) : b.invokeHandlerSync a =
    if a.raises then none else some ({ b with limits := a.extendInPlace b.limits }, !a.hardStops) := by
  obtain ⟨hooks, result⟩ := a
  cases result with
  | «continue» | «stop» =>
      simp only [invokeHandlerSync, Answer.extendInPlace]
      cases (Answer.extensions _).getLast? <;> rfl
  | _ => rfl

theorem unmarked_mark {entry : Exceeded} {rest : List Exceeded}
    (h : entry.kind ∉ rest.map Exceeded.kind) :
    (b.mark entry.kind).unmarked rest = b.unmarked rest := by
  refine List.filter_congr fun e he => ?_
  have hne : entry.kind ≠ e.kind := fun heq => h (heq ▸ List.mem_map_of_mem he)
  simp only [mark, setPending, JsMap.has, JsMap.get?_set, hne, ↓reduceIte]

/-- The handler is asked about the kinds that are not marked, and each has its own say. -/
theorem decideInPlace_eq (answers : Answers) (entries : List Exceeded) (hnodup : (entries.map Exceeded.kind).Nodup)
    (hardStop : Option Exceeded) (b : SubagentBudget) :
    let asked := b.unmarked entries
    let r := decideInPlace answers entries hardStop b
    (r.2 = if asked.any fun e => (answers e.kind).raises then .raised
      else match hardStop.or (asked.find? fun e => (answers e.kind).hardStops) with
        | some entry => .exceeded entry
        | none => .returned) ∧
    ((asked.any fun e => (answers e.kind).raises) = false →
      r.1.limits = asked.foldl (fun limits e => (answers e.kind).extendInPlace limits) b.limits ∧
        r.1.used = b.used) := by
  induction entries generalizing hardStop b with
  | nil =>
      cases hardStop <;> exact ⟨rfl, fun _ => ⟨rfl, rfl⟩⟩
  | cons entry rest ih =>
      obtain ⟨hnot, hrest⟩ := List.nodup_cons.mp hnodup
      simp only [decideInPlace]
      by_cases hmarked : b.pendingNegotiations.has entry.kind = true
      · have hunmarked : b.unmarked (entry :: rest) = b.unmarked rest := by
          simp [unmarked, hmarked]
        rw [if_pos hmarked, hunmarked]
        exact ih hrest hardStop b
      · have hunmarked : b.unmarked (entry :: rest) = entry :: b.unmarked rest := by
          simp [unmarked, hmarked]
        rw [if_neg hmarked, hunmarked]
        simp only [invokeHandlerSync_eq]
        cases hraises : (answers entry.kind).raises with
        | true => simp [hraises]
        | false =>
            have hsame : { b.mark entry.kind with
                limits := (answers entry.kind).extendInPlace b.limits }.unmarked rest = b.unmarked rest :=
              unmarked_mark hnot
            cases hstops : (answers entry.kind).hardStops with
            | true =>
                obtain ⟨hout, hlimits⟩ := ih hrest (hardStop.or (some entry))
                  { b.mark entry.kind with limits := (answers entry.kind).extendInPlace b.limits }
                rw [hsame] at hout hlimits
                simp only [List.any_cons, hraises, Bool.false_or, List.find?_cons, hstops,
                  List.foldl_cons]
                rw [Option.or_assoc, Option.some_or] at hout
                exact ⟨hout, hlimits⟩
            | false =>
                obtain ⟨hout, hlimits⟩ := ih hrest hardStop
                  { b.mark entry.kind with limits := (answers entry.kind).extendInPlace b.limits }
                rw [hsame] at hout hlimits
                simp only [List.any_cons, hraises, Bool.false_or, List.find?_cons, hstops,
                  List.foldl_cons]
                exact ⟨hout, hlimits⟩

/-! ## The path with a listener -/

theorem has_negotiateExtension {kind kind' : BudgetKind} (a : Answer) (hne : kind ≠ kind') :
    (b.negotiateExtension kind a).1.pendingNegotiations.has kind' = b.pendingNegotiations.has kind' := by
  have hpatch : ∀ (exts : List BudgetLimits) (b : SubagentBudget),
      (exts.foldl patchLimits b).pendingNegotiations = b.pendingNegotiations := by
    intro exts
    induction exts with
    | nil => exact fun _ => rfl
    | cons ext exts ih => exact fun b => ih (b.patchLimits ext)
  unfold negotiateExtension
  cases a.result <;> simp [deletePending, JsMap.has, JsMap.get?_delete, hne, hpatch]

theorem has_negotiate (entry : Exceeded) (kind : BudgetKind) :
    (b.negotiate answers entry).pendingNegotiations.has kind =
      (entry.kind == kind || b.pendingNegotiations.has kind) := by
  unfold negotiate
  by_cases hkind : entry.kind = kind
  · subst hkind
    split
    · simpa using ‹_›
    · simp [setPending, JsMap.has]
  · have hbeq : (entry.kind == kind) = false := by simpa using hkind
    rw [hbeq, Bool.false_or]
    split
    · rfl
    · refine Eq.trans ?_ (has_negotiateExtension (answers entry.kind) hkind)
      simp only [setPending, JsMap.has, JsMap.get?_set, hkind, ↓reduceIte]

theorem has_foldl_negotiate (answers : Answers) {kind : BudgetKind} (entries : List Exceeded) (b : SubagentBudget)
    (h : b.pendingNegotiations.has kind = true ∨ kind ∈ entries.map Exceeded.kind) :
    (entries.foldl (fun b entry => b.negotiate answers entry) b).pendingNegotiations.has kind = true := by
  induction entries generalizing b with
  | nil => simpa using h
  | cons entry entries ih =>
      refine ih (b.negotiate answers entry) ?_
      rw [has_negotiate]
      rcases h with h | h
      · exact Or.inl (by simp [h])
      · rcases List.mem_cons.mp h with rfl | h
        · exact Or.inl (by simp)
        · exact Or.inr h

/-! ## A call -/

/-- Nothing is over its limit, or the call stops the agent, or it finds no listener. -/
theorem checkLimits_cases (b : SubagentBudget) (answers : Answers) :
    ((∀ kind, b.exceeds kind = false) ∧ b.checkLimits answers = (b, .returned)) ∨
      (b.asksWith ≠ some false ∧ (b.checkLimits answers).2.stops = true) ∨
      (b.asksWith = some false ∧ b.checkLimits answers = decideInPlace answers b.exceeded none b) := by
  unfold checkLimits asksWith
  cases hex : b.exceeded with
  | nil => exact Or.inl ⟨exceeded_eq_nil.mp hex, rfl⟩
  | cons first rest =>
      right
      cases hthreshold : b.onThreshold with
      | false => exact Or.inl ⟨by simp, by simp [CallOutcome.stops]⟩
      | true =>
          cases hmode : b.mode with
          | sync => exact Or.inl ⟨by simp, by simp [CallOutcome.stops]⟩
          | auto =>
              cases hevents : b.events with
              | none => exact Or.inl ⟨by simp, by simp [CallOutcome.stops]⟩
              | some listening =>
                  cases listening with
                  | false => exact Or.inr ⟨by simp, by simp⟩
                  | true =>
                      refine Or.inl ⟨by simp, ?_⟩
                      have hfirst : first.kind ∈ (first :: rest).map Exceeded.kind := by simp
                      have hhas := has_foldl_negotiate answers (first :: rest) b (Or.inr hfirst)
                      obtain ⟨decision, hdecision⟩ := JsMap.has_iff.mp hhas
                      simp only [reduceCtorEq, ↓reduceIte, Bool.true_eq_false, hdecision, CallOutcome.stops]

end SubagentBudget

end WrongStack.Budget

/-!
# Budgets over whole runs
-/

namespace WrongStack.Budget

open Lib SubagentBudget

/-- The budget that a record call checks, with its counters raised, and the answers it gets. -/
def counted (b : SubagentBudget) : Op → Option (SubagentBudget × Answers)
  | .recordIteration answers => some ({ b with iterations := b.iterations + 1 }, answers)
  | .recordToolCall answers => some ({ b with toolCalls := b.toolCalls + 1 }, answers)
  | .recordUsage input output costUsd answers =>
      some ({ b with
        tokenInput := b.tokenInput + input
        tokenOutput := b.tokenOutput + output
        costUsd := b.costUsd + costUsd }, answers)
  | _ => none

theorem perform_counted {b b' : SubagentBudget} {op : Op} {answers : Answers}
    (h : counted b op = some (b', answers)) :
    perform b op = ((b'.checkLimits answers).1, some (b'.checkLimits answers).2) := by
  cases op <;> cases h <;> rfl

def ofDecision : Option BudgetThresholdDecision → Option Verdict
  | some .stop => some .refused
  | some (.extend _) => some .granted
  | none => none

/-- What the handler decided last about each kind. -/
def noteDecisions (ledger : Ledger) (b : SubagentBudget) (op : Op) : Ledger :=
  match counted b op, op with
  | some (b, answers), _ => b.noteCall answers ledger
  | none, .settle kind decision =>
      if kind ∈ b.awaiting then Function.update ledger kind (ofDecision decision) else ledger
  | none, _ => ledger

/-- A call that returns while a counter is over its limit has been allowed to, and as long as a kind
that was refused is over its limit, each call stops the agent. -/
def CallSound (s : SubagentBudget × Ledger) (op : Op) : Prop :=
  ∀ b' answers, counted s.1 op = some (b', answers) →
    ((perform s.1 op).2 = some .returned → ∀ kind, (step s.1 op).exceeds kind = true →
      noteDecisions s.2 s.1 op kind = some .granted) ∧
    ∀ kind, b'.exceeds kind = true → noteDecisions s.2 s.1 op kind = some .refused →
      ∃ outcome, (perform s.1 op).2 = some outcome ∧ outcome.stops = true

/-- Without a listener to ask, and if the handler throws nothing itself: it is asked about some kind
and answers by `'throw'` or by a promise, or its last decision about each exceeded kind is no
refusal and that about each kind which is over its limit with the extensions of this call is a
grant. -/
def RefusalHeeded (s : SubagentBudget × Ledger) (op : Op) : Prop :=
  ∀ b' answers, counted s.1 op = some (b', answers) → b'.asksWith = some false →
    let ledger := b'.noteCall answers s.2
    if b'.asks.any fun kind => (answers kind).raises then
      ∀ kind, b'.exceeds kind = true → ledger kind ≠ some .refused
    else (∃ kind ∈ b'.asks, (answers kind).hardStops = true) ∨
      (∀ kind, b'.exceeds kind = true → ledger kind ≠ some .refused) ∧
        ∀ kind, { b' with limits := b'.extendedInPlace answers }.exceeds kind = true →
          ledger kind = some .granted

theorem callSound_iff (s : SubagentBudget × Ledger) (op : Op) :
    CallSound s op ↔ RefusalHeeded s op := by
  unfold CallSound RefusalHeeded
  refine forall₃_congr fun b' answers hcounted => ?_
  have hnote : noteDecisions s.2 s.1 op = b'.noteCall answers s.2 := by
    simp only [noteDecisions, hcounted]
  rw [step, perform_counted hcounted, hnote]
  simp only [Option.some.injEq, exists_eq_left']
  rcases checkLimits_cases b' answers with ⟨hnone, hcheck⟩ | ⟨hasks, hstops⟩ | ⟨hasks, hcheck⟩
  · have hexceeded : b'.asks = [] := by
      simp [asks, exceeded_eq_nil.mpr hnone, unmarked]
    rw [hcheck]
    simp [hnone, hexceeded, extendedInPlace]
  · refine iff_of_true ⟨fun hreturned => ?_, fun _ _ _ => hstops⟩ fun h => absurd h hasks
    rw [hreturned] at hstops
    cases hstops
  · obtain ⟨hout, hlimits⟩ := decideInPlace_eq answers b'.exceeded nodup_exceeded_kinds none b'
    have hany : (b'.asks.any fun kind => (answers kind).raises) =
        (b'.unmarked b'.exceeded).any fun entry => (answers entry.kind).raises := List.any_map
    rw [hcheck, hany]
    cases hraises : (b'.unmarked b'.exceeded).any fun entry => (answers entry.kind).raises with
    | true =>
        rw [hraises, if_pos rfl] at hout
        simp [hout, hasks, CallOutcome.stops]
    | false =>
        obtain ⟨hlimits, hused⟩ := hlimits hraises
        have hexceeds : ∀ kind, (decideInPlace answers b'.exceeded none b').1.exceeds kind =
            { b' with limits := b'.extendedInPlace answers }.exceeds kind := by
          intro kind
          unfold exceeds extendedInPlace asks
          rw [hlimits, hused, List.foldl_map]
          rfl
        rw [hraises, if_neg Bool.false_ne_true, Option.none_or] at hout
        cases hfind : (b'.unmarked b'.exceeded).find? fun entry => (answers entry.kind).hardStops with
        | some entry =>
            rw [hfind] at hout
            have hstop : ∃ kind ∈ b'.asks, (answers kind).hardStops = true :=
              ⟨entry.kind, List.mem_map_of_mem (List.mem_of_find?_eq_some hfind),
                by simpa using List.find?_some hfind⟩
            simp [hout, hstop, CallOutcome.stops]
        | none =>
            rw [hfind] at hout
            have hgo : ¬ ∃ kind ∈ b'.asks, (answers kind).hardStops = true := by
              rintro ⟨kind, hkind, hstop⟩
              obtain ⟨entry, hentry, rfl⟩ := List.mem_map.mp hkind
              exact List.find?_eq_none.mp hfind entry hentry hstop
            simp only [hout, hasks, hexceeds, hgo, CallOutcome.stops, Bool.false_eq_true, ↓reduceIte,
              forall_const, false_or, ne_eq, imp_false]
            exact and_comm

/-! ## Runs -/

/-- A new budget, and no decision yet. -/
def fresh (limits : BudgetLimits) (mode : BudgetNegotiationMode) (onThreshold : Bool)
    (events : Option Bool) : SubagentBudget × Ledger :=
  ({ limits, mode, onThreshold, events }, fun _ => none)

end WrongStack.Budget
