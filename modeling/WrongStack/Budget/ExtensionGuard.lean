import Mathlib.Algebra.Order.Floor.Ring
import Mathlib.Data.Rat.Floor
import WrongStack.Lib.JsMap
import WrongStack.Lib.Regex
import WrongStack.Lib.Run

/-!
# The director's extension guard

The `budget.threshold_reached` handler of `Director` (`core/src/coordination/director.ts`). What waits for the brain
or for `setImmediate` waits for any time, and events, tasks and callbacks come in any order. Amounts are exact
numbers.
-/

namespace WrongStack.ExtensionGuard

open Lib

inductive Kind
  | timeout | idleTimeout | iterations | toolCalls | tokens | cost
  deriving DecidableEq

def Kind.name : Kind → JsString
  | timeout => js "timeout"
  | idleTimeout => js "idle_timeout"
  | iterations => js "iterations"
  | toolCalls => js "tool_calls"
  | tokens => js "tokens"
  | cost => js "cost"

def Kind.timed : Kind → Bool
  | timeout | idleTimeout => true
  | iterations | toolCalls | tokens | cost => false

/-- A `budget.threshold_reached` event. -/
structure Threshold where
  subagentId : JsString
  taskId : Option JsString := none
  kind : Kind
  used : ℚ
  limit : ℚ
  deriving DecidableEq

structure Options where
  maxBudgetExtensions : Nat := 5
  /-- `none` is `Infinity`. -/
  maxFleetCostUsd : Option ℚ := none
  brain : Bool := false

inductive Refusal
  | noProgress | guard | fleetCost | brain
  deriving DecidableEq

/-- What the director does to an event, and the tasks around it. -/
inductive Entry
  | started (subagentId : JsString)
  | finished (subagentId : JsString)
  /-- `recordExtension` and `payload.extend` -/
  | extended (subagentId : JsString) (kind : Kind) (field : String) (newLimit : ℚ) (totalExtensions : Nat)
  /-- `payload.deny` -/
  | denied (subagentId : JsString) (kind : Kind) (refusal : Refusal)
  deriving DecidableEq

/-- What has been read of the counts is kept in the closure. -/
inductive Waiting
  | brain (e : Threshold) (prior : Nat)
  | immediate (e : Threshold) (prior : Nat)
  | immediateTimed (e : Threshold)
  deriving DecidableEq

structure Director where
  extendCounts : JsMap JsString Nat := .empty
  progressBySubagent : JsMap JsString Nat := .empty
  lastTimeoutProgress : JsMap JsString Nat := .empty
  extendTotals : JsMap JsString Nat := .empty
  waiting : JsMap Nat Waiting := .empty
  next : Nat := 0
  /-- newest first -/
  log : List Entry := []

/-- What the brain's promise settles with. -/
inductive Verdict
  | answer (optionId : Option JsString) (text : JsString)
  | askHuman
  | deny
  | rejected

/-- `` `${subagentId}:${kind}` `` -/
def guardKey (subagentId : JsString) (kind : Kind) : JsString := subagentId ++ unit ':' :: kind.name

def isCollab (subagentId : JsString) : Bool :=
  (js "bug-hunter-").isPrefixOf subagentId || (js "refactor-planner-").isPrefixOf subagentId ||
    (js "critic-").isPrefixOf subagentId

/-- `/\bstop\b/i` -/
def stopWord : Regex := .ignoreCase (.concat [.wordBoundary, .lit "stop", .wordBoundary])

def Verdict.refuses : Verdict → Bool
  | answer optionId text => optionId == some (js "stop") || stopWord.test text
  | askHuman | deny | rejected => true

/-- The new limit of an extension, and the field that carries it. -/
def Threshold.granted (e : Threshold) : String × ℚ :=
  let base := max e.limit e.used
  let grow (ceiling : ℚ) : ℚ := min ⌈base * (3 / 2)⌉ ceiling
  match e.kind with
  | .iterations => ("maxIterations", grow 50000)
  | .toolCalls => ("maxToolCalls", grow 100000)
  | .tokens => ("maxTokens", grow 5000000)
  | .cost => ("maxCostUsd", min (base * (3 / 2)) 100)
  | .timeout => ("timeoutMs", min ⌈e.limit * 2⌉ 86400000)
  | .idleTimeout => ("idleTimeoutMs", min ⌈e.limit * 2⌉ 86400000)

namespace Director

variable (d : Director)

def count (subagentId : JsString) (kind : Kind) : Nat := (d.extendCounts.get? (guardKey subagentId kind)).getD 0

def wait (w : Waiting) : Director := { d with waiting := d.waiting.set d.next w, next := d.next + 1 }

def deny (e : Threshold) (refusal : Refusal) : Director :=
  { d with log := .denied e.subagentId e.kind refusal :: d.log }

def extend (e : Threshold) : Director :=
  let total := (d.extendTotals.get? e.subagentId).getD 0 + 1
  { d with
    extendTotals := d.extendTotals.set e.subagentId total
    log := .extended e.subagentId e.kind e.granted.1 e.granted.2 total :: d.log }

end Director

variable (options : Options)

/-- Both timeout kinds are governed by the heartbeat. -/
def onTimed (d : Director) (e : Threshold) : Director :=
  let heartbeatKey := guardKey e.subagentId e.kind
  let progress := (d.progressBySubagent.get? e.subagentId).getD 0
  let lastProgress : Int := ((d.lastTimeoutProgress.get? heartbeatKey).map Int.ofNat).getD (-1)
  if progress ≤ lastProgress then d.deny e .noProgress
  else { d with lastTimeoutProgress := d.lastTimeoutProgress.set heartbeatKey progress }.wait (.immediateTimed e)

/-- The handler; `totalCost` is the fleet's cost at the moment. -/
def onThreshold (d : Director) (e : Threshold) (totalCost : ℚ) : Director :=
  if isCollab e.subagentId then d
  else if e.kind.timed then onTimed d e
  else
    let prior := d.count e.subagentId e.kind
    if options.maxBudgetExtensions ≤ prior then
      let d := d.deny e .guard
      { d with extendCounts := d.extendCounts.delete (guardKey e.subagentId e.kind) }
    else if e.kind = .cost && options.maxFleetCostUsd.any (· ≤ totalCost) then d.deny e .fleetCost
    else if options.brain then d.wait (.brain e prior)
    else d.wait (.immediate e prior)

def onDecided (d : Director) (n : Nat) (verdict : Verdict) : Director :=
  match d.waiting.get? n with
  | some (.brain e prior) =>
      let d := { d with waiting := d.waiting.delete n }
      if verdict.refuses then d.deny e .brain else d.wait (.immediate e prior)
  | _ => d

def onImmediate (d : Director) (n : Nat) : Director :=
  match d.waiting.get? n with
  | some (.immediate e prior) =>
      let d := { d with
        waiting := d.waiting.delete n
        extendCounts := d.extendCounts.set (guardKey e.subagentId e.kind) (prior + 1) }
      d.extend e
  | some (.immediateTimed e) => { d with waiting := d.waiting.delete n }.extend e
  | _ => d

inductive Op
  | started (subagentId : JsString)
  | finished (subagentId : JsString)
  | toolExecuted (subagentId : JsString)
  | threshold (e : Threshold) (totalCost : ℚ)
  | decided (n : Nat) (verdict : Verdict)
  | immediate (n : Nat)

def step (d : Director) : Op → Director
  | .started subagentId => { d with log := .started subagentId :: d.log }
  | .finished subagentId => { d with log := .finished subagentId :: d.log }
  | .toolExecuted subagentId =>
      let progress := (d.progressBySubagent.get? subagentId).getD 0
      { d with progressBySubagent := d.progressBySubagent.set subagentId (progress + 1) }
  | .threshold e totalCost => onThreshold options d e totalCost
  | .decided n verdict => onDecided d n verdict
  | .immediate n => onImmediate d n

/-! ## Tasks in the log -/

/-- The entries since the latest task of the subagent was started. -/
def sinceStart (log : List Entry) (subagentId : JsString) : List Entry :=
  log.takeWhile fun x => decide (x ≠ .started subagentId)

/-- A task of the subagent has been started and not finished since. -/
def running (log : List Entry) (subagentId : JsString) : Prop :=
  .started subagentId ∈ log ∧ .finished subagentId ∉ sinceStart log subagentId

def isGrant (subagentId : JsString) (kind : Kind) : Entry → Bool
  | .extended subagentId' kind' _ _ _ => subagentId' == subagentId && kind' == kind
  | _ => false

def grantsSince (log : List Entry) (subagentId : JsString) (kind : Kind) : Nat :=
  (sinceStart log subagentId).countP (isGrant subagentId kind)

/-- The guard has denied an event of this kind since the task was started. -/
def guarded (log : List Entry) (subagentId : JsString) (kind : Kind) : Prop :=
  .denied subagentId kind .guard ∈ sinceStart log subagentId

/-- Between the start and the end of a task at most `max` extensions of one kind are granted. -/
def Bounded (max : Nat) (log : List Entry) : Prop :=
  ∀ subagentId kind, kind.timed = false → running log subagentId → grantsSince log subagentId kind ≤ max

/-- The guard denies an event only after `max` extensions of its kind in the current task. -/
def Justified (max : Nat) (log : List Entry) : Prop :=
  ∀ subagentId kind earlier, .denied subagentId kind .guard :: earlier <:+ log → running earlier subagentId →
    max ≤ grantsSince earlier subagentId kind

/-- The branches that count wrong are not taken: a task starts with no count left of an earlier one, and a grant
finds the count as its event has read it, with no denial of the guard in between. -/
def Undisturbed (d : Director) : Op → Prop
  | .started subagentId => ∀ kind, d.count subagentId kind = 0
  | .immediate n =>
      match d.waiting.get? n with
      | some (.immediate e prior) => d.count e.subagentId e.kind = prior ∧ ¬ guarded d.log e.subagentId e.kind
      | _ => True
  | _ => True

variable {options} {d d' : Director} {log : List Entry} {subagentId s : JsString} {kind k : Kind} {x : Entry}
  {e : Threshold}

/-! ## Keys -/

theorem name_injective (h : k.name = kind.name) : k = kind := by
  revert h
  cases k <;> cases kind <;> decide

theorem colon_not_mem_name (kind : Kind) : unit ':' ∉ kind.name := by
  cases kind <;> decide

/-- A subagent and a kind have a key of their own: a kind's name has no colon. -/
theorem guardKey_injective (h : guardKey s k = guardKey subagentId kind) : s = subagentId ∧ k = kind := by
  have hname : ∀ (a n : JsString), unit ':' ∉ n →
      (a ++ unit ':' :: n).reverse.takeWhile (· != unit ':') = n.reverse ∧
        (a ++ unit ':' :: n).reverse.dropWhile (· != unit ':') = unit ':' :: a.reverse := by
    intro a n hn
    have hother : ∀ c ∈ n.reverse, (c != unit ':') = true := by
      intro c hc
      rw [bne_iff_ne]
      rintro rfl
      exact hn (List.mem_reverse.mp hc)
    rw [List.reverse_append, List.reverse_cons, List.append_assoc, List.singleton_append]
    constructor
    · rw [List.takeWhile_append_of_pos hother, List.takeWhile_cons_of_neg (by simp), List.append_nil]
    · rw [List.dropWhile_append_of_pos hother, List.dropWhile_cons_of_neg (by simp)]
  obtain ⟨htake, hdrop⟩ := hname s k.name (colon_not_mem_name k)
  obtain ⟨htake', hdrop'⟩ := hname subagentId kind.name (colon_not_mem_name kind)
  unfold guardKey at h
  rw [h, htake'] at htake
  rw [h, hdrop'] at hdrop
  refine ⟨List.reverse_inj.mp (List.cons.inj hdrop).2.symm, name_injective (List.reverse_inj.mp htake.symm)⟩

theorem count_set (n : Nat) (h : d'.extendCounts = d.extendCounts.set (guardKey s k) n) :
    d'.count subagentId kind = if s = subagentId ∧ k = kind then n else d.count subagentId kind := by
  rw [Director.count, h, JsMap.get?_set]
  by_cases hkey : s = subagentId ∧ k = kind
  · obtain ⟨rfl, rfl⟩ := hkey
    simp
  · rw [if_neg hkey, if_neg fun heq => hkey (guardKey_injective heq)]
    rfl

theorem count_delete (h : d'.extendCounts = d.extendCounts.delete (guardKey s k)) :
    d'.count subagentId kind = if s = subagentId ∧ k = kind then 0 else d.count subagentId kind := by
  rw [Director.count, h, JsMap.get?_delete]
  by_cases hkey : s = subagentId ∧ k = kind
  · obtain ⟨rfl, rfl⟩ := hkey
    simp
  · rw [if_neg hkey, if_neg fun heq => hkey (guardKey_injective heq)]
    rfl

/-! ## One entry more -/

theorem sinceStart_cons (h : x ≠ .started subagentId) : sinceStart (x :: log) subagentId = x :: sinceStart log subagentId :=
  List.takeWhile_cons_of_pos (by simpa using h)

theorem sinceStart_started : sinceStart (.started subagentId :: log) subagentId = [] :=
  List.takeWhile_cons_of_neg (by simp)

theorem grantsSince_cons (h : x ≠ .started subagentId) : grantsSince (x :: log) subagentId kind =
    grantsSince log subagentId kind + if isGrant subagentId kind x then 1 else 0 := by
  rw [grantsSince, sinceStart_cons h, List.countP_cons]
  rfl

theorem guarded_cons (h : x ≠ .started subagentId) :
    guarded (x :: log) subagentId kind ↔ x = .denied subagentId kind .guard ∨ guarded log subagentId kind := by
  rw [guarded, sinceStart_cons h, List.mem_cons, guarded]
  exact or_congr_left eq_comm

/-- Other entries than those of its tasks leave a subagent running. -/
theorem running_cons (h : x ≠ .started subagentId) (h' : x ≠ .finished subagentId) :
    running (x :: log) subagentId ↔ running log subagentId := by
  rw [running, running, sinceStart_cons h, List.mem_cons, List.mem_cons]
  simp [h.symm, h'.symm]

theorem not_running_finished : ¬ running (.finished subagentId :: log) subagentId := by
  rw [running, sinceStart_cons (by simp)]
  simp

/-! ## The invariant -/

/-- While a task runs, the guard's count is the number of extensions since its start, until the guard has denied
an event of this kind; from then on it is 0. -/
structure Counted (max : Nat) (d : Director) (subagentId : JsString) (kind : Kind) : Prop where
  bounded : running d.log subagentId → grantsSince d.log subagentId kind ≤ max
  open' : running d.log subagentId → ¬ guarded d.log subagentId kind →
    d.count subagentId kind = grantsSince d.log subagentId kind
  closed : running d.log subagentId → guarded d.log subagentId kind → d.count subagentId kind = 0

structure Inv (max : Nat) (d : Director) : Prop where
  counted : ∀ subagentId kind, kind.timed = false → Counted max d subagentId kind
  justified : Justified max d.log
  /-- What waits for its extension was let through by the guard. -/
  waiting : ∀ n e prior, (d.waiting.get? n = some (.brain e prior) ∨ d.waiting.get? n = some (.immediate e prior)) →
    prior < max

theorem Counted.same {max : Nat} (h : Counted max d subagentId kind) (hlog : d'.log = d.log)
    (hcount : d'.count subagentId kind = d.count subagentId kind) : Counted max d' subagentId kind where
  bounded := by rw [hlog]; exact h.bounded
  open' := by rw [hlog, hcount]; exact h.open'
  closed := by rw [hlog, hcount]; exact h.closed

/-- An entry that is neither a task's nor an extension nor a denial of the guard for this kind. -/
theorem Counted.other {max : Nat} (h : Counted max d subagentId kind) (hlog : d'.log = x :: d.log)
    (hcount : d'.count subagentId kind = d.count subagentId kind) (hs : x ≠ .started subagentId)
    (hgrant : isGrant subagentId kind x = false) (hguard : x ≠ .denied subagentId kind .guard) :
    Counted max d' subagentId kind := by
  by_cases hf : x = .finished subagentId
  · subst hf
    have hnot : ¬ running d'.log subagentId := by
      rw [hlog]
      exact not_running_finished
    exact ⟨fun hrun => absurd hrun hnot, fun hrun => absurd hrun hnot, fun hrun => absurd hrun hnot⟩
  · have hgrants : grantsSince d'.log subagentId kind = grantsSince d.log subagentId kind := by
      rw [hlog, grantsSince_cons hs, hgrant]
      simp
    have hrunning : running d'.log subagentId ↔ running d.log subagentId := by
      rw [hlog, running_cons hs hf]
    have hguarded : guarded d'.log subagentId kind ↔ guarded d.log subagentId kind := by
      rw [hlog, guarded_cons hs]
      simp [hguard]
    constructor
    · rw [hrunning, hgrants]
      exact h.bounded
    · rw [hrunning, hguarded, hgrants, hcount]
      exact h.open'
    · rw [hrunning, hguarded, hcount]
      exact h.closed

theorem Justified.cons {max : Nat} (h : Justified max log)
    (hx : ∀ subagentId kind, x = .denied subagentId kind .guard → running log subagentId →
      max ≤ grantsSince log subagentId kind) : Justified max (x :: log) := by
  intro subagentId kind earlier hsuffix hrun
  rcases List.suffix_cons_iff.mp hsuffix with heq | hsuffix
  · obtain ⟨rfl, rfl⟩ := List.cons.inj heq
    exact hx subagentId kind rfl hrun
  · exact h subagentId kind earlier hsuffix hrun

theorem Inv.same {max : Nat} (h : Inv max d) (hlog : d'.log = d.log) (hcounts : d'.extendCounts = d.extendCounts)
    (hwaiting : d'.waiting = d.waiting) : Inv max d' where
  counted subagentId kind hk := (h.counted subagentId kind hk).same hlog (by rw [Director.count, hcounts]; rfl)
  justified := by
    rw [hlog]
    exact h.justified
  waiting := by
    rw [hwaiting]
    exact h.waiting

theorem Inv.wait {max : Nat} (h : Inv max d) (w : Waiting)
    (hw : ∀ e prior, w = .brain e prior ∨ w = .immediate e prior → prior < max) :
    Inv max (d.wait w) where
  counted subagentId kind hkind := (h.counted subagentId kind hkind).same rfl rfl
  justified := h.justified
  waiting n e prior hn := by
    simp only [Director.wait, JsMap.get?_set] at hn
    by_cases heq : d.next = n
    · simp only [heq, if_true, Option.some.injEq] at hn
      exact hw e prior hn
    · simp only [heq, if_false] at hn
      exact h.waiting n e prior hn

theorem Inv.take {max : Nat} (h : Inv max d) (n : Nat) : Inv max { d with waiting := d.waiting.delete n } where
  counted subagentId kind hkind := (h.counted subagentId kind hkind).same rfl rfl
  justified := h.justified
  waiting m e prior hm := by
    simp only [JsMap.get?_delete] at hm
    by_cases heq : n = m
    · simp [heq] at hm
    · simp only [heq, if_false] at hm
      exact h.waiting m e prior hm

theorem Inv.deny {max : Nat} (h : Inv max d) (e : Threshold) {refusal : Refusal} (hr : refusal ≠ .guard) :
    Inv max (d.deny e refusal) where
  counted subagentId kind hkind :=
    (h.counted subagentId kind hkind).other (x := .denied e.subagentId e.kind refusal) rfl rfl (by simp) rfl
      (by simp [hr])
  justified := h.justified.cons fun subagentId kind heq => absurd (Entry.denied.inj heq).2.2 hr
  waiting := h.waiting

theorem Inv.extendTimed {max : Nat} (h : Inv max d) (htimed : e.kind.timed = true) : Inv max (d.extend e) where
  counted subagentId kind hkind := by
    refine (h.counted subagentId kind hkind).other (x := .extended e.subagentId e.kind e.granted.1 e.granted.2 _)
      rfl rfl (by simp) ?_ (by simp)
    simp only [isGrant, Bool.and_eq_false_iff, beq_eq_false_iff_ne]
    right
    rintro rfl
    rw [hkind] at htimed
    cases htimed
  justified := h.justified.cons fun subagentId kind heq => by cases heq
  waiting := h.waiting

theorem Inv.guard {max : Nat} (h : Inv max d) (hkind : e.kind.timed = false)
    (hcount : max ≤ d.count e.subagentId e.kind) :
    Inv max { d.deny e .guard with extendCounts := d.extendCounts.delete (guardKey e.subagentId e.kind) } where
  counted subagentId kind hk := by
    have hdelete : { d.deny e .guard with
        extendCounts := d.extendCounts.delete (guardKey e.subagentId e.kind) }.count subagentId kind =
          if e.subagentId = subagentId ∧ e.kind = kind then 0 else d.count subagentId kind := count_delete rfl
    by_cases hkey : e.subagentId = subagentId ∧ e.kind = kind
    · obtain ⟨rfl, rfl⟩ := hkey
      rw [if_pos ⟨rfl, rfl⟩] at hdelete
      have hstart : Entry.denied e.subagentId e.kind .guard ≠ .started e.subagentId := by simp
      refine ⟨fun hrun => ?_, fun hrun hopen => ?_, fun _ _ => hdelete⟩
      · have hrun' := (running_cons hstart (by simp)).mp hrun
        have hbound := (h.counted _ _ hk).bounded hrun'
        change grantsSince (.denied e.subagentId e.kind .guard :: d.log) e.subagentId e.kind ≤ max
        rw [grantsSince_cons hstart]
        simpa [isGrant] using hbound
      · exact absurd ((guarded_cons hstart).mpr (Or.inl rfl)) hopen
    · rw [if_neg hkey] at hdelete
      refine (h.counted subagentId kind hk).other (x := .denied e.subagentId e.kind .guard) rfl hdelete (by simp) rfl ?_
      intro heq
      obtain ⟨h1, h2, -⟩ := Entry.denied.inj heq
      exact hkey ⟨h1, h2⟩
  justified := by
    refine h.justified.cons fun subagentId kind heq hrun => ?_
    obtain ⟨rfl, rfl, -⟩ := Entry.denied.inj heq
    have hcounted := h.counted e.subagentId e.kind hkind
    by_cases hg : guarded d.log e.subagentId e.kind
    · rw [hcounted.closed hrun hg] at hcount
      exact hcount.trans (Nat.zero_le _)
    · rwa [hcounted.open' hrun hg] at hcount
  waiting := h.waiting

theorem Inv.extend {max prior : Nat} (h : Inv max d) (hprior : prior < max)
    (hread : d.count e.subagentId e.kind = prior) (hopen : ¬ guarded d.log e.subagentId e.kind) :
    Inv max ({ d with extendCounts := d.extendCounts.set (guardKey e.subagentId e.kind) (prior + 1) }.extend e) where
  counted subagentId kind hk := by
    have hset : ({ d with extendCounts := d.extendCounts.set (guardKey e.subagentId e.kind) (prior + 1) }.extend
        e).count subagentId kind =
          if e.subagentId = subagentId ∧ e.kind = kind then prior + 1 else d.count subagentId kind :=
      count_set (prior + 1) rfl
    by_cases hkey : e.subagentId = subagentId ∧ e.kind = kind
    · obtain ⟨rfl, rfl⟩ := hkey
      rw [if_pos ⟨rfl, rfl⟩] at hset
      have hcounted := h.counted e.subagentId e.kind hk
      have hstep : ∀ total, running (.extended e.subagentId e.kind e.granted.1 e.granted.2 total :: d.log) e.subagentId →
          grantsSince (.extended e.subagentId e.kind e.granted.1 e.granted.2 total :: d.log) e.subagentId e.kind =
            prior + 1 := by
        intro total hrun
        have hrun' := (running_cons (by simp) (by simp)).mp hrun
        rw [grantsSince_cons (by simp), ← hcounted.open' hrun' hopen, hread]
        simp [isGrant]
      refine ⟨fun hrun => ?_, fun hrun _ => ?_, fun hrun hg => ?_⟩
      · exact (hstep _ hrun).trans_le hprior
      · exact hset.trans (hstep _ hrun).symm
      · rcases (guarded_cons (by simp)).mp hg with heq | hg
        · cases heq
        · exact absurd hg hopen
    · rw [if_neg hkey] at hset
      refine (h.counted subagentId kind hk).other (x := .extended e.subagentId e.kind e.granted.1 e.granted.2 _)
        rfl hset (by simp) ?_ (by simp)
      simp only [isGrant, Bool.and_eq_false_iff, beq_eq_false_iff_ne]
      rw [← not_and_or]
      exact hkey
  justified := h.justified.cons fun subagentId kind heq => by cases heq
  waiting := h.waiting

theorem Inv.started {max : Nat} (h : Inv max d) (s : JsString) (hfresh : ∀ kind, d.count s kind = 0) :
    Inv max { d with log := .started s :: d.log } where
  counted subagentId kind hk := by
    by_cases hs : s = subagentId
    · subst hs
      have hnone : ¬ guarded (.started s :: d.log) s kind := by
        rw [guarded, sinceStart_started]
        exact List.not_mem_nil
      have hzero : grantsSince (.started s :: d.log) s kind = 0 := by
        rw [grantsSince, sinceStart_started]
        rfl
      exact ⟨fun _ => hzero.trans_le (Nat.zero_le max), fun _ _ => (hfresh kind).trans hzero.symm,
        fun _ hg => absurd hg hnone⟩
    · exact (h.counted subagentId kind hk).other (x := .started s) rfl rfl (by simp [hs]) rfl (by simp)
  justified := h.justified.cons fun subagentId kind heq => by cases heq
  waiting := h.waiting

theorem Inv.finished {max : Nat} (h : Inv max d) (s : JsString) : Inv max { d with log := .finished s :: d.log } where
  counted subagentId kind hk :=
    (h.counted subagentId kind hk).other (x := .finished s) rfl rfl (by simp) rfl (by simp)
  justified := h.justified.cons fun subagentId kind heq => by cases heq
  waiting := h.waiting

theorem inv_onTimed {max : Nat} (h : Inv max d) (e : Threshold) : Inv max (onTimed d e) := by
  unfold onTimed
  dsimp only
  split
  · exact h.deny e (by simp)
  · refine Inv.wait ?_ _ (by simp)
    exact h.same rfl rfl rfl

theorem inv_onThreshold (h : Inv options.maxBudgetExtensions d) (e : Threshold) (totalCost : ℚ) :
    Inv options.maxBudgetExtensions (onThreshold options d e totalCost) := by
  unfold onThreshold
  split
  · exact h
  · split
    · exact inv_onTimed h e
    · rename_i htimed
      have hkind : e.kind.timed = false := by simpa using htimed
      dsimp only
      split
      · rename_i hcount
        exact h.guard hkind hcount
      · rename_i hcount
        have hprior : d.count e.subagentId e.kind < options.maxBudgetExtensions := Nat.lt_of_not_le hcount
        split
        · exact h.deny e (by simp)
        · split
          · refine h.wait _ fun e' prior hw => ?_
            obtain ⟨rfl, rfl⟩ : e = e' ∧ d.count e.subagentId e.kind = prior := by simpa using hw
            exact hprior
          · refine h.wait _ fun e' prior hw => ?_
            obtain ⟨rfl, rfl⟩ : e = e' ∧ d.count e.subagentId e.kind = prior := by simpa using hw
            exact hprior

theorem inv_onDecided {max : Nat} (h : Inv max d) (n : Nat) (verdict : Verdict) : Inv max (onDecided d n verdict) := by
  unfold onDecided
  split
  · rename_i e prior hn
    dsimp only
    split
    · exact (h.take n).deny e (by simp)
    · refine (h.take n).wait _ fun e' prior' hw => ?_
      obtain ⟨rfl, rfl⟩ : e = e' ∧ prior = prior' := by simpa using hw
      exact h.waiting n e prior (Or.inl hn)
  · exact h

theorem inv_onImmediate {max : Nat} (h : Inv max d) (n : Nat) (hc : Undisturbed d (.immediate n))
    (htimed : ∀ e, d.waiting.get? n = some (.immediateTimed e) → e.kind.timed = true) :
    Inv max (onImmediate d n) := by
  unfold onImmediate
  split
  · rename_i e prior hn
    have hprior := h.waiting n e prior (Or.inr hn)
    rw [Undisturbed, hn] at hc
    obtain ⟨hread, hopen⟩ := hc
    exact (h.take n).extend hprior hread hopen
  · rename_i e hn
    exact (h.take n).extendTimed (htimed e hn)
  · exact h

/-- Only timeouts wait as timeouts. -/
def Timed (d : Director) : Prop := ∀ n e, d.waiting.get? n = some (.immediateTimed e) → e.kind.timed = true

theorem Timed.wait (h : Timed d) (w : Waiting) (hw : ∀ e, w = .immediateTimed e → e.kind.timed = true) :
    Timed (d.wait w) := by
  intro n e hn
  simp only [Director.wait, JsMap.get?_set] at hn
  split at hn
  · exact hw e (Option.some.inj hn)
  · exact h n e hn

theorem Timed.take (h : Timed d) (n : Nat) (hd : d'.waiting = d.waiting.delete n) : Timed d' := by
  intro m e hm
  rw [hd, JsMap.get?_delete] at hm
  split at hm
  · cases hm
  · exact h m e hm

theorem timed_step (h : Timed d) (op : Op) : Timed (step options d op) := by
  cases op with
  | started s => exact h
  | finished s => exact h
  | toolExecuted s => exact h
  | threshold e totalCost =>
      change Timed (onThreshold options d e totalCost)
      unfold onThreshold
      split
      · exact h
      · split
        · rename_i htimed
          unfold onTimed
          dsimp only
          split
          · exact h
          · refine Timed.wait h _ fun e' he' => ?_
            cases he'
            exact htimed
        · dsimp only
          split
          · exact h
          · split
            · exact h
            · split
              · exact h.wait _ (by simp)
              · exact h.wait _ (by simp)
  | decided n verdict =>
      change Timed (onDecided d n verdict)
      unfold onDecided
      split
      · dsimp only
        split
        · exact h.take n rfl
        · exact Timed.wait (h.take n rfl) _ (by simp)
      · exact h
  | immediate n =>
      change Timed (onImmediate d n)
      unfold onImmediate
      split
      · exact h.take n rfl
      · exact h.take n rfl
      · exact h

theorem inv_step (h : Inv options.maxBudgetExtensions d ∧ Timed d) (op : Op) (hc : Undisturbed d op) :
    Inv options.maxBudgetExtensions (step options d op) ∧ Timed (step options d op) := by
  refine ⟨?_, timed_step h.2 op⟩
  cases op with
  | started s => exact h.1.started s hc
  | finished s => exact h.1.finished s
  | toolExecuted s => exact h.1.same rfl rfl rfl
  | threshold e totalCost => exact inv_onThreshold h.1 e totalCost
  | decided n verdict => exact inv_onDecided h.1 n verdict
  | immediate n => exact inv_onImmediate h.1 n hc (h.2 n)

theorem inv_start (max : Nat) : Inv max {} where
  counted subagentId kind _ := by
    have hidle : ¬ running [] subagentId := fun h => List.not_mem_nil h.1
    exact ⟨fun h => absurd h hidle, fun h => absurd h hidle, fun h => absurd h hidle⟩
  justified subagentId kind earlier h := by
    rw [List.suffix_nil] at h
    cases h
  waiting n e prior h := by
    rcases h with h | h
    · cases h
    · cases h

/-- **The guard counts per task**, in every run in which no count is left when a task starts and every extension
finds the count that its event has read. -/
theorem extensions_counted (options : Options) (ops : List Op) (h : Under (step options) Undisturbed {} ops) :
    Bounded options.maxBudgetExtensions (run (step options) {} ops).log ∧
      Justified options.maxBudgetExtensions (run (step options) {} ops).log := by
  obtain ⟨hinv, -⟩ := run_invariant_under (I := fun d => Inv options.maxBudgetExtensions d ∧ Timed d)
    (fun _ op hd hc => inv_step hd op hc) ⟨inv_start _, fun n e hn => by cases hn⟩ h
  exact ⟨fun subagentId kind hk => (hinv.counted subagentId kind hk).bounded, hinv.justified⟩

def tokensOf (subagentId : JsString) : Threshold := { subagentId := subagentId, kind := .tokens, used := 10, limit := 10 }

/-- An extension, a denial, and the next task. -/
def twoTasks : List Op :=
  [.started (js "w"), .threshold (tokensOf (js "w")) 0, .immediate 0, .threshold (tokensOf (js "w")) 0,
    .finished (js "w"), .started (js "w")]

theorem extensions_counted_twoTasks : Bounded 1 (run (step { maxBudgetExtensions := 1 }) {} twoTasks).log ∧
    Justified 1 (run (step { maxBudgetExtensions := 1 }) {} twoTasks).log := by
  apply extensions_counted { maxBudgetExtensions := 1 }
  refine ⟨fun kind => rfl, trivial, ?_, trivial, trivial, fun kind => ?_, trivial⟩
  · refine ⟨by decide +kernel, ?_⟩
    unfold guarded
    decide +kernel
  · cases kind <;> decide +kernel

/-- The two events are read before either is counted. -/
theorem overlapping_events :
    ¬ Bounded 1 (run (step { maxBudgetExtensions := 1 }) {} [.started (js "w"), .threshold (tokensOf (js "w")) 0,
      .threshold (tokensOf (js "w")) 0, .immediate 0, .immediate 1]).log := by
  intro h
  have hbound := h (js "w") .tokens rfl ⟨by decide +kernel, by decide +kernel⟩
  revert hbound
  decide +kernel

end WrongStack.ExtensionGuard
