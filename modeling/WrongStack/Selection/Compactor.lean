import WrongStack.Conversation.State
import WrongStack.Lib.Number
import WrongStack.Session.Loader

/-!
# The selector's answer

`parseSelectorOutput` and `fallbackSelect` of `LLMSelector` (`core/src/models/llm-selector.ts`). The bounds of a range
are given by their texts, as the numbers of JSON are; `parse` is `JSON.parse`, `none` where it throws. The explanation
in a result (`reasoning`) is read by no one and left out.
-/

namespace WrongStack.Selection

open Lib Conversation

/-! ## Ranges -/

structure Range where
  «from» : JsString
  «to» : JsString
  deriving DecidableEq

namespace Range

variable (r : Range)

def start : ℚ := Double.ofText r.from

def stop : ℚ := Double.ofText r.to

/-- `r.from < 0 || r.to >= length || r.from > r.to` -/
def outOfBounds (length : Nat) : Bool := r.start < 0 || length ≤ r.stop || r.stop < r.start

def overlaps (a b : Range) : Bool := a.start ≤ b.stop && b.start ≤ a.stop

end Range

structure KeptRange extends Range where
  importance : Json

structure CollapsedRange extends Range where
  summary : Option Json

structure SelectorResult where
  kept : List KeptRange
  collapsed : List CollapsedRange

/-! ## `fallbackSelect` -/

/-- The index after the last message that is over the budget; the messages come in reverse order. -/
def startIdx (budget : JsNumber) (tokenCount : Nat) : List Message → Nat
  | [] => 0
  | m :: before =>
      let cost := estimateMessageTokens [m]
      if budget.covers (tokenCount + cost) then startIdx budget (tokenCount + cost) before
      else before.length + 1

def fallbackSelect (messages : List Message) (budget : JsNumber) : SelectorResult :=
  let start := startIdx budget 0 messages.reverse
  { kept :=
      [{ «from» := decimal start, «to» := decimal (messages.length - 1), importance := .str (js "high") }]
    collapsed :=
      if 0 < start then [{ «from» := js "0", «to» := decimal (start - 1), summary := none }] else [] }

/-! ## `parseSelectorOutput` -/

/-- How the validation ends early: with a `TypeError`, or in `fallbackSelect`. -/
inductive Refusal
  | threw | fallback
  deriving DecidableEq

/-- `obj[key] ?? []` -/
def property (parsed : Json) (key : JsString) : Except Refusal Json :=
  match parsed with
  | .null => .error .threw
  | parsed => .ok <|
      match parsed.get? key with
      | none | some .null => .arr []
      | some v => v

/-- The items of a `for` loop. -/
def iterate : Json → Except Refusal (List Json)
  | .arr items => .ok items
  -- a pair of surrogates is one item, but no item of a string is a range
  | .str s => .ok (s.map fun c => .str [c])
  | _ => .error .threw

def readRange (messageCount : Nat) (item : Json) : Except Refusal Range :=
  match item with
  | .null => .error .threw
  | item =>
      match item.get? (js "from"), item.get? (js "to") with
      | some (.num start), some (.num stop) =>
          let range := { «from» := start, «to» := stop }
          if range.outOfBounds messageCount then .error .fallback else .ok range
      | _, _ => .error .fallback

def readKept (messageCount : Nat) (item : Json) : Except Refusal KeptRange := do
  let range ← readRange messageCount item
  let importance := match item.get? (js "importance") with
    | none | some .null => .str (js "medium")
    | some importance => importance
  return { range with importance }

def readCollapsed (messageCount : Nat) (item : Json) : Except Refusal CollapsedRange := do
  let range ← readRange messageCount item
  return { range with summary := item.get? (js "summary") }

/-- Does one of the ranges overlap with a later one? -/
def anyOverlap : List Range → Bool
  | [] => false
  | a :: rest => rest.any a.overlaps || anyOverlap rest

def readPlan (messageCount : Nat) (parsed : Json) : Except Refusal SelectorResult := do
  let keptRaw ← property parsed (js "kept")
  let collapsedRaw ← property parsed (js "collapsed")
  let kept ← (← iterate keptRaw).mapM (readKept messageCount)
  let collapsed ← (← iterate collapsedRaw).mapM (readCollapsed messageCount)
  if anyOverlap (kept.map KeptRange.toRange ++ collapsed.map CollapsedRange.toRange) then .error .fallback
  else .ok { kept, collapsed }

/-- `raw.slice(jsonStart, jsonEnd + 1)` -/
def jsonPart (raw : JsString) : Option JsString :=
  match raw.findIdx? (· == unit '\x7b'), raw.reverse.findIdx? (· == unit '\x7d') with
  | some jsonStart, some afterEnd => some ((raw.take (raw.length - afterEnd)).drop jsonStart)
  | _, _ => none

inductive Selected
  | threw
  | fallback (result : SelectorResult)
  | accepted (plan : SelectorResult)

def parseSelectorOutput (parse : JsString → Option Json) (maxContextTokens : JsNumber) (raw : JsString)
    (messages : List Message) : Selected :=
  if messages.isEmpty then .accepted { kept := [], collapsed := [] }
  else
    match (jsonPart raw).bind parse with
    | none => .fallback (fallbackSelect messages maxContextTokens)
    | some parsed =>
        match readPlan messages.length parsed with
        | .ok plan => .accepted plan
        | .error .threw => .threw
        | .error .fallback => .fallback (fallbackSelect messages maxContextTokens)

end WrongStack.Selection

/-!
# Carrying out a plan

`executePlan` of `SelectiveCompactor` (`core/src/execution/selective-compactor.ts`). A message of the list knows where
it comes from, so that two messages that look alike are told apart. `summarize` is `summarizeRange`, which asks the
provider; a summary that cannot be made into a text throws.
-/

namespace WrongStack.Selection

open Lib Conversation

inductive Slot
  | original (index : Nat) (message : Message)
  | made (message : Message)

namespace Slot

def message : Slot → Message
  | original _ m => m
  | made m => m

/-- The place of a message in the original list. -/
def index? : Slot → Option Nat
  | original i _ => some i
  | made _ => none

end Slot

/-- `[...ctx.messages]` -/
def slots (messages : List Message) : List Slot := messages.zipIdx.map fun p => .original p.2 p.1

/-- A number that is not negative, as an index or a count: without its fraction. -/
def toIndex (q : ℚ) : Nat := q.floor.toNat

namespace Range

variable (r : Range)

/-- `range.to + 1` -/
def summaryEnd : Nat := toIndex (Double.round (r.stop + 1))

/-- `range.to - range.from + 1` -/
def deleteCount : Nat := toIndex (Double.round (Double.round (r.stop - r.start) + 1))

end Range

variable (summarize : List Message → JsString)

def summaryText (slots : List Slot) (range : CollapsedRange) : Option JsString :=
  match range.summary with
  | some v =>
      if v.truthy then Session.Loader.joinedText v
      else some (summarize (((slots.take range.summaryEnd).drop (toIndex range.start)).map Slot.message))
  | none => some (summarize (((slots.take range.summaryEnd).drop (toIndex range.start)).map Slot.message))

def summaryMsg (range : CollapsedRange) (summary : JsString) : Message :=
  { role := .system
    content := .text (js "[prior_turns_" ++ range.from ++ js "-" ++ range.to ++ js ": " ++ summary ++ js "]") }

def splice (slots : List Slot) (start deleteCount : Nat) (item : Slot) : List Slot :=
  slots.take start ++ item :: slots.drop (start + deleteCount)

def collapse (slots : List Slot) (range : CollapsedRange) : Option (List Slot) :=
  if range.outOfBounds slots.length then some slots
  else do
    let summary ← summaryText summarize slots range
    return splice slots (toIndex range.start) range.deleteCount (.made (summaryMsg range summary))

def sortedCollapsed (plan : SelectorResult) : List CollapsedRange :=
  plan.collapsed.mergeSort fun a b => b.start ≤ a.start

/-- The list that is committed. -/
def rewritten (messages : List Message) (plan : SelectorResult) : Option (List Slot) :=
  (sortedCollapsed plan).foldlM (collapse summarize) (slots messages)

def executePlan (s : State) (plan : SelectorResult) : Option State :=
  if s.messages.isEmpty then some s
  else do
    let messages ← rewritten summarize s.messages plan
    return s.replaceMessages (messages.map Slot.message)

end WrongStack.Selection

/-!
# Ranges of an accepted plan

They lie in the list and apart from each other. Carried out from the last to the first, a range changes nothing
before its own start.
-/

namespace WrongStack.Selection

open Lib Conversation

/-! ## Bounds -/

namespace Range

variable {r : Range} {length : Nat}

/-- The first index at or after the start. -/
def first (r : Range) : Nat := r.start.ceil.toNat

/-- The index after the last one at or before the end. -/
def afterLast (r : Range) : Nat := toIndex r.stop + 1

structure InBounds (r : Range) (length : Nat) : Prop where
  nonneg : 0 ≤ r.start
  ordered : r.start ≤ r.stop
  below : r.stop < length

theorem outOfBounds_eq_false : r.outOfBounds length = false ↔ r.InBounds length := by
  simp only [outOfBounds, Bool.or_eq_false_iff, decide_eq_false_iff_not, not_lt, not_le]
  constructor
  · rintro ⟨⟨hnonneg, hbelow⟩, hordered⟩
    exact ⟨hnonneg, hordered, hbelow⟩
  · rintro ⟨hnonneg, hordered, hbelow⟩
    exact ⟨⟨hnonneg, hbelow⟩, hordered⟩

end Range

theorem toIndex_le {q : ℚ} (h : 0 ≤ q) : (toIndex q : ℚ) ≤ q := by
  have hfloor : (0 : ℤ) ≤ q.floor := Rat.le_floor_iff.mpr (by simpa using h)
  have hcast : ((toIndex q : ℤ) : ℚ) ≤ q := by
    rw [toIndex, Int.toNat_of_nonneg hfloor]
    exact Rat.le_floor_iff.mp le_rfl
  exact_mod_cast hcast

theorem lt_toIndex_succ (q : ℚ) : q < (toIndex q : ℚ) + 1 := by
  have hlt : q < ((q.floor + 1 : ℤ) : ℚ) := by
    rw [← not_le, ← Rat.le_floor_iff]
    omega
  have hle : ((q.floor + 1 : ℤ) : ℚ) ≤ ((toIndex q + 1 : ℤ) : ℚ) := by
    rw [Int.cast_le, toIndex]
    omega
  calc q < ((q.floor + 1 : ℤ) : ℚ) := hlt
    _ ≤ ((toIndex q + 1 : ℤ) : ℚ) := hle
    _ = (toIndex q : ℚ) + 1 := by push_cast; rfl

theorem le_toIndex {k : Nat} {q : ℚ} (h : (k : ℚ) ≤ q) : k ≤ toIndex q := by
  have hfloor : (k : ℤ) ≤ q.floor := Rat.le_floor_iff.mpr (by exact_mod_cast h)
  rw [toIndex]
  omega

namespace Range

theorem start_le_first (r : Range) : r.start ≤ r.first := by
  have hceil : r.start ≤ (r.start.ceil : ℚ) := Rat.ceil_le_iff.mp le_rfl
  have hcast : ((r.start.ceil : ℤ) : ℚ) ≤ ((r.first : ℤ) : ℚ) := by
    rw [Int.cast_le, first]
    omega
  exact hceil.trans (by exact_mod_cast hcast)

theorem first_le {r : Range} {k : Nat} (h : r.start ≤ k) : r.first ≤ k := by
  have hceil : r.start.ceil ≤ (k : ℤ) := Rat.ceil_le_iff.mpr (by exact_mod_cast h)
  rw [first]
  omega

end Range

namespace Range.InBounds

variable {r : Range} {length : Nat}

theorem stop_nonneg (h : r.InBounds length) : 0 ≤ r.stop := h.nonneg.trans h.ordered

theorem afterLast_le (h : r.InBounds length) : r.afterLast ≤ length := by
  have hlt : ((toIndex r.stop : ℕ) : ℚ) < length := (toIndex_le h.stop_nonneg).trans_lt h.below
  have hlt' : toIndex r.stop < length := by exact_mod_cast hlt
  exact hlt'

theorem first_le_length (h : r.InBounds length) : r.first ≤ length :=
  first_le (h.ordered.trans h.below.le)

theorem start_le_stop (h : r.InBounds length) : toIndex r.start ≤ toIndex r.stop :=
  le_toIndex ((toIndex_le h.nonneg).trans h.ordered)

theorem start_le_length (h : r.InBounds length) :
    toIndex r.start ≤ length := by
  have hle := h.start_le_stop
  have hafter := h.afterLast_le
  rw [Range.afterLast] at hafter
  omega

/-- At least the named messages are deleted from a whole start on. -/
theorem le_deleteCount (hlength : length < 2 ^ 32) {k : Nat} (hk : k ≤ length)
    (hspan : (k : ℚ) ≤ r.stop - r.start) : k + 1 ≤ r.deleteCount := by
  have hround : (k : ℚ) ≤ Double.round (r.stop - r.start) := Double.natCast_le_round (by omega) hspan
  have hsum : ((k + 1 : ℕ) : ℚ) ≤ Double.round (r.stop - r.start) + 1 := by
    push_cast
    linarith
  exact le_toIndex (Double.natCast_le_round (by omega) hsum)

end Range.InBounds

/-! ## Executions -/

/-- The ranges of a plan from the first to the last. -/
structure Apart (length : Nat) (ranges : List CollapsedRange) : Prop where
  inBounds : ∀ r ∈ ranges, r.InBounds length
  ascending : ranges.Pairwise fun a b => a.stop < b.start

namespace Apart

variable {length : Nat} {r : CollapsedRange} {rs : List CollapsedRange}

theorem head (h : Apart length (r :: rs)) : r.InBounds length := h.inBounds r List.mem_cons_self

theorem tail (h : Apart length (r :: rs)) : Apart length rs where
  inBounds r' hr' := h.inBounds r' (List.mem_cons_of_mem r hr')
  ascending := (List.pairwise_cons.mp h.ascending).2

theorem stop_lt (h : Apart length (r :: rs)) : ∀ r' ∈ rs, r.stop < r'.start :=
  (List.pairwise_cons.mp h.ascending).1

theorem start_le (h : Apart length (r :: rs)) : ∀ r' ∈ rs, toIndex r.start ≤ toIndex r'.start := by
  intro r' hr'
  refine le_toIndex ((toIndex_le h.head.nonneg).trans ?_)
  exact h.head.ordered.trans (h.stop_lt r' hr').le

end Apart

variable {summarize : List Message → JsString} {s s' out : List Slot} {r : CollapsedRange} {rs : List CollapsedRange}

/-- The ranges carried out in reverse. -/
def run (summarize : List Message → JsString) (s : List Slot) (rs : List CollapsedRange) : Option (List Slot) :=
  rs.reverse.foldlM (collapse summarize) s

theorem run_cons : run summarize s (r :: rs) = (run summarize s rs).bind fun s' => collapse summarize s' r := by
  simp [run]

theorem length_splice {start count : Nat} {item : Slot} (h : start ≤ s.length) :
    start < (splice s start count item).length := by
  simp only [splice, List.length_append, List.length_cons, List.length_take]
  omega

theorem take_splice {k start count : Nat} {item : Slot} (hk : k ≤ start) (h : start ≤ s.length) :
    (splice s start count item).take k = s.take k := by
  rw [splice, List.take_append_of_le_length (by rw [List.length_take]; omega), List.take_take, min_eq_left hk]

theorem collapse_eq_some (h : r.InBounds s.length) :
    collapse summarize s r = some out ↔ ∃ summary, summaryText summarize s r = some summary ∧
      out = splice s (toIndex r.start) r.deleteCount (.made (summaryMsg r summary)) := by
  rw [collapse, Range.outOfBounds_eq_false.mpr h]
  cases summaryText summarize s r with
  | none => simp
  | some summary => simp [eq_comm]

/-- Later ranges leave the list long enough for what comes before them. -/
theorem run_length (h : Apart s.length rs) (hrun : run summarize s rs = some s') {q : ℚ}
    (hq : q < s.length) (hrs : ∀ r ∈ rs, q < r.start) : q < s'.length := by
  induction rs generalizing s' q with
  | nil => cases hrun; exact hq
  | cons r rs ih =>
      rw [run_cons, Option.bind_eq_some_iff] at hrun
      obtain ⟨mid, hmid, hcollapse⟩ := hrun
      have hbelow : r.stop < mid.length := ih h.tail hmid h.head.below h.stop_lt
      have hbounds : r.InBounds mid.length := { h.head with below := hbelow }
      obtain ⟨summary, -, rfl⟩ := (collapse_eq_some hbounds).mp hcollapse
      calc q < r.start := hrs r List.mem_cons_self
        _ < (toIndex r.start : ℚ) + 1 := lt_toIndex_succ _
        _ ≤ _ := by exact_mod_cast length_splice hbounds.start_le_length

theorem run_cons_eq_some (h : Apart s.length (r :: rs)) :
    run summarize s (r :: rs) = some out ↔ ∃ mid summary, run summarize s rs = some mid ∧
      r.InBounds mid.length ∧ summaryText summarize mid r = some summary ∧
      out = splice mid (toIndex r.start) r.deleteCount (.made (summaryMsg r summary)) := by
  rw [run_cons, Option.bind_eq_some_iff]
  constructor
  · rintro ⟨mid, hmid, hcollapse⟩
    have hbounds : r.InBounds mid.length :=
      { h.head with below := run_length h.tail hmid h.head.below h.stop_lt }
    obtain ⟨summary, hsummary, hout⟩ := (collapse_eq_some hbounds).mp hcollapse
    exact ⟨mid, summary, hmid, hbounds, hsummary, hout⟩
  · rintro ⟨mid, summary, hmid, hbounds, hsummary, hout⟩
    exact ⟨mid, hmid, (collapse_eq_some hbounds).mpr ⟨summary, hsummary, hout⟩⟩

theorem run_take (h : Apart s.length rs) (hrun : run summarize s rs = some s') {k : Nat}
    (hk : ∀ r ∈ rs, k ≤ toIndex r.start) : s'.take k = s.take k := by
  induction rs generalizing s' with
  | nil => cases hrun; rfl
  | cons r rs ih =>
      obtain ⟨mid, summary, hmid, hbounds, -, rfl⟩ := (run_cons_eq_some h).mp hrun
      rw [take_splice (hk r List.mem_cons_self) hbounds.start_le_length]
      exact ih h.tail hmid fun r' hr' => hk r' (List.mem_cons_of_mem r hr')

end WrongStack.Selection

/-!
# Accepted plans

What the validation establishes: the ranges lie in the list and do not overlap.
-/

namespace WrongStack.Selection

open Lib Conversation

/-! ## Validation -/

theorem readRange_inBounds {messageCount : Nat} {item : Json} {r : Range}
    (h : readRange messageCount item = .ok r) : r.InBounds messageCount := by
  unfold readRange at h
  split at h
  · cases h
  · split at h
    · simp only at h
      split at h
      · cases h
      · cases h
        exact Range.outOfBounds_eq_false.mp (Bool.eq_false_iff.mpr ‹_›)
    · cases h

theorem bind_eq_ok {ε α β : Type} {x : Except ε α} {f : α → Except ε β} {b : β} :
    x >>= f = .ok b ↔ ∃ a, x = .ok a ∧ f a = .ok b := by
  cases x with
  | error e => exact ⟨nofun, fun ⟨_, h, _⟩ => nomatch h⟩
  | ok a => exact ⟨fun h => ⟨a, rfl, h⟩, fun ⟨_, h, hf⟩ => by cases h; exact hf⟩

theorem mem_mapM {ε α β : Type} {f : α → Except ε β} {l : List α} {out : List β} (h : l.mapM f = .ok out) :
    ∀ b ∈ out, ∃ a ∈ l, f a = .ok b := by
  induction l generalizing out with
  | nil => cases h; exact nofun
  | cons a l ih =>
      rw [List.mapM_cons, bind_eq_ok] at h
      obtain ⟨b, hb, h⟩ := h
      rw [bind_eq_ok] at h
      obtain ⟨bs, hbs, h⟩ := h
      cases h
      intro b' hb'
      rcases List.mem_cons.mp hb' with rfl | hmem
      · exact ⟨a, List.mem_cons_self, hb⟩
      · obtain ⟨a', ha', hfa⟩ := ih hbs b' hmem
        exact ⟨a', List.mem_cons_of_mem a ha', hfa⟩

theorem pairwise_of_anyOverlap {ranges : List Range} (h : anyOverlap ranges = false) :
    ranges.Pairwise fun a b => a.overlaps b = false := by
  induction ranges with
  | nil => exact .nil
  | cons a rest ih =>
      rw [anyOverlap, Bool.or_eq_false_iff, List.any_eq_false] at h
      exact .cons (fun b hb => Bool.eq_false_iff.mpr (h.1 b hb)) (ih h.2)

/-- The ranges in any order. -/
structure Disjoint (length : Nat) (ranges : List CollapsedRange) : Prop where
  inBounds : ∀ r ∈ ranges, r.InBounds length
  apart : ranges.Pairwise fun a b => a.overlaps b.toRange = false

theorem readPlan_disjoint {messageCount : Nat} {parsed : Json} {plan : SelectorResult}
    (h : readPlan messageCount parsed = .ok plan) : Disjoint messageCount plan.collapsed := by
  unfold readPlan at h
  simp only [bind_eq_ok] at h
  obtain ⟨_, -, _, -, _, -, kept, -, _, -, collapsed, hcollapsed, h⟩ := h
  split at h
  · cases h
  · cases h
    have hoverlap := pairwise_of_anyOverlap (Bool.eq_false_iff.mpr ‹_›)
    refine ⟨fun r hr => ?_, ?_⟩
    · obtain ⟨item, -, hitem⟩ := mem_mapM hcollapsed r hr
      rw [readCollapsed, bind_eq_ok] at hitem
      obtain ⟨range, hrange, hitem⟩ := hitem
      cases hitem
      exact readRange_inBounds hrange
    · exact List.pairwise_map.mp (List.pairwise_append.mp hoverlap).2.1

theorem accepted_disjoint {parse : JsString → Option Json} {budget : JsNumber} {raw : JsString}
    {messages : List Message} {plan : SelectorResult}
    (h : parseSelectorOutput parse budget raw messages = .accepted plan) :
    Disjoint messages.length plan.collapsed := by
  unfold parseSelectorOutput at h
  split at h
  · cases h
    exact ⟨nofun, .nil⟩
  · split at h
    · cases h
    · split at h
      · cases h
        exact readPlan_disjoint ‹_›
      · cases h
      · cases h

/-! ## The order of execution -/

/-- The ranges as they are carried out, from the last to the first. -/
theorem Disjoint.sorted {length : Nat} {plan : SelectorResult} (h : Disjoint length plan.collapsed) :
    Apart length (sortedCollapsed plan).reverse where
  inBounds r hr := h.inBounds r ((List.mergeSort_perm _ _).mem_iff.mp (List.mem_reverse.mp hr))
  ascending := by
    have hperm : (sortedCollapsed plan).Perm plan.collapsed := List.mergeSort_perm _ _
    have hsymm : ∀ {a b : CollapsedRange}, a.overlaps b.toRange = false → b.overlaps a.toRange = false := by
      intro a b hab
      rwa [Range.overlaps, Bool.and_comm]
    have hsorted : (sortedCollapsed plan).Pairwise fun a b => b.start ≤ a.start := by
      have hpairwise : (sortedCollapsed plan).Pairwise fun a b => decide (b.start ≤ a.start) = true := by
        apply List.pairwise_mergeSort
        · intro a b c hab hbc
          simp only [decide_eq_true_eq] at hab hbc ⊢
          exact hbc.trans hab
        · intro a b
          simp only [Bool.or_eq_true, decide_eq_true_eq]
          exact le_total _ _
      exact hpairwise.imp fun hab => of_decide_eq_true hab
    have hapart := (hperm.pairwise_iff hsymm).mpr h.apart
    rw [List.pairwise_reverse]
    refine (hsorted.and hapart).imp_of_mem fun {a b} ha _ hab => ?_
    have hbounds := h.inBounds a (hperm.mem_iff.mp ha)
    have hno := hab.2
    simp only [Range.overlaps, Bool.and_eq_false_iff, decide_eq_false_iff_not, not_le] at hno
    rcases hno with hlt | hlt
    · exact hlt
    · exact absurd (hab.1.trans hbounds.ordered) (not_le.mpr hlt)

end WrongStack.Selection
