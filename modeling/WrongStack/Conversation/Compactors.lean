import WrongStack.Conversation.State
import WrongStack.Lib.ListFacts
import WrongStack.Lib.Number

/-!
# Elision as it is done

`eliseOldToolResults` (`core/src/execution/compaction-core.ts`) with its probe, its second scan and its lazy copies,
for any two numbers as options. The plain pass, for natural ones, is in `Compaction`.
-/

namespace WrongStack.Conversation.Elision

open Lib

/-! ## The preserved window -/

/-- The loop from the end of the list (`rest` is reversed). -/
def coverBack (preserveK : JsNumber) : List Message → Nat → Nat → Nat
  | [], _, preserveStart => preserveStart
  | m :: rest, pairCount, preserveStart =>
      if preserveK.below pairCount then
        if m.role = .user ∨ m.role = .assistant then coverBack preserveK rest (pairCount + 1) rest.length
        else coverBack preserveK rest pairCount preserveStart
      else preserveStart

def findPreserveStart (messages : List Message) (preserveK : JsNumber) : Nat :=
  widenStart messages (coverBack preserveK messages.reverse 0 messages.length)

/-! ## The probe -/

variable (eliseThreshold : JsNumber)

def oversized : ContentBlock → Bool
  | .toolResult _ _ content _ => eliseThreshold.reaches (estimateToolResultTokens content)
  | .toolUse _ _ input => eliseThreshold.reaches (estimateToolInputTokens input)
  | _ => false

/-- `firstOversizedIndex` -/
def probe (messages : List Message) (preserveStart : Nat) : Option Nat :=
  (messages.take preserveStart).findIdx? fun m => m.blocks.any (oversized eliseThreshold)

/-! ## The second scan -/

/-- The blocks of one message from the index `idx` on. -/
def scanBlocks (original : List ContentBlock) :
    List ContentBlock → Nat → Nat → Option (List ContentBlock) → Nat × Option (List ContentBlock)
  | [], _, saved, newContent => (saved, newContent)
  | b :: rest, idx, saved, newContent =>
      match b with
      | .toolUse id name input =>
          let tokens := estimateToolInputTokens input
          if eliseThreshold.below tokens then scanBlocks original rest (idx + 1) saved newContent
          else
            let elidedInput := summarizeToolUseInputElision name input tokens
            scanBlocks original rest (idx + 1) (saved + (tokens - estimateToolInputTokens elidedInput))
              (writeCopy original newContent idx (.toolUse id name elidedInput))
      | .toolResult toolUseId name content isError =>
          let tokens := estimateToolResultTokens content
          if eliseThreshold.below tokens then scanBlocks original rest (idx + 1) saved newContent
          else
            let elided := ContentBlock.toolResult toolUseId none (summarizeToolResultElision name content tokens) isError
            scanBlocks original rest (idx + 1) (saved + tokens) (writeCopy original newContent idx elided)
      | _ => scanBlocks original rest (idx + 1) saved newContent

structure Scan where
  saved : Nat := 0
  changed : Bool := false
  next : Option (List Message) := none

def scanMessage (messages : List Message) (s : Scan) (i : Nat) : Scan :=
  match messages[i]? with
  | none => s
  | some msg =>
      match msg.content with
      | .text _ => s
      | .blocks original =>
          let (saved, newContent) := scanBlocks eliseThreshold original original 0 s.saved none
          match newContent with
          | none => { s with saved }
          | some newContent =>
              { saved, changed := true
                next := writeCopy messages s.next i { msg with content := .blocks newContent } }

structure EliseOutcome where
  /-- The new array; without one the result is the same reference. -/
  fresh : Option (List Message)
  saved : Nat
  changed : Bool

def EliseOutcome.messages (messages : List Message) (o : EliseOutcome) : List Message := o.fresh.getD messages

def Scan.outcome (s : Scan) : EliseOutcome where
  fresh := if s.changed then s.next else none
  saved := s.saved
  changed := s.changed

def eliseOldToolResults (messages : List Message) (preserveK : JsNumber) : EliseOutcome :=
  let preserveStart := findPreserveStart messages preserveK
  match probe eliseThreshold messages preserveStart with
  | none => { fresh := none, saved := 0, changed := false }
  | some firstOversizedIndex =>
      ((List.range' firstOversizedIndex (preserveStart - firstOversizedIndex)).foldl
        (scanMessage eliseThreshold messages) {}).outcome

end WrongStack.Conversation.Elision

/-!
# The hybrid compactor and its report

`HybridCompactor` (`core/src/execution/compactor.ts`) for any two numbers as its window policy, with what it reports.
Arithmetic on them is exact. The estimates of the whole request and the check of the quality are left out.
-/

namespace WrongStack.Conversation.Hybrid

open Lib

inductive ReductionPhase
  | elision | summary
  deriving DecidableEq

structure Reduction where
  phase : ReductionPhase
  saved : Nat
  deriving DecidableEq

/-- The policy of the context, or what the constructor has set; `historyDigest` is `buildLosslessDigest` or
`buildSmartDigest`. -/
structure Policy where
  preserveK : JsNumber
  eliseThreshold : JsNumber
  historyDigest : List Message → JsString := buildLosslessDigest

structure CompactReport where
  before : Nat
  after : Nat
  reductions : List Reduction
  repaired : Option MessageRepairReport
  deriving DecidableEq

def reduction (phase : ReductionPhase) (saved : Nat) : List Reduction := if 0 < saved then [{ phase, saved }] else []

/-- `Math.max(0, messages.length - preserveK * 2)` -/
def cutTarget (messages : List Message) : JsNumber → JsNumber
  | .finite preserveK => .finite (max 0 (messages.length - preserveK * 2))
  | .infinity => .finite 0
  | .negInfinity => .infinity
  | .nan => .nan

/-- The loop counts up from the cut target by one, so that at a fraction it meets no message. -/
def boundaryFrom (messages : List Message) : JsNumber → Option Nat
  | .finite i => if i.isInt then findBoundary messages i.floor.toNat else none
  | _ => none

variable (c : Policy)

def boundary (messages : List Message) : Option Nat :=
  let cutTarget := cutTarget messages c.preserveK
  if cutTarget.reaches 0 then none else (boundaryFrom messages cutTarget).filter (0 < ·)

def summaryMsg (removed : List Message) (evidenceDigest : JsString) : Message :=
  summaryMessage { historyDigest := c.historyDigest } removed evidenceDigest

/-- The state and `saved`. -/
def collapseAncientTurns (s : State) (evidenceDigest : JsString) : State × Nat :=
  match boundary c s.messages with
  | none => (s, 0)
  | some boundary =>
      let removed := s.messages.take boundary
      let summary := summaryMsg c removed evidenceDigest
      (s.replaceMessages (summary :: s.messages.drop boundary),
        estimateMessageTokens removed - estimateMessageTokens [summary])

def elise (s : State) : State :=
  let elide := Elision.eliseOldToolResults c.eliseThreshold s.messages c.preserveK
  if elide.changed then s.replaceMessages (elide.messages s.messages) else s

def compact (s : State) (aggressive : Bool) (evidenceDigest : JsString) : State × CompactReport :=
  let elide := Elision.eliseOldToolResults c.eliseThreshold s.messages c.preserveK
  let elided := elise c s
  let (collapsed, saved) := if aggressive then collapseAncientTurns c elided evidenceDigest else (elided, 0)
  let repaired := repairToolUseAdjacency collapsed.messages
  let final := collapsed.repair
  (final,
    { before := estimateMessageTokens s.messages
      after := estimateMessageTokens final.messages
      reductions := reduction .elision elide.saved ++ reduction .summary saved
      repaired := if repaired.report.changed then some repaired.report else none })

end WrongStack.Conversation.Hybrid

/-!
# The intelligent compactor

`core/src/execution/intelligent-compactor.ts`. What the thresholds on the load of the context decide
is an argument; the estimates of the report are left out.
-/

namespace WrongStack.Conversation

open Lib

structure IntelligentCompactor where
  preserveK : Nat := 4
  eliseThreshold : Nat := 500
  /-- `callSummarizer`: `none` if it rejects. -/
  callSummarizer : List Message → Option JsString

namespace IntelligentCompactor

variable (c : IntelligentCompactor)

def fallbackSummary (toSummarize : List Message) : JsString :=
  let digest := buildLosslessDigest toSummarize
  if digest.isEmpty then decimal toSummarize.length ++ js " earlier turns (semantic content preserved)"
  else digest

def summaryMsg (toSummarize : List Message) : Message where
  role := .system
  content := .text (js "[prior_turns_summary: " ++
    (c.callSummarizer toSummarize).getD (fallbackSummary toSummarize) ++ js "]")

def cutoff (messages : List Message) : Nat := messages.length - c.preserveK * 2

def summarizeAncientTurns (s : State) : State :=
  if c.cutoff s.messages ≤ 2 then s
  else
    match findSafeBoundary s.messages 0 (c.cutoff s.messages) with
    | none => s
    | some boundary =>
        if boundary ≤ 1 then s
        else s.replaceMessages (c.summaryMsg (s.messages.take boundary) :: s.messages.drop boundary)

/-- `aggressive` and `warned`: whether the load is past the soft (or hard) threshold, and past the one
for a warning. -/
def compact (s : State) (aggressive warned : Bool) : State :=
  let s := s.elise c.preserveK c.eliseThreshold
  let s :=
    if aggressive then c.summarizeAncientTurns s
    else if warned then s.elise c.preserveK c.eliseThreshold
    else s
  s.repair

end IntelligentCompactor

end WrongStack.Conversation
