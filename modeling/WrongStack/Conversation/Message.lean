import Mathlib.Algebra.GroupWithZero.Nat
import WrongStack.Lib.Json

/-!
# Messages

`core/src/types/blocks.ts`, `core/src/types/messages.ts` and the estimates of
`core/src/utils/token-estimate.ts` for messages. The cache of estimates by text changes no result
and is left out.
-/

namespace WrongStack.Conversation

open Lib

inductive MessageRole
  | user | assistant | system
  deriving DecidableEq

inductive ContentBlock
  | text (text : JsString)
  | toolUse (id : JsString) (name : JsString) (input : List (JsString × Json))
  | toolResult (toolUseId : JsString) (name : Option JsString) (content : JsString)
      (isError : Option Bool)
  /-- an image or thinking block -/
  | other (block : Json)

inductive Content
  | text (s : JsString)
  | blocks (bs : List ContentBlock)

structure Message where
  role : MessageRole
  content : Content
  /-- `_estTokens` -/
  estTokens : Option Nat := none

namespace ContentBlock

def toolUseId? : ContentBlock → Option JsString
  | toolUse id _ _ => some id
  | _ => none

def toolResultId? : ContentBlock → Option JsString
  | toolResult id _ _ _ => some id
  | _ => none

def isToolUse (b : ContentBlock) : Bool := b.toolUseId?.isSome

def isToolResult (b : ContentBlock) : Bool := b.toolResultId?.isSome

end ContentBlock

namespace Message

/-- `contentBlocks` -/
def blocks (m : Message) : List ContentBlock :=
  match m.content with
  | .text _ => []
  | .blocks bs => bs

/-- Does this message carry any non-empty text? -/
def hasTextContent (m : Message) : Bool :=
  match m.content with
  | .text s => !(JsString.trim s).isEmpty
  | .blocks bs => bs.any fun
      | .text t => !(JsString.trim t).isEmpty
      | _ => false

end Message

/-! ## Token estimates -/

/-- `Math.max(1, Math.ceil(text.length / 3.5))` -/
def RoughTokenEstimate (text : JsString) : Nat := max 1 ((2 * text.length + 6) / 7)

def estimateToolInputTokens (input : List (JsString × Json)) : Nat :=
  RoughTokenEstimate (Json.stringify (.obj input))

def estimateToolResultTokens (content : JsString) : Nat := RoughTokenEstimate content

def estimateTextTokens (text : JsString) : Nat := RoughTokenEstimate text

def estimateBlockTokens : ContentBlock → Nat
  | .text text => estimateTextTokens text
  | .toolUse _ _ input => estimateToolInputTokens input
  | .toolResult _ _ content _ => estimateToolResultTokens content
  | .other block => RoughTokenEstimate block.stringify

def computeContentTokens : Content → Nat
  | .text s => estimateTextTokens s
  | .blocks bs => (bs.map estimateBlockTokens).sum

def computeMessageTokens (m : Message) : Nat := computeContentTokens m.content

/-- The cached estimate is used unless it is missing or zero. -/
def estimateMessage (m : Message) : Nat :=
  match m.estTokens with
  | some n => if 0 < n then n else computeMessageTokens m
  | none => computeMessageTokens m

def estimateMessageTokens (ms : List Message) : Nat := (ms.map estimateMessage).sum

/-!
# Repair of tool adjacency

`repairToolUseAdjacency` (`core/src/utils/message-invariants.ts`).
-/

structure MessageRepairReport where
  changed : Bool
  removedToolUses : List JsString
  removedToolResults : List JsString
  removedMessages : Nat
  deriving DecidableEq

@[ext]
structure MessageRepairResult where
  messages : List Message
  report : MessageRepairReport

def hasToolUse (m : Message) : Bool := m.blocks.any ContentBlock.isToolUse

def hasToolResult (m : Message) : Bool := m.blocks.any ContentBlock.isToolResult

def toolUseIds : Option Message → List JsString
  | some m => if m.role = .assistant then m.blocks.filterMap ContentBlock.toolUseId? else []
  | none => []

def toolResultIds : Option Message → List JsString
  | some m => if m.role = .user then m.blocks.filterMap ContentBlock.toolResultId? else []
  | none => []

def isEmptyMessage (m : Message) : Bool :=
  match m.content with
  | .text s => (JsString.trim s).isEmpty
  | .blocks bs => bs.isEmpty

/-- `{ ...msg, content: next }` for a message with blocks. -/
def mapContent (m : Message) (f : List ContentBlock → List ContentBlock) : Message :=
  match m.content with
  | .text _ => m
  | .blocks bs => { m with content := .blocks (f bs) }

def orphanUse (nextIds : List JsString) (b : ContentBlock) : Bool :=
  b.toolUseId?.any fun id => !nextIds.contains id

def orphanResult (allowed : List JsString) (b : ContentBlock) : Bool :=
  b.toolResultId?.any fun id => !allowed.contains id

structure Repairing where
  out : List Message := []
  removedToolUses : List JsString := []
  removedToolResults : List JsString := []
  removedMessages : Nat := 0
  changed : Bool := false

def dropOrphanUses (nextIds : List JsString) (msg : Message) (r : Repairing) : Message × Repairing :=
  let orphans := (msg.blocks.filter (orphanUse nextIds)).filterMap ContentBlock.toolUseId?
  if hasToolUse msg then
    (mapContent msg fun bs => bs.filter fun b => !orphanUse nextIds b,
      { r with
        removedToolUses := r.removedToolUses ++ orphans
        changed := r.changed || !orphans.isEmpty })
  else (msg, r)

def dropOrphanResults (allowed : List JsString) (msg : Message) (r : Repairing) :
    Message × Repairing :=
  let orphans := (msg.blocks.filter (orphanResult allowed)).filterMap ContentBlock.toolResultId?
  if hasToolResult msg then
    (mapContent msg fun bs => bs.filter fun b => !orphanResult allowed b,
      { r with
        removedToolResults := r.removedToolResults ++ orphans
        changed := r.changed || !orphans.isEmpty })
  else (msg, r)

/-- One turn of the loop; `next` is `messages[i + 1]`. -/
def repairMessage (next : Option Message) (r : Repairing) (original : Message) : Repairing :=
  let (msg, r) := dropOrphanUses (toolResultIds next) original r
  let (msg, r) := dropOrphanResults (toolUseIds r.out.getLast?) msg r
  if isEmptyMessage msg then { r with removedMessages := r.removedMessages + 1, changed := true }
  else { r with out := r.out ++ [msg] }

def repairMessages : List Message → Repairing → Repairing
  | [], r => r
  | m :: ms, r => repairMessages ms (repairMessage ms.head? r m)

def repairToolUseAdjacency (messages : List Message) : MessageRepairResult :=
  let r := repairMessages messages {}
  { messages := if r.changed then r.out else messages
    report :=
      { changed := r.changed
        removedToolUses := r.removedToolUses
        removedToolResults := r.removedToolResults
        removedMessages := r.removedMessages } }

end WrongStack.Conversation
