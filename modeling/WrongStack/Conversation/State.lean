import WrongStack.Conversation.Message
import WrongStack.Lib.Regex
import WrongStack.Lib.Run

/-!
# Compaction

`core/src/execution/compaction-core.ts`: elision of old tool input and output, and the digest of a
range of messages. Debug logging is left out.
-/

namespace WrongStack.Conversation

open Lib Regex

/-! ## The preserved window -/

/-- Back from the end of the list (`rest` is reversed) until `preserveK` messages of the user and
the assistant are covered. -/
def coverFrom : Nat → List Message → Nat → Nat
  | _, [], preserveStart => preserveStart
  | 0, _, preserveStart => preserveStart
  | k + 1, m :: rest, preserveStart =>
      if m.role = .user ∨ m.role = .assistant then coverFrom k rest rest.length
      else coverFrom (k + 1) rest preserveStart

def hasMatchingToolPair (resultContent useContent : List ContentBlock) : Bool :=
  let resultIds := resultContent.filterMap ContentBlock.toolResultId?
  (useContent.filterMap ContentBlock.toolUseId?).any resultIds.contains

/-- Widen the window backwards while it starts on the results of the message before it. -/
def widenStart (messages : List Message) : Nat → Nat
  | 0 => 0
  | n + 1 =>
      match messages[n + 1]?, messages[n]? with
      | some { role := .user, content := .blocks results, .. },
        some { role := .assistant, content := .blocks uses, .. } =>
          if hasMatchingToolPair results uses then widenStart messages n else n + 1
      | _, _ => n + 1

def findPreserveStart (messages : List Message) (preserveK : Nat) : Nat :=
  widenStart messages (coverFrom preserveK messages.reverse messages.length)

/-! ## Summaries -/

def decimal (n : Nat) : JsString := js (toString n)

def summarizeToolUseInputValue : Json → Json
  | .str value =>
      let oneLine := JsString.trim (JsString.collapseSpaces value)
      if oneLine.length ≤ 160 then .str oneLine
      else .str (oneLine.take 120 ++ js "...(" ++ decimal oneLine.length ++ js " chars)")
  | .arr items => .str (js "[array:" ++ decimal items.length ++ js "]")
  | .obj fields =>
      .str (js "[object:" ++ JsString.join (js ",") ((fields.map Prod.fst).take 8) ++
        (if 8 < fields.length then js ",..." else []) ++ js "]")
  | value => value

def summarizeToolUseInputElision (name : JsString) (input : List (JsString × Json)) (tokens : Nat) :
    List (JsString × Json) :=
  [(js "__elided_tool_input", .str (js "~" ++ decimal tokens ++
      js " tokens; original arguments are in the session log")),
    (js "tool", .str name),
    (js "fields", .obj (input.map fun field => (field.1, summarizeToolUseInputValue field.2)))]

def PATH_HINT_PATTERN : Regex :=
  let isSep := fun c => c == unit '/' || c == unit '\\'
  concat
    [ opt (seq letter (char ':')), opt (oneOf fun c => c == unit '.' || isSep c),
      plus (oneOf fun c => isWord c || (js "@.-").contains c),
      plus (seq (oneOf isSep) (plus (oneOf fun c => isWord c || (js "@(). -").contains c))),
      char '.',
      seq (oneOf fun c => isUpper c || isLower c || isDigit c)
        (upTo (oneOf fun c => isUpper c || isLower c || isDigit c) 11) ]

/-- Slashes forward, and quotes and punctuation off the ends. -/
def cleanPathHint (hint : JsString) : JsString :=
  let hint := hint.map fun c => if c = unit '\\' then unit '/' else c
  let hint := hint.dropWhile (js "\"'\x60").contains
  (hint.reverse.dropWhile (js "\"'\x60),;:").contains).reverse

def collectPathHints : List JsString → List JsString → List JsString
  | [], out => out
  | hint :: hints, out =>
      let clean := cleanPathHint hint
      let out := if !clean.isEmpty && clean.length ≤ 220 && !out.contains clean then out ++ [clean] else out
      if 5 ≤ out.length then out else collectPathHints hints out

def extractPathHints (text : JsString) : List JsString := collectPathHints (PATH_HINT_PATTERN.matchAll text) []

def ERROR_LINE_PATTERN : Regex :=
  ignoreCase <| concat [wordBoundary, anyOf ["error", "exception", "failed", "failure", "fatal", "panic",
    "timeout", "denied", "enoent", "eacces", "eperm"], wordBoundary]

/-- `split(/\r?\n/)` -/
def splitLines (text : JsString) : List JsString :=
  let parts := JsString.splitOn (unit '\n') text
  parts.dropLast.map (fun line => if line.getLast? = some (unit '\r') then line.dropLast else line) ++
    parts.getLast?.toList

def firstErrorLine (text : JsString) : Option JsString :=
  (splitLines text).findSome? fun line =>
    let trimmed := JsString.trim (JsString.collapseSpaces line)
    if ERROR_LINE_PATTERN.test line && !trimmed.isEmpty then some (trimmed.take 180) else none

def summarizeToolResultElision (name : Option JsString) (content : JsString) (tokens : Nat) : JsString :=
  let tool := match name with
    | some name => if name.isEmpty then [] else [js "tool=" ++ name]
    | none => []
  let files := extractPathHints content
  let files := if files.isEmpty then [] else [js "files=" ++ JsString.join (js ", ") files]
  let error := (firstErrorLine content).toList.map (js "error=" ++ ·)
  js "[" ++ JsString.join (js "; ")
    ((js "elided: ~" ++ decimal tokens ++ js " tokens") :: tool ++ files ++ error) ++ js "]"

/-! ## Elision -/

/-- The replacement of an oversized block, and the tokens it saves. -/
def eliseBlock (eliseThreshold : Nat) : ContentBlock → Option (ContentBlock × Nat)
  | .toolUse id name input =>
      let tokens := estimateToolInputTokens input
      if tokens < eliseThreshold then none
      else
        let elidedInput := summarizeToolUseInputElision name input tokens
        some (.toolUse id name elidedInput, tokens - estimateToolInputTokens elidedInput)
  | .toolResult toolUseId name content isError =>
      let tokens := estimateToolResultTokens content
      if tokens < eliseThreshold then none
      else
        some (.toolResult toolUseId none (summarizeToolResultElision name content tokens) isError, tokens)
  | _ => none

def eliseBlocks (eliseThreshold : Nat) (bs : List ContentBlock) : List ContentBlock :=
  bs.map fun b => ((eliseBlock eliseThreshold b).map Prod.fst).getD b

/-- A message of the old window: `{ ...msg, content: newContent }` if a block was replaced. -/
def eliseMessage (eliseThreshold : Nat) (m : Message) : Message :=
  match m.content with
  | .text _ => m
  | .blocks bs =>
      if bs.any fun b => (eliseBlock eliseThreshold b).isSome then
        { m with content := .blocks (eliseBlocks eliseThreshold bs) }
      else m

structure EliseResult where
  messages : List Message
  saved : Nat
  changed : Bool

/-- `eliseOldToolResults`. The messages before the first oversized block of the old window hold
nothing to replace, so the pass may as well start at the first message. -/
def eliseOldToolResults (messages : List Message) (preserveK eliseThreshold : Nat) : EliseResult :=
  let preserveStart := findPreserveStart messages preserveK
  let elided := (messages.take preserveStart).flatMap fun m =>
    m.blocks.filterMap (eliseBlock eliseThreshold)
  { messages := (messages.take preserveStart).map (eliseMessage eliseThreshold) ++
      messages.drop preserveStart
    saved := (elided.map Prod.snd).sum
    changed := !elided.isEmpty }

/-! ## Cut boundaries -/

/-- Back from the message before a user message (`before` is reversed). -/
def exchangeStartFrom : List Message → Nat
  | [] => 0
  | m :: before =>
      match m.role with
      | .assistant =>
          if m.blocks.any ContentBlock.isToolUse then exchangeStartFrom before else before.length + 1
      | .user => before.length
      | .system => exchangeStartFrom before

def findExchangeStart (messages : List Message) (userIndex : Nat) : Nat :=
  exchangeStartFrom (messages.take userIndex).reverse

/-- The loop of `findSafeBoundary`: `n` turns from the index `i` down. -/
def safeBoundaryFrom (messages : List Message) : Nat → Int → Option Nat
  | 0, _ => none
  | n + 1, i =>
      match if 0 ≤ i then messages[i.toNat]? else none with
      | some m =>
          if m.role = .user ∧ m.hasTextContent = true then some (findExchangeStart messages i.toNat)
          else safeBoundaryFrom messages n (i - 1)
      | none => safeBoundaryFrom messages n (i - 1)

/-- The cut of the range from `lo` to `hi`, `none` for `-1`. -/
def findSafeBoundary (messages : List Message) (lo hi : Int) : Option Nat :=
  safeBoundaryFrom messages (hi - lo + 1).toNat hi

/-! ## The digest -/

def roleName : MessageRole → JsString
  | .user => js "user"
  | .assistant => js "assistant"
  | .system => js "system"

def digestLine (m : Message) : Option JsString :=
  let text := match m.content with
    | .text s => s
    | .blocks bs => JsString.join (js " ") (bs.filterMap fun
        | .text t => some t
        | _ => none)
  let omitted := m.blocks.countP fun b => b.isToolUse || b.isToolResult
  if (JsString.trim text).isEmpty && omitted = 0 then none
  else
    let marker :=
      if 0 < omitted then js " [" ++ decimal omitted ++ js " tool call(s) omitted — see session log]"
      else []
    some (js "[" ++ roleName m.role ++ js "]: " ++ text ++ marker)

def buildLosslessDigest (messages : List Message) : JsString :=
  JsString.join (js "\n") (messages.filterMap digestLine)

end WrongStack.Conversation

/-!
# The conversation state and the agent loop

`ConversationState` (`core/src/core/conversation-state.ts`), and the steps of the agent loop that
write to it: `core/src/core/agent-loop.ts`, `agent-response.ts`, `agent-tools.ts` and
`HybridCompactor` (`core/src/execution/compactor.ts`). Listeners, events and the session log apart
from its checkpoints are left out.
-/

namespace WrongStack.Conversation

open Lib

structure State where
  messages : List Message := []
  toolAdjacencyDirty : Bool := false
  /-- The arguments `promptIndex` of the calls of `writeCheckpoint`. -/
  checkpoints : List Int := []

def withEstimate (m : Message) : Message :=
  match m.estTokens with
  | some _ => m
  | none => { m with estTokens := some (computeMessageTokens m) }

def hasToolBlock (m : Message) : Bool := hasToolUse m || hasToolResult m

namespace State

variable (s : State)

/-! ## `ConversationState` -/

def appendMessage (message : Message) : State :=
  { s with messages := s.messages ++ [withEstimate message] }

/-- The trailing user message with one more block. -/
def withBlock (last : Message) (block : ContentBlock) : Message :=
  let content := match last.content with
    | .text s => Content.blocks [.text s, block]
    | .blocks bs => .blocks (bs ++ [block])
  { last with content, estTokens := some (computeContentTokens content) }

/-- `none` if there is no trailing user message. -/
def appendBlockToLastUserMessage (block : ContentBlock) : Option State :=
  match s.messages.getLast? with
  | some last =>
      if last.role = .user then
        some { s with messages := s.messages.dropLast ++ [withBlock last block] }
      else none
  | none => none

/-- Tool blocks are looked for only in messages without an estimate. -/
def replaceMessages (messages : List Message) : State :=
  { s with
    messages := messages.map withEstimate
    toolAdjacencyDirty := s.toolAdjacencyDirty ||
      messages.any fun m => m.estTokens.isNone && hasToolBlock m }

/-! ## The agent loop -/

/-- `runInner` up to the checkpoint: the user's turn is appended and numbered. -/
def userTurn (content : Content) : State :=
  let s := s.appendMessage { role := .user, content }
  { s with
    checkpoints := s.checkpoints ++ [(s.messages.countP fun m => m.role = .user : Int) - 1] }

def processResponse (content : List ContentBlock) : State :=
  let s := s.appendMessage { role := .assistant, content := .blocks content }
  { s with toolAdjacencyDirty := s.toolAdjacencyDirty || content.any ContentBlock.isToolUse }

def executeTools (resultsForMessage : List ContentBlock) : State :=
  let s := s.appendMessage { role := .user, content := .blocks resultsForMessage }
  { s with toolAdjacencyDirty := s.toolAdjacencyDirty || !resultsForMessage.isEmpty }

def foldBlockIntoConversation (block : ContentBlock) : State :=
  (s.appendBlockToLastUserMessage block).getD
    (s.appendMessage { role := .user, content := .blocks [block] })

/-- `buildAndRunRequestPipeline`: the state whose messages go into the request. -/
def buildRequest : State :=
  if s.toolAdjacencyDirty then
    let repaired := repairToolUseAdjacency s.messages
    let s := { s with toolAdjacencyDirty := false }
    if repaired.report.changed then s.replaceMessages repaired.messages else s
  else s

end State

/-! ## Edits -/

/-- The operations of `ConversationState` on messages, with what elision and repair make of the
current messages as an argument of `replaceMessages`. -/
inductive EditOp
  | appendMessage (message : Message)
  | appendBlockToLastUserMessage (block : ContentBlock)
  | replaceMessages (messages : List Message)
  | replaceElided (preserveK eliseThreshold : Nat)
  | replaceRepaired

def edit (s : State) : EditOp → State
  | .appendMessage message => s.appendMessage message
  | .appendBlockToLastUserMessage block => (s.appendBlockToLastUserMessage block).getD s
  | .replaceMessages messages => s.replaceMessages messages
  | .replaceElided preserveK eliseThreshold =>
      s.replaceMessages (eliseOldToolResults s.messages preserveK eliseThreshold).messages
  | .replaceRepaired => s.replaceMessages (repairToolUseAdjacency s.messages).messages

/-! ## Compaction -/

/-- `HybridCompactor` with the window policy of the call. `historyDigest` is the text it writes for a
removed range: `buildLosslessDigest`, or the smart digest. -/
structure HybridCompactor where
  preserveK : Nat := 5
  eliseThreshold : Nat := 2000
  historyDigest : List Message → JsString := buildLosslessDigest

def findBoundary (messages : List Message) (cutTarget : Nat) : Option Nat :=
  ((messages.drop cutTarget).findIdx? fun m => m.role = .user && m.hasTextContent).map (cutTarget + ·)

def summaryMessage (c : HybridCompactor) (removed : List Message) (evidenceDigest : JsString) : Message :=
  let history := c.historyDigest removed
  let history :=
    if history.isEmpty then
      decimal removed.length ++
        js " earlier turns (no textual content; tool I/O omitted; see session log)"
    else history
  let digest :=
    if evidenceDigest.isEmpty then history
    else js "[context_state]\n" ++ evidenceDigest ++ js "\n\n[prior_history]\n" ++ history
  { role := .system, content := .text (js "[prior_turns_digest: " ++ digest ++ js "]") }

/-- How many messages `collapseAncientTurns` replaces by a digest. -/
def collapseLength (preserveK : Nat) (messages : List Message) : Nat :=
  let cutTarget := messages.length - preserveK * 2
  if cutTarget = 0 then 0 else (findBoundary messages cutTarget).getD 0

namespace State

variable (s : State)

def collapseAncientTurns (c : HybridCompactor) (evidenceDigest : JsString) : State :=
  let boundary := collapseLength c.preserveK s.messages
  if boundary = 0 then s
  else s.replaceMessages
    (summaryMessage c (s.messages.take boundary) evidenceDigest :: s.messages.drop boundary)

def elise (preserveK eliseThreshold : Nat) : State :=
  let elide := eliseOldToolResults s.messages preserveK eliseThreshold
  if elide.changed then s.replaceMessages elide.messages else s

def repair : State :=
  let repaired := repairToolUseAdjacency s.messages
  if repaired.report.changed then s.replaceMessages repaired.messages else s

/-- `HybridCompactor.compact`. `evidenceDigest` is the digest of the context evidence. -/
def compact (c : HybridCompactor) (aggressive : Bool) (evidenceDigest : JsString) : State :=
  let s := s.elise c.preserveK c.eliseThreshold
  let s := if aggressive then s.collapseAncientTurns c evidenceDigest else s
  s.repair

end State

/-! ## Runs of the agent -/

inductive Op
  | userTurn (content : Content)
  | processResponse (content : List ContentBlock)
  | executeTools (results : List ContentBlock)
  | foldBlock (text : JsString)
  | replaceMessages (messages : List Message)
  | compact (c : HybridCompactor) (aggressive : Bool) (evidenceDigest : JsString)
  | buildRequest

def step (s : State) : Op → State
  | .userTurn content => s.userTurn content
  | .processResponse content => s.processResponse content
  | .executeTools results => s.executeTools results
  | .foldBlock text => s.foldBlockIntoConversation (.text text)
  | .replaceMessages messages => s.replaceMessages messages
  | .compact c aggressive evidenceDigest => s.compact c aggressive evidenceDigest
  | .buildRequest => s.buildRequest

end WrongStack.Conversation
