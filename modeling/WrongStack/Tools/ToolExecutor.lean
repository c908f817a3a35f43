import WrongStack.Permission.Policy
import WrongStack.Utils.JsonRepair

/-!
# Tool output under a budget

The cap of the serializer (`core/src/utils/tool-output-serializer.ts`), and what is kept of a large output
(`maybePersistLargeToolOutput` in `core/src/execution/tool-executor.ts`). An output is given by the text that
`serialize` makes of it.
-/

namespace WrongStack.Tools

open Lib

/-- `Buffer.byteLength(text, 'utf8')`; a surrogate that is not in a pair is replaced by U+FFFD. -/
def byteLength : JsString → Nat
  | hi :: lo :: rest =>
      if 0xD800 ≤ hi && hi < 0xDC00 && 0xDC00 ≤ lo && lo < 0xE000 then 4 + byteLength rest
      else unitBytes hi + byteLength (lo :: rest)
  | [c] => unitBytes c
  | [] => 0
where
  unitBytes (c : CodeUnit) : Nat := if c < 0x80 then 1 else if c < 0x800 then 2 else 3

/-- `text.slice(text.length - n)`; a negative start counts from the end. -/
def sliceEnd (text : JsString) (n : Nat) : JsString :=
  text.drop (if n ≤ text.length then text.length - n else 2 * text.length - n)

structure Capped where
  text : JsString
  newBudget : Nat

def exhausted : Capped := ⟨js "[truncated: iteration output cap exceeded]", 0⟩

def enforceCap (text : JsString) (remainingBudget : Nat) : Capped :=
  if remainingBudget = 0 then exhausted
  else if byteLength text ≤ remainingBudget then ⟨text, remainingBudget - byteLength text⟩
  else
    let marker := js s!"\n…[truncated {byteLength text - remainingBudget} bytes]…\n"
    let available := remainingBudget - byteLength marker
    if available = 0 then exhausted
    else ⟨text.take (available / 2) ++ marker ++ sliceEnd text (available / 2), 0⟩

def budgetForString (content : JsString) (budget : Nat) : Nat := budget - byteLength content

def TOOL_OUTPUT_ARTIFACT_THRESHOLD_BYTES : Nat := 64 * 1024

/-- `filePath` is where the artifact is written, unless that fails. -/
def maybePersistLargeToolOutput (content : JsString) (budget : Nat) (filePath : Option JsString) : JsString :=
  if byteLength content ≤ min TOOL_OUTPUT_ARTIFACT_THRESHOLD_BYTES budget then content
  else
    match filePath with
    | some filePath =>
        content ++ js s!"\n[full tool output: {byteLength content} bytes at " ++ filePath ++
          js ("; read/grep that file selectively instead of re-running or requesting more output]")
    | none => content

end WrongStack.Tools

/-!
# The tool executor

`ToolExecutor` (`core/src/execution/tool-executor.ts`): one call of a batch, from one `await` to the next.
The world answers what is awaited. A batch shares one output budget. Rendering, tracing, logging and
progress events are left out, and the hooks are awaited also where none is registered.
-/

namespace WrongStack.Tools

open Lib Utils Permission

/-! ## Data -/

/-- What is thrown, with what `toErrorMessage` and, for a `WrongStackError`, `describe` make of it. -/
inductive Thrown
  | bare (message : JsString)
  | structured (message description : JsString)
  deriving DecidableEq

def toErrorMessage : Thrown → JsString
  | .bare message => message
  | .structured message _ => message

structure Tool extends Permission.Tool where
  inputSchema : JSONSchema
  validate : Option (Json → Except Thrown (List JsString)) := none

structure ToolUse where
  id : JsString
  name : JsString
  input : Json

structure ToolResult where
  toolUseId : JsString
  name : Option JsString := none
  content : JsString
  isError : Bool
  deriving DecidableEq

structure ToolConfirmPendingResult where
  toolUseId : JsString
  toolName : JsString
  input : Json
  suggestedPattern : JsString
  decisionSource : Source
  riskTier : Option RiskTier

inductive Output
  | result (result : ToolResult)
  | pending (tool : Tool) (pending : ToolConfirmPendingResult)

structure Registry where
  get : JsString → Option Tool
  /-- The names of `list()`. -/
  names : List JsString

inductive Strategy
  | parallel | sequential | smart
  deriving DecidableEq

/-- The executor and the agent around it. -/
structure Setup where
  registry : Registry
  scrub : JsString → JsString
  strategy : Strategy
  /-- Whether the executor asks the user itself. -/
  confirmAwaiter : Bool := false
  /-- Whether nothing listens to `tool.confirm_needed`. -/
  headless : Bool := false
  perIterationOutputCapBytes : Nat := 100000
  /-- The agent's own, for calls that the user has confirmed. -/
  agentOutputCapBytes : Nat := 100000

inductive Choice
  | yes | no | always | deny
  deriving DecidableEq

def Choice.approves : Choice → Bool
  | yes | always => true
  | no | deny => false

/-- What a batch does that can be seen from outside, by the position of the tool use. -/
inductive Event
  | evaluated (i : Nat) (input : Json)
  | asked (i : Nat) (input : Json)
  | answered (i : Nat) (choice : Choice)
  /-- The tool starts to run. -/
  | started (i : Nat) (input : Json)
  | finished (i : Nat)
  /-- `tool.executed` -/
  | reported (i : Nat) (input : Json)

/-- What a call awaits. -/
inductive Stage
  | waiting
  | preToolUse (tool : Tool)
  | evaluate (tool : Tool) (input : Json)
  | confirmAwaiter (tool : Tool) (input : Json)
  | execute (tool : Tool) (input : Json) (budgetHint : Nat)
  | postToolUse (tool : Tool) (result : ToolResult)
  | settled (output : Output)

structure PreToolUseResult where
  block : Bool := false
  reason : Option JsString := none
  input : Option Json := none

inductive StreamEvent
  | final (output : JsString)
  | other

/-- What a tool does when it is run. -/
inductive ToolRun
  | execute (outcome : Except Thrown JsString)
  /-- The stream ends, or it throws. -/
  | executeStream (events : List StreamEvent) (thrown : Option Thrown)

/-- What the world answers. `signal` is what an abort of the run makes the executor throw. -/
inductive Reply
  | begin
  | preToolUse (outcome : Except Thrown PreToolUseResult)
  /-- The decision, and `getYolo()` after it. -/
  | evaluate (outcome : Except Thrown (PermissionDecision × Bool)) (signal : Option Thrown)
  | confirmAwaiter (outcome : Except Thrown Choice) (signal : Option Thrown)
  /-- `late` is what an abort or a timeout throws after the tool has returned. -/
  | execute (run : ToolRun) (late : Option Thrown) (filePath : Option JsString)
  | postToolUse (outcome : Except Thrown (Option JsString))

/-- A call at its next `await`. -/
structure Resumed where
  stage : Stage
  budget : Nat
  events : List Event := []

/-! ## Results that the executor builds -/

def quoted (name : JsString) : JsString := js "Tool \"" ++ name ++ js "\""

def errorResult (use : ToolUse) (content : JsString) : ToolResult :=
  { toolUseId := use.id, content, isError := true }

def unknownToolResult (registry : Registry) (use : ToolUse) : ToolResult :=
  errorResult use (quoted use.name ++ js " is not registered. Available tools: " ++
    JsString.join (js ", ") registry.names)

def schemaErrors (errors : List ValidationError) : JsString :=
  JsString.join (js "\n") (errors.map fun e =>
    js "  - " ++ (if e.path.isEmpty then js "input" else e.path) ++ js ": " ++ e.message)

def invalidResult (use : ToolUse) (tool : Tool) (errors : List ValidationError) : ToolResult :=
  errorResult use (js "Invalid arguments for tool \"" ++ tool.name ++ js "\".\n\nValidation errors:\n" ++
    schemaErrors errors ++ js "\n\nPlease call the tool again with arguments that match its inputSchema. " ++
    js "You can use the \"tool-help\" tool with name=\"" ++ tool.name ++
    js "\" to see the exact expected schema.")

def rewrittenInvalidResult (use : ToolUse) (tool : Tool) (errors : List ValidationError) : ToolResult :=
  errorResult use (js "A PreToolUse hook rewrote the arguments for \"" ++ tool.name ++
    js "\" into an invalid shape.\n\nValidation errors:\n" ++ schemaErrors errors)

def crossFieldResult (use : ToolUse) (tool : Tool) (errors : List JsString) : ToolResult :=
  errorResult use (js "Invalid arguments for tool \"" ++ tool.name ++ js "\".\n\nValidation errors:\n" ++
    JsString.join (js "\n") (errors.map (js "  - " ++ ·)))

def MALFORMED_ARG_MARKERS : List JsString := ["__raw", "__raw_arguments", "_raw"].map js

/-- The value under the only key, if that is a marker. -/
def hasMalformedArguments : Json → Option Json
  | .obj [(key, value)] => if MALFORMED_ARG_MARKERS.contains key then some value else none
  | _ => none

def extractMalformedRaw : Json → JsString
  | .null => []
  | .str s => s
  | value => value.stringify

def malformedInputResult (use : ToolUse) (raw : JsString) : ToolResult :=
  errorResult use (quoted use.name ++ js " received arguments that were not a valid JSON object, so they " ++
    js "could not be parsed. Re-issue the call with the arguments encoded as a single " ++
    js "well-formed JSON object matching the tool's input schema." ++
    if raw.isEmpty then []
    else
      js " Common cause: a string field (e.g. code in old_string/new_string) " ++
        js "contains literal newlines, quotes, or backslashes that must be JSON-escaped, " ++
        js "or the payload was cut off mid-stream. The raw arguments received were:\n" ++
        if raw.length > 800 then raw.take 800 ++ js s!"… (truncated, {raw.length} chars total)" else raw)

def blockedByHookResult (use : ToolUse) (reason : Option JsString) : ToolResult :=
  errorResult use (quoted use.name ++ js " was blocked by a PreToolUse hook: " ++
    reason.getD (js "no reason given"))

def deniedResult (use : ToolUse) (reason : Option String) : ToolResult :=
  errorResult use (quoted use.name ++ js " denied: " ++ js (reason.getD "policy"))

def deniedByUserResult (use : ToolUse) (tool : Tool) : ToolResult :=
  errorResult use (quoted tool.name ++ js " denied by user.")

/-! ## Running a tool -/

/-- Events after the final one are not read. -/
def runStreamedTool (tool : Tool) (thrown : Option Thrown) : List StreamEvent → Except Thrown JsString
  | .final output :: _ => .ok output
  | .other :: events => runStreamedTool tool thrown events
  | [] =>
      match thrown with
      | some err => .error err
      | none =>
          let message := js "tool \"" ++ tool.name ++ js "\" executeStream completed without a 'final' event"
          .error (.structured message (js "TOOL_EXECUTION_FAILED: " ++ message ++ js " [tool=" ++ tool.name ++
            js " reason=missing_final_event]"))

def runWithTimeout (tool : Tool) (run : ToolRun) (late : Option Thrown) : Except Thrown JsString := do
  let output ← match run with
    | .execute outcome => outcome
    | .executeStream events thrown => runStreamedTool tool thrown events
  match late with
  | some err => .error err
  | none => .ok output

namespace Setup

variable (o : Setup)

def produceToolOutput (tool : Tool) (run : ToolRun) (late : Option Thrown) (filePath : Option JsString)
    (budgetHint : Nat) : Except Thrown JsString :=
  (runWithTimeout tool run late).map fun text =>
    maybePersistLargeToolOutput (o.scrub text) budgetHint filePath

/-- The result, and the bytes that it costs. -/
def settleToolOutput (tool : Tool) (use : ToolUse) (text : JsString) (budget : Nat) : ToolResult × Nat :=
  let capped := enforceCap text budget
  ({ toolUseId := use.id, name := some tool.name, content := capped.text, isError := false },
    budget - capped.newBudget)

/-! ## One call -/

def settle (budget : Nat) (result : ToolResult) : Resumed :=
  ⟨.settled (.result result), budgetForString result.content budget, []⟩

/-- The `catch` of `safeRun`. -/
def safeRunCatch (use : ToolUse) (budget : Nat) (err : Thrown) : Resumed :=
  settle budget (errorResult use (match err with
    | .structured _ description => o.scrub description
    | .bare message => quoted use.name ++ js " execution failed: " ++ o.scrub message))

/-- The `catch` of `runOne` passes structured errors on. -/
def runOneCatch (use : ToolUse) (tool : Tool) (budget : Nat) (err : Thrown) : Resumed :=
  match err with
  | .structured .. => o.safeRunCatch use budget err
  | .bare message => settle budget (errorResult use (quoted tool.name ++ js " threw: " ++ o.scrub message))

/-- The registry, the schema and malformed arguments. -/
def begin (use : ToolUse) (budget : Nat) : Resumed :=
  match o.registry.get use.name with
  | none => settle budget (unknownToolResult o.registry use)
  | some tool =>
      match validateAgainstSchema use.input tool.inputSchema with
      | [] =>
          match hasMalformedArguments use.input with
          | some value => settle budget (malformedInputResult use (extractMalformedRaw value))
          | none => ⟨.preToolUse tool, budget, []⟩
      | errors => settle budget (invalidResult use tool errors)

/-- Cross-field validation, before the policy is asked. -/
def crossFields (i : Nat) (use : ToolUse) (tool : Tool) (input : Json) (budget : Nat) : Resumed :=
  match tool.validate with
  | none => ⟨.evaluate tool input, budget, [.evaluated i input]⟩
  | some validate =>
      match validate input with
      | .ok [] => ⟨.evaluate tool input, budget, [.evaluated i input]⟩
      | .ok errors => settle budget (crossFieldResult use tool errors)
      | .error err => o.safeRunCatch use budget err

def afterHook (i : Nat) (use : ToolUse) (tool : Tool) (pre : PreToolUseResult) (budget : Nat) : Resumed :=
  if pre.block then settle budget (blockedByHookResult use pre.reason)
  else
    match pre.input with
    | none => o.crossFields i use tool use.input budget
    | some input =>
        if deepEqual input use.input then o.crossFields i use tool use.input budget
        else
          match validateAgainstSchema input tool.inputSchema with
          | [] => o.crossFields i use tool input budget
          | errors => settle budget (rewrittenInvalidResult use tool errors)

def DANGEROUS_FOR_SUBAGENTS : List String :=
  ["shell.arbitrary", "shell.restricted", "shell.exec", "fs.write", "fs.write.outside-project",
    "tool.mutate.any", "memory.write", "memory.delete", "mcp.proxy", "subagent.spawn", "config.mutate",
    "package.install"]

def getDangerousCapabilities (tool : Permission.Tool) : List String :=
  tool.capabilities.filter DANGEROUS_FOR_SUBAGENTS.contains

/-- Outside of YOLO a tool with dangerous capabilities is at least confirmed. -/
def effectivePermission (tool : Permission.Tool) (decision : PermissionDecision) (yolo : Bool) :
    PermissionKind :=
  if !(getDangerousCapabilities tool).isEmpty && decision.permission == .auto && !yolo &&
      decision.source != .yolo then .confirm
  else decision.permission

/-- The tool is run, unless the run of the agent has been aborted. -/
def execute (i : Nat) (use : ToolUse) (tool : Tool) (input : Json) (signal : Option Thrown) (budget : Nat) :
    Resumed :=
  match signal with
  | some err => o.runOneCatch use tool budget err
  | none => ⟨.execute tool input budget, budget, [.started i input]⟩

def confirmPending (use : ToolUse) (tool : Tool) (input : Json) (decision : PermissionDecision) :
    ToolConfirmPendingResult where
  toolUseId := use.id
  toolName := tool.name
  input := input
  suggestedPattern := (subjectForToolInput tool.name input tool.subjectKey).getD tool.name
  decisionSource := decision.source
  riskTier := decision.riskTier <|> tool.riskTier

def afterEvaluate (i : Nat) (use : ToolUse) (tool : Tool) (input : Json) (decision : PermissionDecision)
    (yolo : Bool) (signal : Option Thrown) (budget : Nat) : Resumed :=
  match effectivePermission tool.toTool decision yolo with
  | .deny => settle budget (deniedResult use decision.reason)
  | .confirm =>
      if o.confirmAwaiter then ⟨.confirmAwaiter tool input, budget, [.asked i input]⟩
      else ⟨.settled (.pending tool (confirmPending use tool input decision)), budget, []⟩
  | .auto => o.execute i use tool input signal budget

def afterConfirm (i : Nat) (use : ToolUse) (tool : Tool) (input : Json) (choice : Choice)
    (signal : Option Thrown) (budget : Nat) : Resumed :=
  if choice.approves then
    { o.execute i use tool input signal budget with
      events := .answered i choice :: (o.execute i use tool input signal budget).events }
  else { settle budget (deniedByUserResult use tool) with events := [.answered i choice] }

def afterExecute (i : Nat) (use : ToolUse) (tool : Tool) (produced : Except Thrown JsString) (budget : Nat) :
    Resumed :=
  match produced with
  | .ok text =>
      let (result, bytes) := settleToolOutput tool use text budget
      ⟨.postToolUse tool result, budget - bytes, [.finished i]⟩
  | .error err => { o.runOneCatch use tool budget err with events := [.finished i] }

/-- What a hook adds is part of the result. -/
def afterPostToolUse (result : ToolResult) (additionalContext : Option JsString) (budget : Nat) : Resumed :=
  match truthyString additionalContext with
  | some context =>
      let appended := js "\n\n" ++ context
      ⟨.settled (.result { result with content := result.content ++ appended }),
        budgetForString appended budget, []⟩
  | none => ⟨.settled (.result result), budget, []⟩

/-- `safeRun(use)` from one `await` to the next; `none` when the reply is to something else. -/
def resume (i : Nat) (use : ToolUse) (budget : Nat) : Stage → Reply → Option Resumed
  | .waiting, .begin => some (o.begin use budget)
  | .preToolUse tool, .preToolUse outcome => some (match outcome with
      | .ok pre => o.afterHook i use tool pre budget
      | .error err => o.safeRunCatch use budget err)
  | .evaluate tool input, .evaluate outcome signal => some (match outcome with
      | .ok (decision, yolo) => o.afterEvaluate i use tool input decision yolo signal budget
      | .error err => o.safeRunCatch use budget err)
  | .confirmAwaiter tool input, .confirmAwaiter outcome signal => some (match outcome with
      | .ok choice => o.afterConfirm i use tool input choice signal budget
      | .error err => o.safeRunCatch use budget err)
  | .execute tool _ budgetHint, .execute run late filePath =>
      some (o.afterExecute i use tool (o.produceToolOutput tool run late filePath budgetHint) budget)
  | .postToolUse tool result, .postToolUse outcome => some (match outcome with
      | .ok additionalContext => afterPostToolUse result additionalContext budget
      | .error err => o.runOneCatch use tool budget err)
  | _, _ => none

end Setup

end WrongStack.Tools
