import WrongStack.Tools.ToolExecutor

/-!
# Executing the tools of one answer

`executeBatch` with its strategies, and `executeTools` and `executeSingleWithDecision`
(`core/src/core/agent-tools.ts`), which confirm what the batch has left pending. The steps are those of the
world: what it answers, and when. In a parallel pass every call may begin at any time. Session events and
tool evidence are left out; the log of the session and the `toolCall` pipeline do not throw.
-/

namespace WrongStack.Tools

open Lib Permission

inductive Phase
  /-- `executeBatch` -/
  | executing
  /-- The positions of the outputs that are still to be handled. -/
  | handling (rest : List Nat)
  /-- `waitForConfirm` -/
  | confirming (i : Nat) (tool : Tool) (pending : ToolConfirmPendingResult) (rest : List Nat)
  /-- `executeSingleWithDecision` -/
  | rerunning (i : Nat) (tool : Tool) (pending : ToolConfirmPendingResult) (rest : List Nat)
  | returned

structure Batch where
  stages : Nat → Stage := fun _ => .waiting
  budget : Nat
  phase : Phase := .executing
  resultsForMessage : List ToolResult := []
  /-- The user messages that have been appended. -/
  messages : List (List ToolResult) := []
  log : List Event := []

def Setup.batch (o : Setup) : Batch := { budget := o.perIterationOutputCapBytes }

inductive Op
  | call (i : Nat) (reply : Reply)
  /-- `executeBatch` returns -/
  | gather
  /-- the next output is looked at -/
  | handle
  | answer (choice : Choice) (signal : Option Thrown)
  | rerun (run : ToolRun) (late : Option Thrown) (filePath : Option JsString)
  | append

def Stage.isSettled : Stage → Bool
  | settled _ => true
  | _ => false

namespace Setup

variable (o : Setup) (uses : List ToolUse)

def isMutating (i : Nat) : Bool := (uses[i]?.bind fun use => o.registry.get use.name).any (·.mutating)

/-- The call at `j` has settled before the one at `i` begins. -/
def precedes (j i : Nat) : Bool :=
  match o.strategy with
  | .sequential => decide (j < i)
  | .parallel => false
  | .smart => o.isMutating uses i && (!o.isMutating uses j || decide (j < i))

/-- The positions in the order of the outputs. -/
def order : List Nat :=
  match o.strategy with
  | .smart =>
      (List.range uses.length).filter (fun i => !o.isMutating uses i) ++
        (List.range uses.length).filter (o.isMutating uses)
  | _ => List.range uses.length

def useById (id : JsString) : Option ToolUse := uses.reverse.find? (·.id == id)

variable (b : Batch)

def canBegin (i : Nat) : Bool :=
  (List.range uses.length).all fun j => !o.precedes uses j i || (b.stages j).isSettled

def call (i : Nat) (use : ToolUse) (reply : Reply) : Option Batch :=
  (o.resume i use b.budget (b.stages i) reply).map fun r =>
    { b with
      stages := Function.update b.stages i r.stage
      budget := r.budget
      log := b.log ++ r.events }

/-- A result is pushed, and reported with `input`. -/
def push (i : Nat) (result : ToolResult) (input : ToolUse → Json) (rest : List Nat) : Batch :=
  { b with
    phase := .handling rest
    resultsForMessage := b.resultsForMessage ++ [result]
    log := b.log ++ (useById uses result.toolUseId).toList.map fun use => .reported i (input use) }

def handle (i : Nat) (rest : List Nat) : Option Batch :=
  match b.stages i with
  | .settled (.result result) => some (push uses b i result ToolUse.input rest)
  | .settled (.pending tool pending) =>
      some { b with phase := .confirming i tool pending rest, log := b.log ++ [.asked i pending.input] }
  | _ => none

/-- The result of a confirmed call that was not run, or that threw. -/
def confirmedResult (pending : ToolConfirmPendingResult) (content : JsString) : ToolResult :=
  { toolUseId := pending.toolUseId, content, isError := true }

/-- The `catch` of `executeSingleWithDecision`. -/
def rerunCatch (tool : Tool) (pending : ToolConfirmPendingResult) (err : Thrown) : ToolResult :=
  confirmedResult pending (quoted tool.name ++ js " threw: " ++ toErrorMessage err)

def refused (tool : Tool) (pending : ToolConfirmPendingResult) (choice : Choice) : ToolResult :=
  confirmedResult pending (quoted tool.name ++
    if choice = .deny then js " denied and blocked for this pattern." else js " denied by user.")

def answer (i : Nat) (tool : Tool) (pending : ToolConfirmPendingResult) (rest : List Nat) (choice : Choice)
    (signal : Option Thrown) : Batch :=
  let b := { b with log := b.log ++ [.answered i choice] }
  if choice.approves then
    match signal with
    | some err => push uses b i (rerunCatch tool pending err) (fun _ => pending.input) rest
    | none =>
        { b with phase := .rerunning i tool pending rest, log := b.log ++ [.started i pending.input] }
  else push uses b i (refused tool pending choice) (fun _ => pending.input) rest

def rerunResult (tool : Tool) (pending : ToolConfirmPendingResult) (run : ToolRun) (late : Option Thrown)
    (filePath : Option JsString) : ToolResult :=
  match o.produceToolOutput tool run late filePath o.agentOutputCapBytes with
  | .ok text =>
      (settleToolOutput tool ⟨pending.toolUseId, tool.name, pending.input⟩ text o.agentOutputCapBytes).1
  | .error err => rerunCatch tool pending err

def step? : Op → Option Batch
  | .call i reply =>
      match b.phase, uses[i]? with
      | .executing, some use =>
          match b.stages i with
          | .waiting => if o.canBegin uses b i then o.call b i use reply else none
          | _ => o.call b i use reply
      | _, _ => none
  | .gather =>
      match b.phase with
      | .executing =>
          if (List.range uses.length).all fun i => (b.stages i).isSettled then
            some { b with phase := .handling (o.order uses) }
          else none
      | _ => none
  | .handle =>
      match b.phase with
      | .handling (i :: rest) => handle uses b i rest
      | _ => none
  | .answer choice signal =>
      match b.phase with
      | .confirming i tool pending rest =>
          if o.headless && choice != .deny then none else some (answer uses b i tool pending rest choice signal)
      | _ => none
  | .rerun run late filePath =>
      match b.phase with
      | .rerunning i tool pending rest =>
          some (push uses { b with log := b.log ++ [.finished i] } i
            (o.rerunResult tool pending run late filePath) (fun _ => pending.input) rest)
      | _ => none
  | .append =>
      match b.phase with
      | .handling [] => some { b with phase := .returned, messages := b.messages ++ [b.resultsForMessage] }
      | _ => none

/-- A step that the code cannot take now changes nothing. -/
def step (op : Op) : Batch := (o.step? uses b op).getD b

end Setup

end WrongStack.Tools

/-!
# Batches under the default policy

`executeTools` for one answer of the model after the other, with a `DefaultPermissionPolicy` that every call
and every answer of the user goes to. Only `executeTools` grants once; the rest of the policy is the host's.
-/

namespace WrongStack.Tools

open Lib Permission

structure Session where
  policy : Permission.State
  uses : List ToolUse
  batch : Batch

inductive SessionOp
  /-- the next answer of the model, once `executeTools` has returned -/
  | begin (uses : List ToolUse)
  | evaluate (i : Nat) (ctx : Context) (signal : Option Thrown)
  /-- `written` is whether the trust file could be written. -/
  | answer (choice : Choice) (signal : Option Thrown) (written : Bool)
  | other (op : Op)
  | host (op : Permission.Op)

def Setup.session (o : Setup) (opts : Permission.Options) (trustFile : TrustFile) (uses : List ToolUse) :
    Session :=
  { policy := Permission.init opts trustFile, uses, batch := o.batch }

/-- What `executeTools` tells the policy; errors of the trust file are caught. -/
def remember (policy : Permission.State) (rule : Rule) (written : Bool) : Choice → Permission.State
  | .always => policy.trust rule written
  | .deny => policy.deny rule written
  | .yes => policy.allowOnce rule
  | .no => policy.denyOnce rule

namespace Session

variable (o : Setup) (s : Session)

def take (policy : Permission.State) (op : Op) : Option Session :=
  (o.step? s.uses s.batch op).map fun batch => { s with policy, batch }

def step? : SessionOp → Option Session
  | .begin uses =>
      match s.batch.phase with
      | .returned => some { s with uses, batch := o.batch }
      | _ => none
  | .evaluate i ctx signal =>
      match s.batch.stages i with
      | .evaluate tool input =>
          let (decision, policy) := s.policy.evaluate ⟨tool.toTool, input, ctx⟩
          s.take o policy (.call i (.evaluate (.ok (decision, policy.yolo)) signal))
      | _ => none
  | .answer choice signal written =>
      match s.batch.phase with
      | .confirming _ tool pending _ =>
          s.take o (remember s.policy ⟨tool.name, pending.suggestedPattern⟩ written choice) (.answer choice signal)
      | _ => none
  | .other op =>
      match op with
      | .call _ (.evaluate ..) | .answer .. => none
      | op => s.take o s.policy op
  | .host op =>
      match op with
      | .evaluate _ | .allowOnce _ | .denyOnce _ => none
      | op => some { s with policy := Permission.step s.policy op }

def step (op : SessionOp) : Session := (s.step? o op).getD s

end Session

end WrongStack.Tools
