import WrongStack.Conversation.Message
import WrongStack.Lib.JsMap
import WrongStack.Lib.Run

/-!
# Session events

`core/src/types/session.ts`, with the fields that the writer and the rewinder read, and the counters
that a session log is summed up by (`observeForSummary` of `core/src/storage/file-session-writer.ts`).
-/

namespace WrongStack.Session

open Lib
open Conversation (Content ContentBlock)

inductive FileAction
  | created | modified | deleted
  deriving DecidableEq

structure FileSnapshot where
  path : JsString
  action : FileAction
  before : Option JsString
  after : Option JsString
  deriving DecidableEq

structure Usage where
  input : Nat
  output : Nat
  deriving DecidableEq

inductive SessionEvent
  | userInput (content : Content)
  | llmResponse (content : List ContentBlock) (usage : Usage)
  | toolUse (name : JsString) (id : JsString)
  | toolResult (id : JsString) (isError : Bool)
  | toolCallStart (name : JsString) (id : JsString)
  | compaction (before : Nat) (after : Nat)
  | error (message : JsString)
  | providerError (description : JsString)
  | sessionEnd (usage : Usage)
  | inFlightStart (context : JsString)
  | checkpoint (promptIndex : Int) (promptPreview : JsString)
  | fileSnapshot (promptIndex : Int) (files : List FileSnapshot)
  | other (type : JsString) (fields : List (JsString × Json))

/-! ## Secrets -/

structure SecretScrubber where
  scrub : JsString → JsString
  scrubObject : List ContentBlock → List ContentBlock

def scrubEvent : Option SecretScrubber → SessionEvent → SessionEvent
  | some s, .userInput (.text content) => .userInput (.text (s.scrub content))
  | some s, .userInput (.blocks content) => .userInput (.blocks (s.scrubObject content))
  | some s, .llmResponse content usage => .llmResponse (s.scrubObject content) usage
  | _, event => event

/-! ## The summary -/

def userInputTitle (content : Content) : JsString :=
  let text := match content with
    | .text s => s
    | .blocks bs => JsString.join (js " ") (bs.filterMap fun
        | ContentBlock.text t => some t
        | _ => none)
  (if text.isEmpty then js "(non-text input)" else text).take 60

inductive Outcome
  | completed | error | timeout | aborted
  deriving DecidableEq

/-- The fields of the writer that `observeForSummary` updates. -/
structure Counters where
  title : JsString := js "(empty session)"
  tokenTotal : Nat := 0
  tokenIn : Nat := 0
  tokenOut : Nat := 0
  iterationCount : Nat := 0
  toolCallCount : Nat := 0
  toolErrorCount : Nat := 0
  toolBreakdown : JsMap JsString Nat := .empty
  fileChangeCount : Nat := 0
  compactionCount : Nat := 0
  outcome : Option Outcome := none
  openToolUses : List JsString := []
  deriving DecidableEq

def addOnce (ids : List JsString) (id : JsString) : List JsString :=
  if ids.contains id then ids else ids ++ [id]

def observeForSummary (k : Counters) : SessionEvent → Counters
  | .userInput content =>
      if k.title = js "(empty session)" then { k with title := userInputTitle content } else k
  | .llmResponse content usage =>
      { k with
        openToolUses := (content.filterMap ContentBlock.toolUseId?).foldl addOnce k.openToolUses
        tokenIn := k.tokenIn + usage.input
        tokenOut := k.tokenOut + usage.output
        tokenTotal := k.tokenIn + usage.input + (k.tokenOut + usage.output) }
  | .toolUse _ id => { k with openToolUses := addOnce k.openToolUses id }
  | .toolResult id isError =>
      { k with
        openToolUses := k.openToolUses.filter (· ≠ id)
        toolErrorCount := if isError then k.toolErrorCount + 1 else k.toolErrorCount
        outcome := if isError then some .error else k.outcome }
  | .toolCallStart name _ =>
      { k with
        toolCallCount := k.toolCallCount + 1
        toolBreakdown := k.toolBreakdown.set name ((k.toolBreakdown.get? name).getD 0 + 1) }
  | .compaction _ _ => { k with compactionCount := k.compactionCount + 1 }
  | .error _ | .providerError _ => { k with outcome := some .error }
  | .sessionEnd usage =>
      let total := usage.input + usage.output
      if 0 < total then { k with tokenTotal := total } else k
  | .inFlightStart _ => { k with iterationCount := k.iterationCount + 1 }
  | .fileSnapshot _ files => { k with fileChangeCount := k.fileChangeCount + files.length }
  | .checkpoint _ _ | .other _ _ => k

structure SessionSummary where
  title : JsString
  tokenTotal : Nat
  iterationCount : Nat
  toolCallCount : Nat
  toolErrorCount : Nat
  fileChangeCount : Nat
  compactionCount : Option Nat
  toolBreakdown : JsMap JsString Nat
  outcome : Outcome
  deriving DecidableEq

/-- The summary that `doClose` writes. -/
def Counters.finalize (k : Counters) : SessionSummary where
  title := k.title
  tokenTotal := k.tokenTotal
  iterationCount := k.iterationCount
  toolCallCount := k.toolCallCount
  toolErrorCount := k.toolErrorCount
  fileChangeCount := k.fileChangeCount
  compactionCount := if 0 < k.compactionCount then some k.compactionCount else none
  toolBreakdown := k.toolBreakdown
  outcome := k.outcome.getD .completed

/-!
# The session writer

`FileSessionWriter` (`core/src/storage/file-session-writer.ts`): `append`, `appendBatch`, `flush`, the
flush timer and `close`. A call runs without interruption up to its next `await`; what the calls wait
for is part of the state, and the operations that continue them may come in any order.
Serialization, throttled warnings and storage events are left out.
-/

inductive Record
  | start (type : JsString) (ts : JsString) (id : JsString) (model : JsString) (provider : JsString)
  | event (e : SessionEvent)

structure WriterConfig where
  id : JsString
  startedAt : JsString
  model : Option JsString := none
  provider : Option JsString := none
  resumed : Bool := false
  secretScrubber : Option SecretScrubber := none

/-- The record that `writeSessionStartLazy` enqueues. -/
def WriterConfig.startRecord (c : WriterConfig) : Record :=
  .start (if c.resumed then js "session_resumed" else js "session_start") c.startedAt c.id
    (c.model.getD (js "unknown")) (c.provider.getD (js "unknown"))

/-- `initPromise`: null, pending or fulfilled. -/
inductive Init
  | notStarted | pending | done
  deriving DecidableEq

/-- How far `doClose` is: it waits for its own flush, then for the chain, then writes the summary and
closes the handle. -/
inductive Closing
  | notCalled | flushing | draining | finalized | resolved
  deriving DecidableEq

structure Writer where
  closed : Bool := false
  init : Init := .notStarted
  /-- The calls of `append` and `appendBatch` that wait for `ensureInit`, with their events. -/
  suspended : List (List SessionEvent) := []
  counters : Counters := {}
  writeBuffer : List SessionEvent := []
  flushTimer : Bool := false
  /-- The writes that are not on disk yet. -/
  writeChain : List (List Record) := []
  file : List Record := []
  closing : Closing := .notCalled
  /-- The writes at the head of the chain that `doClose` waits for. -/
  awaits : Nat := 0
  /-- The calls that were suspended at `close` are continued before `doClose` is. -/
  resumeFirst : Bool := false
  summary : Option SessionSummary := none

def FLUSH_SIZE : Nat := 50

namespace Writer

variable (c : WriterConfig) (w : Writer)

/-! ## Flushing -/

def enqueueWrite (data : List Record) : Writer := { w with writeChain := w.writeChain ++ [data] }

def flushBuffer : Writer :=
  if w.writeBuffer = [] then w
  else { w.enqueueWrite (w.writeBuffer.map .event) with writeBuffer := [] }

def flush : Writer := { w with flushTimer := false }.flushBuffer

def scheduleFlush : Writer := { w with flushTimer := true }

def timerFires : Writer := if w.flushTimer then w.flush else w

/-! ## Appending -/

def ensureInit : Writer :=
  match w.init with
  | .notStarted => { w.enqueueWrite [c.startRecord] with init := .pending }
  | _ => w

/-- The synchronous part of `appendBatch`, and of `append` with one event. -/
def appendBatch (events : List SessionEvent) : Writer :=
  if w.closed || events.isEmpty then w
  else
    let w := w.ensureInit c
    { w with suspended := w.suspended ++ [events] }

def append (event : SessionEvent) : Writer := w.appendBatch c [event]

def push (event : SessionEvent) : Writer :=
  let scrubbed := scrubEvent c.secretScrubber event
  { w with
    counters := observeForSummary w.counters scrubbed
    writeBuffer := w.writeBuffer ++ [scrubbed] }

/-- The rest of the call: its events are pushed. -/
def continueAppend (events : List SessionEvent) : Writer :=
  let w := events.foldl (push c) w
  if FLUSH_SIZE ≤ w.writeBuffer.length then w.flush else w.scheduleFlush

/-- The calls that wait for the promise are continued in the order they were made. -/
def resume : Writer :=
  match w.init, w.suspended with
  | .done, events :: rest => { w with suspended := rest }.continueAppend c events
  | _, _ => w

/-! ## The disk -/

/-- The write at the head of the chain is done. The handle of a closed writer takes no more. -/
def writeDone : Writer :=
  match w.writeChain with
  | [] => w
  | data :: rest =>
      { w with
        writeChain := rest
        file := if w.closing = .resolved then w.file else w.file ++ data
        awaits := w.awaits - 1 }

/-- `initPromise` is fulfilled some time after the start record is on disk. -/
def initDone : Writer :=
  if w.init = .pending ∧ !w.file.isEmpty then { w with init := .done } else w

/-! ## Closing -/

/-- The synchronous part of `close`. -/
def close : Writer :=
  if w.closed then w
  else
    let pending := !w.writeBuffer.isEmpty
    let resumeFirst : Bool := w.init = .done
    let w := { w with closed := true }.flush
    { w with
      closing := .flushing
      awaits := if pending then w.writeChain.length else 0
      resumeFirst }

/-- The next step of `doClose`, if what it waits for is done. -/
def closeStep : Writer :=
  if w.awaits ≠ 0 then w
  else
    match w.closing with
    | .notCalled => w
    | .flushing =>
        if w.resumeFirst && !w.suspended.isEmpty then w
        else { w with closing := .draining, awaits := w.writeChain.length }
    | .draining => { w with closing := .finalized, summary := some w.counters.finalize }
    | .finalized => { w with closing := .resolved }
    | .resolved => w

end Writer

/-! ## Runs -/

inductive WriterOp
  | append (event : SessionEvent)
  | appendBatch (events : List SessionEvent)
  | flush
  | timerFires
  | close
  | resume
  | writeDone
  | initDone
  | closeStep

def Writer.step (c : WriterConfig) (w : Writer) : WriterOp → Writer
  | .append event => w.append c event
  | .appendBatch events => w.appendBatch c events
  | .flush => w.flush
  | .timerFires => w.timerFires
  | .close => w.close
  | .resume => w.resume c
  | .writeDone => w.writeDone
  | .initDone => w.initDone
  | .closeStep => w.closeStep

/-- The events of the calls made before `close`, in the order of the calls. -/
def Writer.called (events : List SessionEvent) (w : Writer) : WriterOp → List SessionEvent
  | .append event => if w.closed then events else events ++ [event]
  | .appendBatch batch => if w.closed then events else events ++ batch
  | _ => events

end WrongStack.Session
