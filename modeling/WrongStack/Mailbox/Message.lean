import WrongStack.Lib.JsMap
import WrongStack.Lib.Json

/-!
# Messages and the lines of the message file

`MailboxMessage` (`core/src/coordination/mailbox-types.ts`) and the lines of `_mailbox.jsonl`. A line is
what `JSON.parse` makes of it, and its length; what is left of a line that is cut off at its start is
never JSON.
-/

namespace WrongStack.Mailbox

open Lib

inductive MailboxMessageType
  | note | ask | assign | steer | btw | broadcast | status | result | review | control
  deriving DecidableEq

namespace MailboxMessageType

def text : MailboxMessageType → JsString
  | note => js "note"
  | ask => js "ask"
  | assign => js "assign"
  | steer => js "steer"
  | btw => js "btw"
  | broadcast => js "broadcast"
  | status => js "status"
  | result => js "result"
  | review => js "review"
  | control => js "control"

end MailboxMessageType

inductive Priority
  | low | normal | high
  deriving DecidableEq

namespace Priority

def text : Priority → JsString
  | low => js "low"
  | normal => js "normal"
  | high => js "high"

def order : Priority → Nat
  | low => 0
  | normal => 1
  | high => 2

end Priority

inductive TaskStatus
  | pending | inProgress | completed | failed
  deriving DecidableEq

def TaskStatus.text : TaskStatus → JsString
  | pending => js "pending"
  | inProgress => js "in_progress"
  | completed => js "completed"
  | failed => js "failed"

structure MailboxTaskContext where
  agentRole : Option JsString := none
  agentName : Option JsString := none
  taskId : Option JsString := none
  status : Option TaskStatus := none
  deriving DecidableEq

abbrev ReadReceipts := JsMap JsString JsString

structure MailboxMessage where
  id : JsString
  «from» : JsString
  «to» : JsString
  type : MailboxMessageType
  subject : JsString
  body : JsString
  priority : Priority
  readBy : ReadReceipts := .empty
  completed : Bool := false
  completedBy : Option JsString := none
  outcome : Option JsString := none
  timestamp : JsString
  completedAt : Option JsString := none
  deletedAt : Option JsString := none
  deletedBy : Option JsString := none
  replyTo : Option JsString := none
  taskContext : Option MailboxTaskContext := none
  senderSessionId : Option JsString := none
  deriving DecidableEq

/-- What every object has, whatever its own keys are. -/
def objectPrototype : List JsString :=
  [js "constructor", js "__defineGetter__", js "__defineSetter__", js "hasOwnProperty",
    js "__lookupGetter__", js "__lookupSetter__", js "isPrototypeOf", js "propertyIsEnumerable",
    js "toString", js "valueOf", js "__proto__", js "toLocaleString"]

/-- `agentId in readBy` -/
def ReadReceipts.contains (readBy : ReadReceipts) (agentId : JsString) : Bool :=
  readBy.has agentId || objectPrototype.contains agentId

/-! ## `JSON.stringify` -/

def stringField (key : String) (value : JsString) : JsString × Json := (js key, .str value)

/-- `undefined` is not written. -/
def optionalField (key : String) : Option JsString → List (JsString × Json)
  | some value => [stringField key value]
  | none => []

def MailboxTaskContext.toJson (context : MailboxTaskContext) : Json :=
  .obj (optionalField "agentRole" context.agentRole ++ optionalField "agentName" context.agentName ++
    optionalField "taskId" context.taskId ++ optionalField "status" (context.status.map TaskStatus.text))

def MailboxMessage.toJson (msg : MailboxMessage) : Json :=
  .obj ([stringField "id" msg.id, stringField "from" msg.from, stringField "to" msg.to,
      stringField "type" msg.type.text, stringField "subject" msg.subject, stringField "body" msg.body,
      stringField "priority" msg.priority.text,
      (js "readBy", .obj (msg.readBy.entries.map fun p => (p.1, .str p.2))),
      (js "completed", .bool msg.completed), stringField "timestamp" msg.timestamp] ++
    optionalField "replyTo" msg.replyTo ++
    (match msg.taskContext with
      | some context => [(js "taskContext", context.toJson)]
      | none => []) ++
    optionalField "completedBy" msg.completedBy ++ optionalField "completedAt" msg.completedAt ++
    optionalField "outcome" msg.outcome ++ optionalField "deletedAt" msg.deletedAt ++
    optionalField "deletedBy" msg.deletedBy ++ optionalField "senderSessionId" msg.senderSessionId)

/-- The bytes of a code unit in UTF-8; a surrogate has half of those of its pair. -/
def utf8Bytes (c : CodeUnit) : Nat :=
  if c < 0x80 then 1
  else if c < 0x800 then 2
  else if 0xD800 ≤ c && c < 0xE000 then 2
  else 3

def utf8Length (s : JsString) : Nat := s.foldr (fun c n => utf8Bytes c + n) 0

/-! ## Lines -/

/-- A parsed line. Messages that were written before there were receipts have `read` and `readAt` in
the place of `readBy`. -/
structure ParsedLine where
  message : MailboxMessage
  readBy : Option ReadReceipts
  read : Bool := false
  readAt : Option JsString := none
  deriving DecidableEq

/-- Migrate old `read: boolean` + `readAt` to new `readBy`. -/
def ParsedLine.migrate (parsed : ParsedLine) : MailboxMessage :=
  match parsed.readBy with
  | some readBy => { parsed.message with readBy }
  | none =>
      match parsed.readAt with
      | some readAt =>
          if parsed.read && readAt ≠ [] then
            { parsed.message with readBy := JsMap.set .empty parsed.message.to readAt }
          else { parsed.message with readBy := .empty }
      | none => { parsed.message with readBy := .empty }

/-- `parsed` is `none` for a line that is blank or malformed. -/
structure Line where
  length : Nat
  parsed : Option ParsedLine
  deriving DecidableEq

namespace Line

/-- The bytes of the line and of the line feed that ends it. -/
def size (line : Line) : Nat := line.length + 1

def message (line : Line) : Option MailboxMessage := line.parsed.map ParsedLine.migrate

def ofMessage (msg : MailboxMessage) : Line where
  length := utf8Length msg.toJson.stringify
  parsed := some { message := msg, readBy := some msg.readBy }

end Line

/-- `_parseLines` -/
def parseLines (lines : List Line) : List MailboxMessage := lines.filterMap Line.message

@[simp] theorem parseLines_append (lines lines' : List Line) :
    parseLines (lines ++ lines') = parseLines lines ++ parseLines lines' :=
  List.filterMap_append

@[simp] theorem parseLines_ofMessage (messages : List MailboxMessage) :
    parseLines (messages.map Line.ofMessage) = messages := by
  rw [parseLines, List.filterMap_map]
  exact List.filterMap_some

def sizeOfLines (lines : List Line) : Nat := lines.foldr (fun line n => line.size + n) 0

/-- The lines that start at the byte `offset` or after it. -/
def linesFrom : Nat → List Line → List Line
  | 0, lines => lines
  | _ + 1, [] => []
  | offset + 1, line :: lines => linesFrom (offset + 1 - line.size) lines

@[simp] theorem linesFrom_zero (lines : List Line) : linesFrom 0 lines = lines := by rw [linesFrom]

theorem sizeOfLines_cons (line : Line) (lines : List Line) :
    sizeOfLines (line :: lines) = line.size + sizeOfLines lines := rfl

theorem linesFrom_sizeOfLines (lines lines' : List Line) :
    linesFrom (sizeOfLines lines) (lines ++ lines') = lines' := by
  induction lines with
  | nil => exact linesFrom_zero lines'
  | cons line lines ih =>
      have hsize : sizeOfLines (line :: lines) = (line.length + sizeOfLines lines) + 1 := by
        rw [sizeOfLines_cons, Line.size]
        omega
      have hrest : line.length + sizeOfLines lines + 1 - line.size = sizeOfLines lines := by
        rw [Line.size]
        omega
      rw [hsize, List.cons_append, linesFrom, hrest]
      exact ih

end WrongStack.Mailbox
