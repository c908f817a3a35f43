import Mathlib.Data.List.Sort
import Mathlib.Logic.Function.Basic
import WrongStack.Lib.Run
import WrongStack.Mailbox.Message

/-!
# The shared mailbox

The messages of `GlobalMailbox` (`core/src/coordination/global-mailbox.ts`): any number of instances, in
any processes, on one message file. Every write of the file changes its mtime, which counts the writes
here. An operation is one step, except for the stats that `_setMessageCache` starts and does not wait
for: each looks at the file, and later comes back, in steps of its own. The registries of agents and
clients and the events for HQ are left out. `localeCompare` comes from the collation of the runtime and
`getTime` from its `Date`; an invalid date has no time.
-/

namespace WrongStack.Mailbox

open Lib

/-! ## One instance -/

def messageCacheMaxEntries : Nat := 10000

structure Stat where
  mtime : Nat
  size : Nat
  deriving DecidableEq

structure MessageFile where
  lines : List Line
  mtime : Nat
  deriving DecidableEq

def MessageFile.stat (file : MessageFile) : Stat := ⟨file.mtime, sizeOfLines file.lines⟩

structure GlobalMailbox where
  messageCache : Option (List MailboxMessage) := none
  messageCacheMtime : Int := -1
  messageCacheSize : Int := -1
  /-- The stats that were not waited for: what they found, once they have looked at the file. -/
  stats : List (Option Stat) := []
  deriving DecidableEq

namespace GlobalMailbox

variable (box : GlobalMailbox)

/-- `recorded` are the last two arguments, `mtime` and `size`. -/
def setMessageCache (messages : List MailboxMessage) (recorded : Option (Int × Int)) : GlobalMailbox :=
  if messageCacheMaxEntries < messages.length then
    { box with messageCache := none, messageCacheMtime := -1, messageCacheSize := -1 }
  else
    match recorded with
    | some (mtime, size) =>
        { box with
          messageCache := some messages, messageCacheMtime := mtime, messageCacheSize := size }
    | none => { box with messageCache := some messages, stats := box.stats ++ [none] }

def pushToCache (msg : MailboxMessage) : GlobalMailbox :=
  match box.messageCache with
  | none => box
  | some cache =>
      if messageCacheMaxEntries ≤ cache.length then
        { box with messageCache := none, messageCacheMtime := -1, messageCacheSize := -1 }
      -- mtime and size stay those of the file before the message
      else { box with messageCache := some (cache ++ [msg]) }

/-- The fast path: the cache is current. -/
def hits (st : Stat) : Bool :=
  box.messageCache.isSome && (box.messageCacheMtime == st.mtime && box.messageCacheSize == st.size)

/-- The incremental path: the file only grew. -/
def grew (st : Stat) : Bool :=
  box.messageCache.isSome && (decide (0 ≤ box.messageCacheSize) && decide (box.messageCacheSize < st.size))

/-- Only the bytes after the recorded size are read. -/
def readNewMessagesOnly (file : MessageFile) : List MailboxMessage :=
  box.messageCache.getD [] ++ parseLines (linesFrom box.messageCacheSize.toNat file.lines)

/-- The `k`-th stat looks at the file. One that finds none is rejected and forgotten. -/
def statLooks (k : Nat) (file : Option MessageFile) : GlobalMailbox :=
  match box.stats[k]? with
  | some none =>
      match file with
      | some file => { box with stats := box.stats.set k (some file.stat) }
      | none => { box with stats := box.stats.eraseIdx k }
  | _ => box

/-- The `k`-th stat comes back. -/
def statReturns (k : Nat) : GlobalMailbox :=
  match box.stats[k]? with
  | some (some st) =>
      { box with
        messageCacheMtime := st.mtime, messageCacheSize := st.size, stats := box.stats.eraseIdx k }
  | _ => box

def close : GlobalMailbox :=
  { box with messageCache := none, messageCacheMtime := -1, messageCacheSize := -1 }

end GlobalMailbox

/-! ## The operations -/

structure MailboxSendInput where
  «from» : JsString
  «to» : JsString
  type : MailboxMessageType
  subject : JsString
  body : JsString
  priority : Option Priority := none
  replyTo : Option JsString := none
  taskContext : Option MailboxTaskContext := none

def normalizeRecipient (recipient : JsString) : JsString :=
  if recipient.trim.toLowerCase = js "all" then js "*" else recipient.trim

def MailboxSendInput.message (input : MailboxSendInput) (id now : JsString) : MailboxMessage where
  id
  «from» := input.from
  «to» := normalizeRecipient input.to
  type := input.type
  subject := input.subject
  body := input.body
  priority := input.priority.getD .normal
  timestamp := now
  replyTo := input.replyTo
  taskContext := input.taskContext

structure MailboxAckInput where
  messageId : JsString
  readerId : JsString
  read : Bool := true
  completed : Bool := false
  outcome : Option JsString := none

/-- The message after the ack, and whether the ack changed it. -/
def MailboxAckInput.apply (a : MailboxAckInput) (now : JsString) (msg : MailboxMessage) :
    MailboxMessage × Bool :=
  let reads := a.read && !msg.readBy.contains a.readerId
  let completes := a.completed && !msg.completed
  let outcomes := a.outcome.isSome && msg.outcome != a.outcome
  ({ msg with
      readBy := if reads then msg.readBy.set a.readerId now else msg.readBy
      completed := msg.completed || completes
      completedBy := if completes then some a.readerId else msg.completedBy
      completedAt := if completes then some now else msg.completedAt
      outcome := if outcomes then a.outcome else msg.outcome },
    reads || completes || outcomes)

/-- The messages after the acks, those that were acked, and whether any of them changed. -/
def ackAll (byId : JsMap JsString MailboxAckInput) (now : JsString) :
    List MailboxMessage → List MailboxMessage × List MailboxMessage × Bool
  | [] => ([], [], false)
  | msg :: rest =>
      let (all, updated, changed) := ackAll byId now rest
      match byId.get? msg.id with
      | none => (msg :: all, updated, changed)
      | some a =>
          let (msg', changed') := a.apply now msg
          (msg' :: all, msg' :: updated, changed' || changed)

def markDeleted (mailId by_ now : JsString) (msg : MailboxMessage) : MailboxMessage :=
  if msg.id ≠ mailId then msg
  else if msg.deletedAt.isSome then msg
  else { msg with deletedAt := some now, deletedBy := some by_ }

def markRestored (mailId : JsString) (msg : MailboxMessage) : MailboxMessage :=
  if msg.id ≠ mailId then msg else { msg with deletedAt := none, deletedBy := none }

structure PurgeOptions where
  completedMaxAgeMs : Option Int := none
  incompleteMaxAgeMs : Option Int := none

structure PurgeResult where
  completedPurged : Nat
  incompletePurged : Nat
  totalPurged : Nat
  remaining : Nat
  deriving DecidableEq

section Purge

variable (getTime : JsString → Option Int) (opts : PurgeOptions) (now : Int)

/-- Comparisons with the time of an invalid date are false. -/
def before (time : Option Int) (cutoff : Int) : Bool :=
  match time with
  | some time => decide (time < cutoff)
  | none => false

def completedTime (msg : MailboxMessage) : Option Int :=
  match msg.completedAt with
  | some completedAt => if completedAt ≠ [] then getTime completedAt else some 0
  | none => some 0

def purgesCompleted (msg : MailboxMessage) : Bool :=
  msg.completed && before (completedTime getTime msg) (now - opts.completedMaxAgeMs.getD 86400000)

def purgesIncomplete (msg : MailboxMessage) : Bool :=
  !msg.completed && before (getTime msg.timestamp) (now - opts.incompleteMaxAgeMs.getD 604800000)

def keeps (msg : MailboxMessage) : Bool :=
  !purgesCompleted getTime opts now msg && !purgesIncomplete getTime opts now msg

end Purge

structure MailboxQuery where
  «to» : Option JsString := none
  «from» : Option JsString := none
  unreadBy : Option JsString := none
  incompleteOnly : Bool := false
  type : Option MailboxMessageType := none
  minPriority : Option Priority := none
  limit : Option Int := none
  since : Option JsString := none
  includeDeleted : Bool := false

namespace MailboxQuery

variable (q : MailboxQuery)

def selects (m : MailboxMessage) : Bool :=
  q.to.all (fun recipient => m.to == recipient || m.to == js "*") &&
    q.from.all (fun sender => m.from == sender) &&
    q.unreadBy.all (fun agentId => !m.readBy.contains agentId) &&
    !(q.incompleteOnly && m.completed) &&
    q.type.all (fun type => m.type == type) &&
    q.minPriority.all (fun minPriority => decide (minPriority.order ≤ m.priority.order)) &&
    q.since.all (fun since => decide (since < m.timestamp)) &&
    (q.includeDeleted || m.deletedAt.isNone)

/-- `slice(0, limit)`; a negative limit counts from the end. -/
def slice (limit : Int) (out : List MailboxMessage) : List MailboxMessage :=
  if limit < 0 then out.take (out.length - limit.natAbs) else out.take limit.toNat

/-- What `query` makes of all messages: the latest first. -/
def answer (localeCompare : JsString → JsString → Ordering) (all : List MailboxMessage) :
    List MailboxMessage :=
  slice (q.limit.getD 50) ((all.filter q.selects).insertionSort fun a b =>
    (localeCompare b.timestamp a.timestamp).isLE = true)

end MailboxQuery

/-- What `unreadCount` counts. -/
def countsUnread (forAgentId : JsString) (m : MailboxMessage) : Bool :=
  (m.to == forAgentId || m.to == js "*") && !m.readBy.contains forAgentId && !m.completed

/-! ## All instances and their file -/

structure World (ι : Type*) where
  file : Option MessageFile := none
  mailbox : ι → GlobalMailbox := fun _ => {}

/-- `messages.map((m) => JSON.stringify(m)).join(LINE_SEPARATOR) + LINE_SEPARATOR`, which is a blank
line where there are no messages. -/
def serialize (messages : List MailboxMessage) : List Line :=
  if messages.isEmpty then [{ length := 0, parsed := none }] else messages.map Line.ofMessage

namespace World

variable {ι : Type*} [DecidableEq ι] (w : World ι) (i : ι)

def setMailbox (box : GlobalMailbox) : World ι := { w with mailbox := Function.update w.mailbox i box }

def lines : List Line :=
  match w.file with
  | some file => file.lines
  | none => []

/-- The mtime of the file. -/
def version : Nat :=
  match w.file with
  | some file => file.mtime
  | none => 0

def writeFile (lines : List Line) : World ι := { w with file := some ⟨lines, w.version + 1⟩ }

def readMessages : List MailboxMessage := parseLines w.lines

/-- The stat that is started here may look at the file before it is written again: it does so if
`early`. -/
def readMessagesFresh (early : Bool) : World ι × List MailboxMessage :=
  let box := (w.mailbox i).setMessageCache w.readMessages none
  let box' := if early then box.statLooks (box.stats.length - 1) w.file else box
  (w.setMailbox i box', w.readMessages)

/-- `_setMessageCache(cacheSnapshot)` -/
def promote (cacheSnapshot : List MailboxMessage) : World ι :=
  w.setMailbox i ((w.mailbox i).setMessageCache cacheSnapshot none)

def readMessagesCached : World ι × List MailboxMessage :=
  let box := w.mailbox i
  match w.file with
  | none => (w.setMailbox i (box.setMessageCache [] (some (-1, -1))), [])
  | some file =>
      let st := file.stat
      if box.hits st then (w, box.messageCache.getD [])
      else if box.grew st then
        let updated := box.readNewMessagesOnly file
        (w.setMailbox i { box with
          messageCache := some updated, messageCacheMtime := st.mtime, messageCacheSize := st.size },
          updated)
      else (w.setMailbox i (box.setMessageCache w.readMessages (some (st.mtime, st.size))), w.readMessages)

def send (input : MailboxSendInput) (id now : JsString) : World ι × MailboxMessage :=
  let msg := input.message id now
  ((w.writeFile (w.lines ++ [Line.ofMessage msg])).setMailbox i ((w.mailbox i).pushToCache msg), msg)

def query (localeCompare : JsString → JsString → Ordering) (q : MailboxQuery) :
    World ι × List MailboxMessage :=
  let (w', all) := w.readMessagesCached i
  (w', q.answer localeCompare all)

/-- It leaves the mailbox as a query does. -/
def unreadCount (forAgentId : JsString) : World ι × Nat :=
  let (w', all) := w.readMessagesCached i
  (w', all.countP (countsUnread forAgentId))

def ackMany (acks : List MailboxAckInput) (now : JsString) (early : Bool) :
    World ι × List MailboxMessage :=
  if acks.isEmpty then (w, [])
  else
    -- of the acks of one message the last wins
    let byId := acks.foldl (fun m a => m.set a.messageId a) JsMap.empty
    let (w₁, all) := w.readMessagesFresh i early
    let (acked, updated, changed) := ackAll byId now all
    let w₂ := if changed then w₁.writeFile (serialize acked) else w₁
    (w₂.promote i acked, updated)

def ack (a : MailboxAckInput) (now : JsString) (early : Bool) : World ι × Option MailboxMessage :=
  let (w', updated) := w.ackMany i [a] now early
  (w', updated.head?)

def softDelete (mailId by_ now : JsString) (early : Bool) : World ι × Option MailboxMessage :=
  let (w₁, all) := w.readMessagesFresh i early
  let marked := all.map (markDeleted mailId by_ now)
  ((w₁.writeFile (serialize marked)).promote i marked, (marked.filter (·.id == mailId)).getLast?)

def restore (mailId : JsString) (early : Bool) : World ι × Option MailboxMessage :=
  let (w₁, all) := w.readMessagesFresh i early
  let marked := all.map (markRestored mailId)
  ((w₁.writeFile (serialize marked)).promote i marked, (marked.filter (·.id == mailId)).getLast?)

def clearAll : World ι := (w.writeFile []).promote i []

def purgeStale (getTime : JsString → Option Int) (opts : PurgeOptions) (now : Int) (early : Bool) :
    World ι × PurgeResult :=
  let (w₁, all) := w.readMessagesFresh i early
  let kept := all.filter (keeps getTime opts now)
  let completedPurged := all.countP (purgesCompleted getTime opts now)
  let incompletePurged := all.countP (purgesIncomplete getTime opts now)
  let w₂ := if kept.length < all.length then w₁.writeFile (serialize kept) else w₁
  (w₂.promote i kept,
    { completedPurged, incompletePurged, totalPurged := completedPurged + incompletePurged,
      remaining := kept.length })

end World

/-! ## Runs -/

inductive Op (ι : Type*)
  | send (i : ι) (input : MailboxSendInput) (id now : JsString)
  | query (i : ι) (q : MailboxQuery)
  | ackMany (i : ι) (acks : List MailboxAckInput) (now : JsString) (early : Bool)
  | softDelete (i : ι) (mailId by_ now : JsString) (early : Bool)
  | restore (i : ι) (mailId : JsString) (early : Bool)
  | clearAll (i : ι)
  | purgeStale (i : ι) (opts : PurgeOptions) (now : Int) (early : Bool)
  | close (i : ι)
  | statLooks (i : ι) (k : Nat)
  | statReturns (i : ι) (k : Nat)

def step {ι : Type*} [DecidableEq ι] (getTime : JsString → Option Int) (w : World ι) : Op ι → World ι
  | .send i input id now => (w.send i input id now).1
  | .query i _ => (w.readMessagesCached i).1
  | .ackMany i acks now early => (w.ackMany i acks now early).1
  | .softDelete i mailId by_ now early => (w.softDelete i mailId by_ now early).1
  | .restore i mailId early => (w.restore i mailId early).1
  | .clearAll i => w.clearAll i
  | .purgeStale i opts now early => (w.purgeStale i getTime opts now early).1
  | .close i => w.setMailbox i (w.mailbox i).close
  | .statLooks i k => w.setMailbox i ((w.mailbox i).statLooks k w.file)
  | .statReturns i k => w.setMailbox i ((w.mailbox i).statReturns k)

end WrongStack.Mailbox

/-!
# What the caches stand for

The history of a run remembers what the file held at each mtime, and which file the messages in each
cache are those of. A query that does not read the whole file relies on the recorded mtime and size; it
is sound if they and the cached messages belong together.
-/

namespace WrongStack.Mailbox

open Lib

variable {ι : Type*}

structure History (ι : Type*) where
  contents : Nat → List Line
  /-- The mtime of the file whose messages the cache holds. -/
  origin : ι → Option Nat

namespace History

def start (file : Option MessageFile) : History ι where
  contents := fun _ => ({ file } : World ι).lines
  origin := fun _ => none

variable (h : History ι) (i : ι) (box : GlobalMailbox) (file : MessageFile)

/-- The file still begins with what it held at the recorded mtime, and the cached messages are those
of then. -/
def Extended : Prop := ∃ v ∈ h.origin i, box.messageCacheMtime = v ∧ h.contents v <+: file.lines

/-- The cached messages are those of the file already, and no message lies past the recorded size. -/
def Current : Prop :=
  h.origin i = some file.mtime ∧ parseLines (linesFrom box.messageCacheSize.toNat file.lines) = []

instance : Decidable (h.Extended i box file) :=
  inferInstanceAs (Decidable (∃ v ∈ h.origin i, box.messageCacheMtime = v ∧ h.contents v <+: file.lines))

instance : Decidable (h.Current i box file) := instDecidableAnd

end History

/-- What a query of `i` does not read again is what the cache stands for. -/
def World.Sound (w : World ι) (h : History ι) (i : ι) : Prop :=
  ∀ file ∈ w.file,
    if (w.mailbox i).hits file.stat then h.origin i = some file.mtime
    else if (w.mailbox i).grew file.stat then
      h.Extended i (w.mailbox i) file ∨ h.Current i (w.mailbox i) file
    else True

instance (w : World ι) (h : History ι) (i : ι) : Decidable (w.Sound h i) :=
  inferInstanceAs (Decidable (∀ file ∈ w.file,
    if (w.mailbox i).hits file.stat then h.origin i = some file.mtime
    else if (w.mailbox i).grew file.stat then
      h.Extended i (w.mailbox i) file ∨ h.Current i (w.mailbox i) file
    else True))

def SoundQuery (st : World ι × History ι) : Op ι → Prop
  | .query i _ => st.1.Sound st.2 i
  | _ => True

instance (st : World ι × History ι) : (o : Op ι) → Decidable (SoundQuery st o)
  | .query i _ => inferInstanceAs (Decidable (st.1.Sound st.2 i))
  | .send .. | .ackMany .. | .softDelete .. | .restore .. | .clearAll .. | .purgeStale .. | .close ..
  | .statLooks .. | .statReturns .. => inferInstanceAs (Decidable True)

namespace History

/-- The step leads to `w'`, and the caches now hold the messages of the files `origin`. -/
def recordFile (h : History ι) (w' : World ι) (origin : ι → Option Nat) : History ι where
  contents := Function.update h.contents w'.version w'.lines
  origin := origin

variable [DecidableEq ι]

/-- Which file the messages of a cache are those of, after the step from `w` to `w'`. -/
def originAfter (h : History ι) (w w' : World ι) : Op ι → ι → Option Nat
  | .send i _ _ _ =>
      -- the message is pushed to a cache that may lack others
      Function.update h.origin i (if h.origin i = some w.version then some w'.version else none)
  | .query i _ => Function.update h.origin i (if w.Sound h i then some w'.version else none)
  | .ackMany i acks _ _ =>
      if acks.isEmpty then h.origin else Function.update h.origin i (some w'.version)
  | .softDelete i _ _ _ _ | .restore i _ _ | .clearAll i | .purgeStale i _ _ _ =>
      Function.update h.origin i (some w'.version)
  | .close _ | .statLooks _ _ | .statReturns _ _ => h.origin

def next (getTime : JsString → Option Int) (h : History ι) (w : World ι) (o : Op ι) : History ι :=
  h.recordFile (step getTime w o) (h.originAfter w (step getTime w o) o)

end History

end WrongStack.Mailbox
