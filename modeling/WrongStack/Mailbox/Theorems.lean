import WrongStack.Mailbox.Lemmas.Acks

/-!
# Queries over whole runs, and acks in batches

A run is any sequence of operations and looks and returns of the background stats, of any mailboxes on
one file, from mailboxes that were just made. The file may hold messages already.
-/

namespace WrongStack.Mailbox

open Lib

variable {ι : Type*} [DecidableEq ι]

/-- The state and the history after the operations `ops`. -/
def trace (getTime : JsString → Option Int) (file : Option MessageFile) (ops : List (Op ι)) :
    World ι × History ι :=
  run (withHistory (step getTime) (History.next getTime)) ({ file }, History.start file) ops

theorem trace_fst (getTime : JsString → Option Int) (file : Option MessageFile) (ops : List (Op ι)) :
    (trace getTime file ops).1 = run (step getTime) { file } ops :=
  run_withHistory ..

theorem coherent_trace (getTime : JsString → Option Int) (file : Option MessageFile) (ops : List (Op ι)) :
    Coherent (trace getTime file ops).1 (trace getTime file ops).2 :=
  run_invariant (I := fun st : World ι × History ι => Coherent st.1 st.2) (fun _ o hst => hst.step getTime o)
    (coherent_start file) ops

theorem query_of_sound (localeCompare : JsString → JsString → Ordering) (getTime : JsString → Option Int)
    (file : Option MessageFile) (ops : List (Op ι)) {i : ι} (q : MailboxQuery)
    (hsound : (trace getTime file ops).1.Sound (trace getTime file ops).2 i) :
    let w := run (step getTime) { file } ops
    (w.query i localeCompare q).2 = q.answer localeCompare w.readMessages := by
  have hread := readMessagesCached_eq (coherent_trace getTime file ops) hsound
  rw [trace_fst] at hread
  simp only [World.query, hread]

def codeUnitOrder (a b : JsString) : Ordering := if a < b then .lt else if b < a then .gt else .eq

def note (subject : String) : MailboxSendInput where
  «from» := js "a"
  «to» := js "*"
  type := .note
  subject := js subject
  body := []

/-- The same message for readers; when it was read or completed may differ. -/
structure SameMessage (msg msg' : MailboxMessage) : Prop where
  readers : ∀ readerId, msg.readBy.has readerId = msg'.readBy.has readerId
  completed : msg.completed = msg'.completed
  completedBy : msg.completedBy = msg'.completedBy
  outcome : msg.outcome = msg'.outcome
  unacked : msg.unacked = msg'.unacked

/-- The acks `calls` of a message come to the last one of them: no other one brings a new reader, it is by the reader
who completes the message, if one does, and either it has an outcome or the message has the last one that is given. -/
structure Collapses (msg : MailboxMessage) (calls : List AckCall) (last : MailboxAckInput) : Prop where
  readers : ∀ c ∈ calls, c.ack.read = true → msg.readBy.contains c.ack.readerId = false →
    last.read = true ∧ last.readerId = c.ack.readerId
  completed : msg.completed = false → ∀ c, calls.find? (·.ack.completed) = some c →
    last.completed = true ∧ last.readerId = c.ack.readerId
  outcome : last.outcome = none → ∀ outcome, (calls.filterMap (·.ack.outcome)).getLast? = some outcome →
    msg.outcome = some outcome

section Batch

variable {msg : MailboxMessage} {calls : List AckCall} {last : AckCall} {now : JsString}

theorem readers_iff (hmem : last ∈ calls) :
    (∀ k, (last.ack.apply now msg).1.readBy.has k = (applyAll calls msg).readBy.has k) ↔
      ∀ c ∈ calls, c.ack.read = true → msg.readBy.contains c.ack.readerId = false →
        last.ack.read = true ∧ last.ack.readerId = c.ack.readerId := by
  have hhas : ∀ k, (last.ack.apply now msg).1.readBy.has k = (applyAll calls msg).readBy.has k ↔ _ := fun k =>
    Bool.eq_iff_iff.trans (iff_congr has_apply has_applyAll)
  rw [forall_congr' hhas]
  constructor
  · intro h c hc hread hnew
    obtain ⟨hold, hproto⟩ := Bool.or_eq_false_iff.mp hnew
    rcases (h c.ack.readerId).mpr (Or.inr ⟨c, hc, hread, rfl, hproto⟩) with hhas | ⟨hlast, hid, -⟩
    · rw [hold] at hhas
      cases hhas
    · exact ⟨hlast, hid⟩
  · intro h k
    constructor
    · exact Or.imp_right fun hlast => ⟨last, hmem, hlast⟩
    · rintro (hhas | ⟨c, hc, hread, rfl, hproto⟩)
      · exact Or.inl hhas
      · cases hold : msg.readBy.has c.ack.readerId with
        | true => exact Or.inl rfl
        | false =>
            obtain ⟨hlast, hid⟩ := h c hc hread (Bool.or_eq_false_iff.mpr ⟨hold, hproto⟩)
            exact Or.inr ⟨hlast, hid, hproto⟩

theorem completed_iff (hmem : last ∈ calls) :
    ((last.ack.apply now msg).1.completed = (applyAll calls msg).completed ∧
        (last.ack.apply now msg).1.completedBy = (applyAll calls msg).completedBy) ↔
      (msg.completed = false → ∀ c, calls.find? (·.ack.completed) = some c →
        last.ack.completed = true ∧ last.ack.readerId = c.ack.readerId) := by
  rw [completed_applyAll, completedBy_applyAll, MailboxAckInput.apply]
  cases msg.completed with
  | true => simp
  | false =>
      cases hfind : calls.find? (·.ack.completed) with
      | none =>
          have hnone : calls.any (·.ack.completed) = false := by
            rw [List.any_eq_false]
            exact List.find?_eq_none.mp hfind
          have hlast : last.ack.completed = false := by
            simpa using List.find?_eq_none.mp hfind last hmem
          simp [hnone, hlast]
      | some c =>
          have hany : calls.any (·.ack.completed) = true :=
            List.any_eq_true.mpr ⟨c, List.mem_of_find?_eq_some hfind, by simpa using List.find?_some hfind⟩
          cases last.ack.completed with
          | true => simp [hany]
          | false => simp [hany]

theorem outcome_iff (hlast : calls.getLast? = some last) :
    (last.ack.apply now msg).1.outcome = (applyAll calls msg).outcome ↔
      (last.ack.outcome = none → ∀ outcome, (calls.filterMap (·.ack.outcome)).getLast? = some outcome →
        msg.outcome = some outcome) := by
  have hone : (last.ack.apply now msg).1.outcome = last.ack.outcome.or msg.outcome := by
    refine (outcome_applyAll [⟨last.ack, now, false⟩] msg).trans ?_
    cases houtcome : last.ack.outcome <;> simp [houtcome]
  rw [outcome_applyAll, hone]
  cases houtcome : last.ack.outcome with
  | some o =>
      obtain ⟨calls, rfl⟩ := List.getLast?_eq_some_iff.mp hlast
      simp [houtcome]
  | none =>
      cases (calls.filterMap (·.ack.outcome)).getLast? with
      | none => simp
      | some o => simp

theorem sameMessage_iff (hlast : calls.getLast? = some last) :
    SameMessage (last.ack.apply now msg).1 (applyAll calls msg) ↔ Collapses msg calls last.ack := by
  have hmem := List.mem_of_getLast? hlast
  constructor
  · rintro ⟨hreaders, hcompleted, hby, houtcome, -⟩
    exact ⟨(readers_iff hmem).mp hreaders, (completed_iff hmem).mp ⟨hcompleted, hby⟩, (outcome_iff hlast).mp houtcome⟩
  · rintro ⟨hreaders, hcompleted, houtcome⟩
    obtain ⟨hdone, hby⟩ := (completed_iff hmem).mpr hcompleted
    exact ⟨(readers_iff hmem).mpr hreaders, hdone, hby, (outcome_iff hlast).mpr houtcome,
      (unacked_applyAll [⟨last.ack, now, false⟩] msg).trans (unacked_applyAll calls msg).symm⟩

end Batch

/-- A batch leaves the same messages as its acks one after the other exactly if the acks of each message come to the
last one of them. -/
theorem ackMany_iff_acks (w : World ι) (i : ι) (calls : List AckCall) (now : JsString) (early : Bool) :
    List.Forall₂ SameMessage (w.ackMany i (calls.map AckCall.ack) now early).1.readMessages
        (w.acks i calls).readMessages ↔
      ∀ msg ∈ w.readMessages, ∀ last, (callsFor calls msg).getLast? = some last →
        Collapses msg (callsFor calls msg) last.ack := by
  rw [readMessages_ackMany, readMessages_acks, List.forall₂_map_left_iff, List.forall₂_map_right_iff,
    List.forall₂_same]
  refine forall₂_congr fun msg _ => ?_
  have hget : ((calls.map AckCall.ack).foldl (fun m a => m.set a.messageId a) JsMap.empty).get? msg.id =
      (callsFor calls msg).getLast?.map AckCall.ack := by
    rw [byId_get?, List.filter_map, List.getLast?_map]
    rfl
  rw [ackOf, hget]
  cases hlast : (callsFor calls msg).getLast? with
  | none =>
      rw [List.getLast?_eq_none_iff.mp hlast]
      simp only [Option.map_none, reduceCtorEq, false_implies, implies_true, iff_true]
      exact ⟨fun _ => rfl, rfl, rfl, rfl, rfl⟩
  | some last =>
      simp only [Option.map_some, Option.some.injEq, forall_eq']
      exact sameMessage_iff hlast

/-- Two readers in one batch: the receipt of the first is lost. -/
theorem ackMany_loses_reader :
    let w : World (Fin 1) := (({} : World (Fin 1)).send 0 (note "s") (js "1") (js "t1")).1
    let calls : List AckCall := [⟨{ messageId := js "1", readerId := js "a" }, js "t2", false⟩,
      ⟨{ messageId := js "1", readerId := js "b" }, js "t2", false⟩]
    ((w.ackMany 0 (calls.map AckCall.ack) (js "t2") false).1.readMessages.map fun m => m.readBy.keys) = [[js "b"]] ∧
      ((w.acks 0 calls).readMessages.map fun m => m.readBy.keys) = [[js "a", js "b"]] ∧
      ¬ List.Forall₂ SameMessage (w.ackMany 0 (calls.map AckCall.ack) (js "t2") false).1.readMessages
        (w.acks 0 calls).readMessages := by
  refine ⟨by decide +kernel, by decide +kernel, fun h => ?_⟩
  have hreaders := (List.forall₂_cons.mp h).1.readers (js "a")
  revert hreaders
  decide +kernel

/-! ## Unread messages -/

/-- The open messages of the agent `a` that it has not read, in its inbox. -/
def unreadOf (a : JsString) (limit : Int) : MailboxQuery where
  «to» := some a
  unreadBy := some a
  incompleteOnly := true
  limit := some limit

def MailboxMessage.OpenFor (m : MailboxMessage) (a : JsString) : Prop := (m.to = a ∨ m.to = js "*") ∧ m.completed = false

section Unread

variable {a : JsString} {limit : Int} {m : MailboxMessage} {all : List MailboxMessage}

theorem countsUnread_iff : countsUnread a m = true ↔ m.OpenFor a ∧ m.readBy.contains a = false := by
  simp only [countsUnread, MailboxMessage.OpenFor, Bool.and_eq_true, Bool.or_eq_true, beq_iff_eq, Bool.not_eq_true']
  constructor
  · rintro ⟨⟨hto, hread⟩, hopen⟩
    exact ⟨⟨hto, hopen⟩, hread⟩
  · rintro ⟨⟨hto, hopen⟩, hread⟩
    exact ⟨⟨hto, hread⟩, hopen⟩

theorem selects_unreadOf : (unreadOf a limit).selects m = (m.deletedAt.isNone && countsUnread a m) := by
  simp only [MailboxQuery.selects, unreadOf, countsUnread, Option.all_some, Option.all_none, Bool.true_and,
    Bool.and_true, Bool.false_or]
  exact Bool.and_comm _ _

theorem length_answer (localeCompare : JsString → JsString → Ordering) {q : MailboxQuery} (hq : q.limit = some limit)
    (hlimit : all.length ≤ limit) : (q.answer localeCompare all).length = all.countP q.selects := by
  have hle : all.countP q.selects ≤ all.length := List.countP_le_length
  unfold MailboxQuery.answer MailboxQuery.slice
  rw [hq, Option.getD_some, if_neg (by omega), List.length_take, List.length_insertionSort,
    ← List.countP_eq_length_filter]
  omega

/-- The query returns as many messages as the badge counts if none of these is deleted. -/
theorem countP_countsUnread_eq (localeCompare : JsString → JsString → Ordering) (hlimit : all.length ≤ limit) :
    all.countP (countsUnread a) = ((unreadOf a limit).answer localeCompare all).length ↔
      ∀ m ∈ all, countsUnread a m = true → m.deletedAt.isNone = true := by
  rw [length_answer localeCompare rfl hlimit]
  have hselects : (unreadOf a limit).selects = fun m => m.deletedAt.isNone && countsUnread a m :=
    funext fun m => selects_unreadOf
  rw [hselects, ← List.countP_filter, List.countP_eq_length_filter, eq_comm, List.countP_eq_length]
  simp only [List.mem_filter, and_imp]

end Unread

/-- The badge and the inbox agree, and every open message that no ack has touched is counted, exactly if no message that
is counted is deleted and the name of the agent is not one that every object has. -/
theorem unreadCount_iff (localeCompare : JsString → JsString → Ordering) (getTime : JsString → Option Int)
    (file : Option MessageFile) (ops : List (Op ι)) (i : ι) (a : JsString) :
    let w := run (step getTime) { file } ops
    let messages := (w.readMessagesCached i).2
    ((∀ limit : Int, messages.length ≤ limit →
        (w.unreadCount i a).2 = (w.query i localeCompare (unreadOf a limit)).2.length) ∧
      ∀ m ∈ messages, m.OpenFor a → m.deletedAt = none → ¬ Touched file ops m.id a → countsUnread a m = true) ↔
    (∀ m ∈ messages, m.OpenFor a → m.deletedAt.isSome = true → m.readBy.contains a = true) ∧
      (a ∈ objectPrototype → ∀ m ∈ messages, m.OpenFor a → m.deletedAt = none → Touched file ops m.id a) := by
  intro w messages
  have hreceipts : ReceiptsOf (Touched file ops) messages := (receipts_run getTime file ops).read i
  refine and_congr ?_ ?_
  · constructor
    · intro hagree m hm hopen hdeleted
      by_contra hunread
      have hcounted := (countP_countsUnread_eq localeCompare le_rfl).mp (hagree messages.length le_rfl) m hm
        (countsUnread_iff.mpr ⟨hopen, Bool.eq_false_iff.mpr hunread⟩)
      rw [Option.isNone_iff_eq_none] at hcounted
      rw [hcounted] at hdeleted
      cases hdeleted
    · intro hnone limit hlimit
      refine (countP_countsUnread_eq localeCompare hlimit).mpr fun m hm hcounted => ?_
      obtain ⟨hopen, hunread⟩ := countsUnread_iff.mp hcounted
      rw [Option.isNone_iff_eq_none, ← Option.not_isSome_iff_eq_none]
      intro hdeleted
      rw [hnone m hm hopen hdeleted] at hunread
      cases hunread
  · constructor
    · intro hcounts hproto m hm hopen hkept
      by_contra huntouched
      have hunread := (countsUnread_iff.mp (hcounts m hm hopen hkept huntouched)).2
      rw [ReadReceipts.contains, List.contains_iff_mem.mpr hproto, Bool.or_true] at hunread
      cases hunread
    · intro hnames m hm hopen hkept huntouched
      refine countsUnread_iff.mpr ⟨hopen, ?_⟩
      rw [ReadReceipts.contains, Bool.or_eq_false_iff]
      constructor
      · rw [← Bool.not_eq_true]
        exact fun hread => huntouched (hreceipts m hm a hread)
      · rw [← Bool.not_eq_true, List.contains_iff_mem]
        exact fun hproto => huntouched (hnames hproto m hm hopen hkept)

/-- Whichever instance reads, a receipt is in the start file or was asked for by an ack. -/
theorem receipts_touched (getTime : JsString → Option Int) (file : Option MessageFile) (ops : List (Op ι)) (i : ι) :
    ReceiptsOf (Touched file ops) ((run (step getTime) { file } ops).readMessagesCached i).2 :=
  (receipts_run getTime file ops).read i

/-- A deleted message stays on the badge, and an agent with the name of a method has no unread messages. -/
theorem unreadCount_deleted :
    let sent : List (Op (Fin 1)) := [.send 0 (note "s") (js "1") (js "t1")]
    let w := run (step fun _ => none) {} sent
    let w' := run (step fun _ => none) {} (sent ++ [.softDelete 0 (js "1") (js "b") (js "t2") false])
    (w'.readMessagesCached 0).2.length = 1 ∧ (w'.unreadCount 0 (js "b")).2 = 1 ∧
      (w'.query 0 codeUnitOrder (unreadOf (js "b") 1)).2.length = 0 ∧
      (w.readMessagesCached 0).2.map (fun m => (m.to, m.readBy.keys, m.completed)) = [(js "*", [], false)] ∧
      (w.unreadCount 0 (js "toString")).2 = 0 := by
  decide +kernel

end WrongStack.Mailbox
