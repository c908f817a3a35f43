import Mathlib.Data.List.Induction
import WrongStack.Mailbox.Lemmas.Steps

/-!
# What acks do to a message

Acks one after the other add up: every reader is recorded, the first that completes stays, the last outcome wins. Of a
batch each message takes the last ack that is for it.
-/

namespace WrongStack.Mailbox

open Lib

/-! ## One message -/

/-- An ack by itself: when it is made, and whether the stat of its cache is early. -/
structure AckCall where
  ack : MailboxAckInput
  now : JsString
  early : Bool

def applyAll (calls : List AckCall) (msg : MailboxMessage) : MailboxMessage :=
  calls.foldl (fun m c => (c.ack.apply c.now m).1) msg

variable {a : MailboxAckInput} {now : JsString} {msg : MailboxMessage} {calls : List AckCall} {k : JsString}

/-- The message without what an ack may change. -/
def MailboxMessage.unacked (msg : MailboxMessage) : MailboxMessage :=
  { msg with readBy := .empty, completed := false, completedBy := none, completedAt := none, outcome := none }

theorem has_apply : (a.apply now msg).1.readBy.has k = true ↔
    msg.readBy.has k = true ∨ (a.read = true ∧ a.readerId = k ∧ objectPrototype.contains k = false) := by
  unfold MailboxAckInput.apply ReadReceipts.contains
  simp only
  cases hreads : (a.read && !(msg.readBy.has a.readerId || objectPrototype.contains a.readerId)) with
  | true =>
      simp only [Bool.and_eq_true, Bool.not_eq_true', Bool.or_eq_false_iff] at hreads
      obtain ⟨hread, -, hproto⟩ := hreads
      simp only [↓reduceIte, JsMap.has, JsMap.get?_set]
      by_cases hk : a.readerId = k
      · subst hk
        simp only [↓reduceIte, Option.isSome_some, hread, hproto, and_self, or_true]
      · simp only [hk, ↓reduceIte, false_and, and_false, or_false]
  | false =>
      simp only [Bool.false_eq_true, ↓reduceIte, iff_self_or]
      rintro ⟨hread, rfl, hproto⟩
      rw [hread, hproto, Bool.or_false, Bool.true_and, Bool.not_eq_false'] at hreads
      exact hreads

theorem has_applyAll : (applyAll calls msg).readBy.has k = true ↔ msg.readBy.has k = true ∨
    ∃ c ∈ calls, c.ack.read = true ∧ c.ack.readerId = k ∧ objectPrototype.contains k = false := by
  induction calls generalizing msg with
  | nil => simp [applyAll]
  | cons c calls ih =>
      change (applyAll calls (c.ack.apply c.now msg).1).readBy.has k = true ↔ _
      rw [ih, has_apply, or_assoc, List.exists_mem_cons_iff]

theorem completed_applyAll : (applyAll calls msg).completed = (msg.completed || calls.any (·.ack.completed)) := by
  induction calls generalizing msg with
  | nil => simp [applyAll]
  | cons c calls ih =>
      change (applyAll calls (c.ack.apply c.now msg).1).completed = _
      rw [ih, List.any_cons, MailboxAckInput.apply]
      cases msg.completed <;> cases c.ack.completed <;> rfl

/-- The reader of the first ack that completes is kept. -/
theorem completedBy_applyAll : (applyAll calls msg).completedBy = if msg.completed then msg.completedBy else
    ((calls.find? (·.ack.completed)).map fun c => c.ack.readerId).or msg.completedBy := by
  induction calls generalizing msg with
  | nil => simp [applyAll]
  | cons c calls ih =>
      change (applyAll calls (c.ack.apply c.now msg).1).completedBy = _
      rw [ih, List.find?_cons, MailboxAckInput.apply]
      cases msg.completed with
      | true => simp
      | false =>
          cases c.ack.completed with
          | true => simp
          | false => simp

theorem outcome_applyAll (calls : List AckCall) (msg : MailboxMessage) :
    (applyAll calls msg).outcome = (calls.filterMap (·.ack.outcome)).getLast?.or msg.outcome := by
  induction calls generalizing msg with
  | nil => rfl
  | cons c calls ih =>
      change (applyAll calls (c.ack.apply c.now msg).1).outcome = _
      rw [ih, List.filterMap_cons]
      have hone : (c.ack.apply c.now msg).1.outcome = c.ack.outcome.or msg.outcome := by
        unfold MailboxAckInput.apply
        cases c.ack.outcome with
        | none => rfl
        | some o =>
            simp only [Option.isSome_some, Bool.true_and, Option.some_or]
            split
            · rfl
            · rename_i hsame
              simpa using hsame
      rw [hone]
      cases c.ack.outcome with
      | none => rfl
      | some o =>
          simp only [Option.some_or]
          cases hlast : (calls.filterMap (·.ack.outcome)).getLast? with
          | none =>
              rw [List.getLast?_eq_none_iff.mp hlast]
              rfl
          | some o' => rw [List.getLast?_cons, hlast]; rfl

theorem unacked_applyAll (calls : List AckCall) (msg : MailboxMessage) : (applyAll calls msg).unacked = msg.unacked := by
  induction calls generalizing msg with
  | nil => rfl
  | cons c calls ih => exact ih _

/-! ## The file -/

variable {ι : Type*} [DecidableEq ι] {w : World ι} {i : ι}

def ackOf (byId : JsMap JsString MailboxAckInput) (now : JsString) (msg : MailboxMessage) : MailboxMessage :=
  match byId.get? msg.id with
  | some a => (a.apply now msg).1
  | none => msg

theorem ackAll_eq (byId : JsMap JsString MailboxAckInput) (now : JsString) (all : List MailboxMessage) :
    (ackAll byId now all).1 = all.map (ackOf byId now) := by
  induction all with
  | nil => rfl
  | cons msg all ih =>
      rw [List.map_cons, ackOf, ackAll]
      cases byId.get? msg.id with
      | none => simp only [ih]
      | some a => simp only [ih]

/-- Of the acks of one message the last one is looked at. -/
theorem byId_get? (acks : List MailboxAckInput) (id : JsString) :
    (acks.foldl (fun m a => m.set a.messageId a) JsMap.empty).get? id =
      (acks.filter fun a => a.messageId = id).getLast? := by
  induction acks using List.reverseRecOn with
  | nil => rfl
  | append_singleton acks a ih =>
      rw [List.foldl_concat, JsMap.get?_set, List.filter_append, ih]
      by_cases h : a.messageId = id
      · simp [h]
      · simp [h]

theorem readMessages_ackMany (acks : List MailboxAckInput) (now : JsString) (early : Bool) :
    (w.ackMany i acks now early).1.readMessages = w.readMessages.map
      (ackOf (acks.foldl (fun m a => m.set a.messageId a) JsMap.empty) now) := by
  unfold World.ackMany
  cases hempty : acks.isEmpty with
  | true =>
      rw [List.isEmpty_iff.mp hempty]
      exact (List.map_id _).symm
  | false =>
      simp only [Bool.false_eq_true, ↓reduceIte]
      rw [← ackAll_eq]
      cases hchanged : (ackAll (acks.foldl (fun m a => m.set a.messageId a) JsMap.empty) now
          (w.readMessagesFresh i early).2).2.2 with
      | true =>
          simp only [↓reduceIte]
          exact parseLines_serialize _
      | false =>
          simp only [Bool.false_eq_true, ↓reduceIte]
          exact (ackAll_unchanged hchanged).symm

/-- The calls of `ack` one after the other. -/
def World.acks (w : World ι) (i : ι) (calls : List AckCall) : World ι :=
  calls.foldl (fun w c => (w.ack i c.ack c.now c.early).1) w

/-- The calls that are for the message. -/
def callsFor (calls : List AckCall) (msg : MailboxMessage) : List AckCall :=
  calls.filter fun c => c.ack.messageId = msg.id

theorem readMessages_acks (calls : List AckCall) (w : World ι) :
    (w.acks i calls).readMessages = w.readMessages.map fun msg => applyAll (callsFor calls msg) msg := by
  induction calls generalizing w with
  | nil => exact (List.map_id _).symm
  | cons c calls ih =>
      have hone : (w.ack i c.ack c.now c.early).1.readMessages = _ := readMessages_ackMany [c.ack] c.now c.early
      change ((w.ack i c.ack c.now c.early).1.acks i calls).readMessages = _
      rw [ih, hone, List.map_map]
      refine List.map_congr_left fun msg _ => ?_
      simp only [Function.comp_apply, ackOf, List.foldl_cons, List.foldl_nil, JsMap.get?_set, JsMap.get?_empty]
      by_cases h : c.ack.messageId = msg.id
      · simp only [h, ↓reduceIte]
        have hid : (c.ack.apply c.now msg).1.id = msg.id := rfl
        simp only [callsFor, hid, List.filter_cons, h, decide_true, ↓reduceIte]
        rfl
      · simp only [h, ↓reduceIte, callsFor, List.filter_cons, decide_false, Bool.false_eq_true]

/-! ## Where receipts come from -/

def Op.acks {ι : Type*} : Op ι → List MailboxAckInput
  | .ackMany _ acks _ _ => acks
  | _ => []

/-- The reader acked the message in the run, or had read it in the file that the run started with. -/
def Touched {ι : Type*} (file : Option MessageFile) (ops : List (Op ι)) (id readerId : JsString) : Prop :=
  (∃ m ∈ ({ file } : World ι).readMessages, m.id = id ∧ m.readBy.has readerId = true) ∨
    ∃ o ∈ ops, ∃ a ∈ o.acks, a.read = true ∧ a.messageId = id ∧ a.readerId = readerId

/-- The messages have no other receipts than those of `touched`. -/
def ReceiptsOf (touched : JsString → JsString → Prop) (messages : List MailboxMessage) : Prop :=
  ∀ m ∈ messages, ∀ readerId, m.readBy.has readerId = true → touched m.id readerId

/-- So have the file and all caches. -/
structure Receipts {ι : Type*} (touched : JsString → JsString → Prop) (w : World ι) : Prop where
  file : ReceiptsOf touched w.readMessages
  caches : ∀ i, ∀ cache ∈ (w.mailbox i).messageCache, ReceiptsOf touched cache

section Receipts

variable {touched : JsString → JsString → Prop} {messages messages' : List MailboxMessage} {box : GlobalMailbox}

theorem ReceiptsOf.append (h : ReceiptsOf touched messages) (h' : ReceiptsOf touched messages') :
    ReceiptsOf touched (messages ++ messages') := by
  intro m hm
  rcases List.mem_append.mp hm with hm | hm
  · exact h m hm
  · exact h' m hm

theorem ReceiptsOf.subset (h : ReceiptsOf touched messages) (hsub : messages' ⊆ messages) :
    ReceiptsOf touched messages' :=
  fun m hm => h m (hsub hm)

/-- A change of the messages that writes no receipts. -/
theorem ReceiptsOf.map (h : ReceiptsOf touched messages) {f : MailboxMessage → MailboxMessage}
    (hf : ∀ m, (f m).id = m.id ∧ (f m).readBy = m.readBy) : ReceiptsOf touched (messages.map f) := by
  intro m' hm' readerId hhas
  obtain ⟨m, hm, rfl⟩ := List.mem_map.mp hm'
  rw [(hf m).2] at hhas
  rw [(hf m).1]
  exact h m hm readerId hhas

theorem receiptsOf_sent (input : MailboxSendInput) (id now : JsString) :
    ReceiptsOf touched [input.message id now] := by
  intro m hm readerId hhas
  rw [List.mem_singleton.mp hm] at hhas
  cases hhas

theorem ReceiptsOf.acked (h : ReceiptsOf touched messages) {acks : List MailboxAckInput}
    (hacks : ∀ a ∈ acks, a.read = true → touched a.messageId a.readerId) (now : JsString) :
    ReceiptsOf touched (messages.map (ackOf (acks.foldl (fun m a => m.set a.messageId a) JsMap.empty) now)) := by
  intro m' hm' readerId hhas
  obtain ⟨m, hm, rfl⟩ := List.mem_map.mp hm'
  revert hhas
  unfold ackOf
  rw [byId_get?]
  cases hlast : (acks.filter fun a => a.messageId = m.id).getLast? with
  | none => exact h m hm readerId
  | some a =>
      intro hhas
      obtain ⟨hmem, hid⟩ := List.mem_filter.mp (List.mem_of_getLast? hlast)
      rcases has_apply.mp hhas with hold | ⟨hread, hreader, -⟩
      · exact h m hm readerId hold
      · rw [← hreader]
        change touched m.id _
        rw [← of_decide_eq_true hid]
        exact hacks a hmem hread

theorem linesFrom_suffix (offset : Nat) (lines : List Line) : linesFrom offset lines <:+ lines := by
  induction offset, lines using linesFrom.induct with
  | case1 lines => rw [linesFrom_zero]
  | case2 offset => rw [linesFrom]
  | case3 offset line lines ih =>
      rw [linesFrom]
      exact ih.trans (List.suffix_cons line lines)

theorem Receipts.read (hr : Receipts touched w) (i : ι) : ReceiptsOf touched (w.readMessagesCached i).2 := by
  rcases readMessagesCached_cases w i with ⟨-, hread⟩ | ⟨file, hfile, hcases⟩
  · rw [hread]
    exact fun m hm => by cases hm
  · have hlines : w.lines = file.lines := by rw [World.lines, hfile]
    rcases hcases with ⟨cache, hcache, -, hread⟩ | ⟨cache, hcache, -, -, hread⟩ | hread
    · rw [hread]
      exact hr.caches i cache hcache
    · have hnew : parseLines (linesFrom (w.mailbox i).messageCacheSize.toNat file.lines) ⊆ w.readMessages := by
        rw [World.readMessages, hlines]
        exact ((linesFrom_suffix ..).sublist.filterMap _).subset
      rw [hread]
      change ReceiptsOf touched (GlobalMailbox.readNewMessagesOnly ..)
      rw [GlobalMailbox.readNewMessagesOnly, hcache]
      exact (hr.caches i cache hcache).append (hr.file.subset hnew)
    · rw [hread]
      exact hr.file

theorem Receipts.setMailbox (hr : Receipts touched w) (hbox : ∀ cache ∈ box.messageCache, ReceiptsOf touched cache) :
    Receipts touched (w.setMailbox i box) where
  file := hr.file
  caches j cache hcache := by
    by_cases hj : j = i
    · subst hj
      rw [World.setMailbox_mailbox_self] at hcache
      exact hbox cache hcache
    · have hother : (w.setMailbox i box).mailbox j = w.mailbox j := Function.update_of_ne hj ..
      rw [hother] at hcache
      exact hr.caches j cache hcache

omit [DecidableEq ι] in
theorem Receipts.writeFile (hr : Receipts touched w) {lines : List Line}
    (hlines : ReceiptsOf touched (parseLines lines)) : Receipts touched (w.writeFile lines) where
  file := hlines
  caches := hr.caches

theorem Receipts.promote (hr : Receipts touched w) (hmessages : ReceiptsOf touched messages) :
    Receipts touched (w.promote i messages) :=
  hr.setMailbox fun cache hcache => cache_setMessageCache cache hcache ▸ hmessages

theorem messageCache_statLooks (k : Nat) (file : Option MessageFile) :
    (box.statLooks k file).messageCache = box.messageCache := by
  unfold GlobalMailbox.statLooks
  split
  · cases file with
    | none => rfl
    | some => rfl
  · rfl

theorem messageCache_statReturns (k : Nat) : (box.statReturns k).messageCache = box.messageCache := by
  unfold GlobalMailbox.statReturns
  split
  · rfl
  · rfl

theorem Receipts.readMessagesFresh (hr : Receipts touched w) (i : ι) (early : Bool) :
    Receipts touched (w.readMessagesFresh i early).1 := by
  have hcache : ∀ cache ∈ ((w.mailbox i).setMessageCache w.readMessages none).messageCache,
      ReceiptsOf touched cache :=
    fun cache hcache => cache_setMessageCache cache hcache ▸ hr.file
  refine hr.setMailbox ?_
  cases early with
  | false => exact hcache
  | true =>
      simp only [↓reduceIte, messageCache_statLooks]
      exact hcache

/-- What is read, and then written and cached, has no new receipts. -/
theorem Receipts.rewrite (hr : Receipts touched w) (i : ι) (early changed : Bool)
    (hmessages : ReceiptsOf touched messages) : Receipts touched ((if changed = true
      then (w.readMessagesFresh i early).1.writeFile (serialize messages)
      else (w.readMessagesFresh i early).1).promote i messages) := by
  have hread := hr.readMessagesFresh i early
  cases changed with
  | false => exact hread.promote hmessages
  | true =>
      refine (hread.writeFile ?_).promote hmessages
      rw [parseLines_serialize]
      exact hmessages

theorem Receipts.step (hr : Receipts touched w) (getTime : JsString → Option Int) {o : Op ι}
    (ho : ∀ a ∈ o.acks, a.read = true → touched a.messageId a.readerId) :
    Receipts touched (Mailbox.step getTime w o) := by
  cases o with
  | send i input id now =>
      refine (hr.writeFile ?_).setMailbox ?_
      · rw [parseLines_append]
        exact hr.file.append (receiptsOf_sent input id now)
      · intro cache' hcache'
        unfold GlobalMailbox.pushToCache at hcache'
        split at hcache'
        · exact hr.caches i cache' hcache'
        · rename_i cache hcache
          split at hcache'
          · cases hcache'
          · cases hcache'
            exact (hr.caches i cache hcache).append (receiptsOf_sent input id now)
  | query i q =>
      have hfile : (w.readMessagesCached i).1.readMessages = w.readMessages := by
        rw [World.readMessages, World.readMessages, World.lines, World.lines, (readMessagesCached_stepOf w i).2]
      refine ⟨hfile ▸ hr.file, ?_⟩
      intro j cache hcache
      by_cases hj : j = i
      · subst hj
        exact readMessagesCached_cache w j cache hcache ▸ hr.read j
      · refine hr.caches j cache ?_
        rw [← (readMessagesCached_stepOf w i).1.others j hj]
        exact hcache
  | ackMany i acks now early =>
      change Receipts touched (w.ackMany i acks now early).1
      unfold World.ackMany
      cases hempty : acks.isEmpty with
      | true => exact hr
      | false =>
          refine hr.rewrite i early _ ?_
          rw [ackAll_eq]
          exact hr.file.acked ho now
  | softDelete i mailId by_ now early =>
      refine hr.rewrite i early true (hr.file.map ?_)
      intro m
      unfold markDeleted
      split
      · exact ⟨rfl, rfl⟩
      · split
        · exact ⟨rfl, rfl⟩
        · exact ⟨rfl, rfl⟩
  | restore i mailId early =>
      refine hr.rewrite i early true (hr.file.map ?_)
      intro m
      unfold markRestored
      split
      · exact ⟨rfl, rfl⟩
      · exact ⟨rfl, rfl⟩
  | clearAll i =>
      have hnone : ReceiptsOf touched [] := fun m hm => by cases hm
      refine (hr.writeFile ?_).promote hnone
      exact hnone
  | purgeStale i opts now early =>
      have hkept : ReceiptsOf touched (w.readMessages.filter (keeps getTime opts now)) :=
        hr.file.subset (List.filter_sublist.subset)
      have hstep := hr.rewrite i early (decide ((w.readMessages.filter (keeps getTime opts now)).length <
        w.readMessages.length)) hkept
      simp only [decide_eq_true_eq] at hstep
      exact hstep
  | close i => exact hr.setMailbox fun cache hcache => by cases hcache
  | statLooks i k =>
      refine hr.setMailbox ?_
      rw [messageCache_statLooks]
      exact hr.caches i
  | statReturns i k =>
      refine hr.setMailbox ?_
      rw [messageCache_statReturns]
      exact hr.caches i

/-- Over a whole run receipts come from its acks and from the file it started with. -/
theorem receipts_run (getTime : JsString → Option Int) (file : Option MessageFile) (ops : List (Op ι)) :
    Receipts (Touched file ops) (run (Mailbox.step getTime) { file } ops) := by
  have hstart : Receipts (Touched file ops) ({ file } : World ι) :=
    ⟨fun m hm readerId hhas => Or.inl ⟨m, hm, rfl, hhas⟩, fun i cache hcache => by cases hcache⟩
  refine run_invariant_under (C := fun _ o => o ∈ ops) ?_ hstart (under_of_forall fun o ho => ho)
  intro w o hr ho
  exact hr.step getTime fun a ha hread => Or.inr ⟨o, ho, a, ha, hread, rfl, rfl⟩

end Receipts

end WrongStack.Mailbox
