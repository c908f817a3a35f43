import Mathlib.Data.List.Nodup
import WrongStack.Mcp.Client

/-!
# Replies reach the request they answer

Every promise is settled once, and nothing stays pending when the child exits or the client closes. What a promise is
fulfilled with is a reply to its request exactly if the server's messages meet a condition, step by step.
-/

namespace WrongStack.Mcp

open Lib Client

variable {parse : JsString → Option Json} {s : Client} {r : Request} {settlement : Settlement} {written : Bool}

def isResponse (message : Json) : Prop := (message.get? (js "method")).isNone = true

/-- A request is fulfilled with a response that has its id. -/
def Answered (e : Request × Settlement) : Prop :=
  match e.2 with
  | .fulfilled message => isNotification e.1.method = false → isResponse message ∧ hasId message e.1.id = true
  | .acknowledged | .rejected _ => True

/-- What holds of the promises in every run. -/
structure Inv (s : Client) : Prop where
  pendingIds : ∀ r ∈ s.pending, r.id < s.nextId
  settledIds : ∀ e ∈ s.settled, e.1.id < s.nextId
  pendingOnce : (s.pending.map Request.id).Nodup
  settledOnce : (s.settled.map fun e => e.1.id).Nodup
  apart : ∀ r ∈ s.pending, ∀ e ∈ s.settled, r.id ≠ e.1.id
  timers : s.timers = if s.transport = .stdio then s.pending else []

theorem inv_start (transport : Transport) : Inv { transport := transport } where
  pendingIds _ h := absurd h List.not_mem_nil
  settledIds _ h := absurd h List.not_mem_nil
  pendingOnce := List.nodup_nil
  settledOnce := List.nodup_nil
  apart _ h := absurd h List.not_mem_nil
  timers := by simp

namespace Inv

theorem sends (h : Inv s) (r : Request) (hr : r.id = s.nextId) :
    Inv { s with
      nextId := s.nextId + 1
      pending := s.pending ++ [r]
      timers := if s.transport = .stdio then s.timers ++ [r] else s.timers } where
  pendingIds q hq := by
    rcases List.mem_append.mp hq with hold | hnew
    · exact Nat.lt_succ_of_lt (h.pendingIds q hold)
    · rw [List.mem_singleton.mp hnew, hr]
      exact Nat.lt_succ_self _
  settledIds e he := Nat.lt_succ_of_lt (h.settledIds e he)
  pendingOnce := by
    rw [List.map_append, List.nodup_append]
    refine ⟨h.pendingOnce, List.nodup_singleton _, fun id hid id' hid' heq => ?_⟩
    obtain ⟨q, hq, rfl⟩ := List.mem_map.mp hid
    have hlt := h.pendingIds q hq
    rw [List.map_singleton, List.mem_singleton] at hid'
    omega
  settledOnce := h.settledOnce
  apart q hq e he := by
    rcases List.mem_append.mp hq with hold | hnew
    · exact h.apart q hold e he
    · have hlt := h.settledIds e he
      rw [List.mem_singleton.mp hnew, hr]
      omega
  timers := by
    have htimers := h.timers
    split at htimers <;> simp_all

/-- A request whose line cannot be written is rejected at once. -/
theorem refuses (h : Inv s) (r : Request) (hr : r.id = s.nextId) (settlement : Settlement) :
    Inv { s with nextId := s.nextId + 1, settled := (r, settlement) :: s.settled } where
  pendingIds q hq := Nat.lt_succ_of_lt (h.pendingIds q hq)
  settledIds e he := by
    rcases List.mem_cons.mp he with rfl | hold
    · rw [hr]
      exact Nat.lt_succ_self _
    · exact Nat.lt_succ_of_lt (h.settledIds e hold)
  pendingOnce := h.pendingOnce
  settledOnce := by
    rw [List.map_cons, List.nodup_cons]
    refine ⟨fun hmem => ?_, h.settledOnce⟩
    obtain ⟨e, he, heq⟩ := List.mem_map.mp hmem
    have hlt := h.settledIds e he
    exact absurd (heq.trans hr) (Nat.ne_of_lt hlt)
  apart q hq e he := by
    rcases List.mem_cons.mp he with rfl | hold
    · have hlt := h.pendingIds q hq
      rw [hr]
      omega
    · exact h.apart q hq e hold
  timers := h.timers

theorem request (h : Inv s) (via : Via) (method : JsString) (written : Bool) :
    Inv (s.request via method written) := by
  unfold Client.request
  cases htransport : s.transport with
  | stdio =>
      cases written with
      | true => simpa [htransport] using h.sends { id := s.nextId, method := method, via := via } rfl
      | false => simpa [htransport] using h.refuses { id := s.nextId, method := method, via := via } rfl _
  | sse | streamableHttp => simpa [htransport] using h.sends { id := s.nextId, method := method, via := via } rfl

theorem settle (h : Inv s) (hr : r ∈ s.pending) (settlement : Settlement) : Inv (s.settle r settlement) where
  pendingIds q hq := h.pendingIds q (List.mem_of_mem_filter hq)
  settledIds e he := by
    rcases List.mem_cons.mp he with rfl | hold
    · exact h.pendingIds r hr
    · exact h.settledIds e hold
  pendingOnce := h.pendingOnce.sublist (List.filter_sublist.map _)
  settledOnce := by
    change ((r, settlement).1.id :: s.settled.map fun e => e.1.id).Nodup
    rw [List.nodup_cons]
    refine ⟨fun hmem => ?_, h.settledOnce⟩
    obtain ⟨e, he, heq⟩ := List.mem_map.mp hmem
    exact h.apart r hr e he heq.symm
  apart q hq e he := by
    obtain ⟨hold, hne⟩ := List.mem_filter.mp hq
    rcases List.mem_cons.mp he with rfl | hsettled
    · simpa using hne
    · exact h.apart q hold e hsettled
  timers := by
    change s.timers.filter _ = if s.transport = .stdio then s.pending.filter _ else []
    rw [h.timers]
    split <;> simp

theorem failPending (h : Inv s) (hstdio : s.transport = .stdio) (reason : Rejection) :
    Inv (s.failPending reason) where
  pendingIds _ hq := absurd hq List.not_mem_nil
  settledIds e he := by
    rcases List.mem_append.mp he with hnew | hold
    · obtain ⟨q, hq, rfl⟩ := List.mem_map.mp hnew
      exact h.pendingIds q (List.mem_reverse.mp hq)
    · exact h.settledIds e hold
  pendingOnce := List.nodup_nil
  settledOnce := by
    change ((s.pending.reverse.map fun r => (r, Settlement.rejected reason)) ++ s.settled |>.map fun e => e.1.id).Nodup
    rw [List.map_append, List.map_map, List.nodup_append]
    refine ⟨?_, h.settledOnce, fun id hid id' hid' heq => ?_⟩
    · have hids := List.nodup_reverse.mpr h.pendingOnce
      rwa [← List.map_reverse] at hids
    · obtain ⟨q, hq, rfl⟩ := List.mem_map.mp hid
      obtain ⟨e, he, rfl⟩ := List.mem_map.mp hid'
      exact h.apart q (List.mem_reverse.mp hq) e he heq
  apart _ hq := absurd hq List.not_mem_nil
  timers := by
    have htimers := h.timers
    rw [if_pos hstdio] at htimers
    simp [Client.failPending, htimers]

theorem onLine (h : Inv s) {line : JsString} {s' : Client} (hline : s.onLine parse line written = some s') : Inv s' := by
  unfold Client.onLine at hline
  split at hline
  · cases hline
    exact h
  · cases hline
  · split at hline
    · rename_i r hr
      cases hline
      exact h.settle (List.mem_of_find?_eq_some hr) _
    · split at hline
      · cases hline
        exact h.request ..
      · cases hline
        exact h

theorem buffer (h : Inv s) (rest : JsString) : Inv { s with rxBuffer := rest } :=
  ⟨h.pendingIds, h.settledIds, h.pendingOnce, h.settledOnce, h.apart, h.timers⟩

theorem drain (h : Inv s) (lines : List JsString) : Inv (Client.drain parse written s lines) := by
  fun_induction Client.drain parse written s lines with
  | case1 => exact h
  | case2 s rest => exact h.buffer rest
  | case3 s line more _ trimmed hempty ih => exact ih h
  | case4 s line more _ trimmed hempty s' hline ih => exact ih (h.onLine hline)
  | case5 s line more _ trimmed hempty hline => exact h.buffer _

theorem step (h : Inv s) (op : Op) : Inv (Client.step parse s op) := by
  cases op with
  | request via method written => exact h.request via method written
  | data chunk written =>
      simp only [Client.step]
      split
      · exact h.drain _
      · exact h
  | timeout id =>
      have htimers := h.timers
      simp only [Client.step]
      split
      · rename_i hstdio
        rw [if_pos hstdio] at htimers
        split
        · rename_i r hr
          exact h.settle (htimers ▸ List.mem_of_find?_eq_some hr) _
        · exact h
      · split
        · rename_i r hr
          exact h.settle (List.mem_of_find?_eq_some hr) _
        · exact h
  | reply id reply =>
      simp only [Client.step]
      split
      · exact h
      · split
        · rename_i r hr
          exact h.settle (List.mem_of_find?_eq_some hr) _
        · exact h
  | exit | close =>
      simp only [Client.step]
      split
      · rename_i hstdio
        exact h.failPending hstdio _
      · exact h

end Inv

/-! ## What a promise is fulfilled with -/

theorem hasId_unique {message : Json} {id id' : Nat} (h : hasId message id = true) (h' : hasId message id' = true) :
    id = id' := by
  unfold hasId at h h'
  split at h
  · rename_i text htext
    rw [htext] at h'
    simp only [Bool.and_eq_true, beq_iff_eq] at h h'
    exact h.2.symm.trans h'.2
  · cases h

theorem exists_id_of_hasId {message : Json} {id : Nat} (h : hasId message id = true) :
    (message.get? (js "id")).isSome = true := by
  unfold hasId at h
  split at h
  · rename_i text htext
    rw [htext]
    rfl
  · cases h

theorem answered_notification (h : isNotification r.method = true) (settlement : Settlement) :
    Answered (r, settlement) := by
  cases settlement with
  | fulfilled message =>
      intro hnot
      rw [h] at hnot
      cases hnot
  | acknowledged | rejected => trivial

theorem answered_fulfilled (h : isNotification r.method = false) (message : Json) :
    Answered (r, .fulfilled message) ↔ isResponse message ∧ hasId message r.id = true :=
  ⟨fun hanswered => hanswered h, fun hmessage _ => hmessage⟩

/-- `assertMatchingJsonRpcResult` lets an envelope through that has the id, whether or not it has a method. -/
theorem assertMatching_ok {data : Json} {id : Nat} {method : JsString} (henvelope : isJsonRpcResult data = true)
    (hid : hasId data id = true) : assertMatchingJsonRpcResult data id method = .ok data := by
  have hsome := exists_id_of_hasId hid
  cases hget : data.get? (js "id") with
  | none =>
      rw [hget] at hsome
      cases hsome
  | some v => simp [assertMatchingJsonRpcResult, henvelope, hid, hget]

theorem assertMatching_error {data : Json} {id : Nat} {method : JsString} (hmethod : isNotification method = false)
    (h : ¬(isJsonRpcResult data = true ∧ hasId data id = true)) :
    ∃ reason, assertMatchingJsonRpcResult data id method = .error reason := by
  unfold assertMatchingJsonRpcResult
  split
  · exact ⟨_, rfl⟩
  · rename_i henvelope
    split
    · exact ⟨_, rfl⟩
    · rename_i hmismatch
      split
      · exact ⟨_, rfl⟩
      · rename_i hmissing
        cases hget : data.get? (js "id") <;> simp_all

theorem answered_ofMessage (h : isNotification r.method = false) (data : Option Json) (id : Nat) :
    Answered (r, .ofMessage data id r.method) ↔
      ∀ message, data = some message → isJsonRpcResult message = true → hasId message id = true →
        isResponse message ∧ hasId message r.id = true := by
  cases data with
  | none => exact iff_of_true trivial fun _ hnone => nomatch hnone
  | some message =>
      by_cases hok : isJsonRpcResult message = true ∧ hasId message id = true
      · simp only [Settlement.ofMessage, assertMatching_ok hok.1 hok.2]
        refine (answered_fulfilled h message).trans ⟨fun hmessage other hother _ _ => ?_, fun hall => ?_⟩
        · cases hother
          exact hmessage
        · exact hall message rfl hok.1 hok.2
      · obtain ⟨reason, herror⟩ := assertMatching_error h hok
        simp only [Settlement.ofMessage, herror]
        refine iff_of_true trivial fun other hother henvelope hid => ?_
        cases hother
        exact absurd ⟨henvelope, hid⟩ hok

/-! ## Envelopes -/

theorem isJsonRpcResult_envelopes {text : JsString} {data : Json} (h : data ∈ envelopes parse text) :
    isJsonRpcResult data = true :=
  (List.mem_filter.mp h).2

theorem isJsonRpcResult_flush {scan : Scan} (h : ∀ data ∈ scan.out, isJsonRpcResult data = true) :
    ∀ data ∈ (flush parse scan).out, isJsonRpcResult data = true := by
  intro data hdata
  simp only [flush] at hdata
  split at hdata
  · exact h data hdata
  · exact (List.mem_append.mp hdata).elim (h data) isJsonRpcResult_envelopes

theorem isJsonRpcResult_scanLine {scan : Scan} (h : ∀ data ∈ scan.out, isJsonRpcResult data = true) (raw : JsString) :
    ∀ data ∈ (scanLine parse scan raw).out, isJsonRpcResult data = true := by
  unfold scanLine
  generalize (if raw.getLast? = some (unit '\r') then raw.dropLast else raw) = line
  dsimp only
  split
  · exact isJsonRpcResult_flush h
  · split
    · exact h
    · split
      · exact h
      · split
        · exact h
        · split
          · exact fun data hdata => (List.mem_append.mp hdata).elim (h data) isJsonRpcResult_envelopes
          · exact h

theorem isJsonRpcResult_extract {text : JsString} {data : Json} (h : data ∈ extractJsonRpcResults parse text) :
    isJsonRpcResult data = true := by
  refine isJsonRpcResult_flush ?_ data h
  generalize JsString.splitOn (unit '\n') text = lines
  have hscan : ∀ (scan : Scan), (∀ data ∈ scan.out, isJsonRpcResult data = true) →
      ∀ data ∈ (lines.foldl (scanLine parse) scan).out, isJsonRpcResult data = true := by
    induction lines with
    | nil => exact fun scan hscan => hscan
    | cons line lines ih => exact fun scan hscan => ih _ (isJsonRpcResult_scanLine hscan line)
  exact hscan {} fun data hdata => absurd hdata List.not_mem_nil

/-! ## The condition -/

/-- A line with the id of a pending request has no method. -/
def LineAnswers (parse : JsString → Option Json) (s : Client) (line : JsString) : Prop :=
  ∀ message, parse line = some message → ∀ r ∈ s.pending, isNotification r.method = false →
    hasId message r.id = true → isResponse message

/-- So do all complete lines, each as it is met. -/
def LinesAnswer (parse : JsString → Option Json) (written : Bool) (s : Client) : List JsString → Prop
  | [] => True
  | [_] => True
  | line :: more =>
      let trimmed := JsString.trim line
      if trimmed.isEmpty then LinesAnswer parse written s more
      else
        LineAnswers parse s trimmed ∧
          match s.onLine parse trimmed written with
          | some s => LinesAnswer parse written s more
          | none => True

/-- The message of a reply that has the id of its request has no method; the generic `request` of streamable HTTP gets
such a message or no envelope at all; and no request is sent while `initialize` waits. -/
def ReplyAnswers (parse : JsString → Option Json) (s : Client) (r : Request) : Reply → Prop
  | .response true json text =>
      match s.transport, r.via with
      | .streamableHttp, .connect =>
          ∀ data, (if json then (envelopes parse text).head? else (extractJsonRpcResults parse text).head?) = some data →
            hasId data (s.nextId - 1) = true → isResponse data ∧ s.nextId - 1 = r.id
      | .streamableHttp, .post =>
          ∀ data, (extractJsonRpcResults parse text).find? (hasId · r.id) = some data → isResponse data
      | .streamableHttp, .request =>
          extractJsonRpcResults parse text = [] ∨
            ∃ data, (extractJsonRpcResults parse text).find? (hasId · r.id) = some data ∧ isResponse data
      | _, _ =>
          ∀ data, parse text = some data → isJsonRpcResult data = true → hasId data r.id = true → isResponse data
  | _ => True

def NoImpostor (parse : JsString → Option Json) (s : Client) : Op → Prop
  | .data chunk written =>
      s.transport = .stdio → LinesAnswer parse written s (JsString.splitOn (unit '\n') (s.rxBuffer ++ chunk))
  | .reply id reply =>
      s.transport ≠ .stdio → ∀ r ∈ s.pending, r.id = id → isNotification r.method = false → ReplyAnswers parse s r reply
  | _ => True

/-- What `pickJsonRpcResult` finds is let through if it is the envelope with the id. -/
theorem answered_pick (hmethod : isNotification r.method = false) (text : JsString) :
    Answered (r, .ofMessage (pickJsonRpcResult parse text r.id) r.id r.method) ↔
      ∀ data, (extractJsonRpcResults parse text).find? (hasId · r.id) = some data → isResponse data := by
  rw [answered_ofMessage hmethod]
  unfold pickJsonRpcResult
  dsimp only
  cases hfind : (extractJsonRpcResults parse text).find? (hasId · r.id) with
  | none =>
      refine iff_of_true (fun message hmessage _ hid => ?_) fun _ hnone => nomatch hnone
      rw [Option.none_or] at hmessage
      exact absurd hid (List.find?_eq_none.mp hfind message (List.mem_of_head? hmessage))
  | some data =>
      have henvelope := isJsonRpcResult_extract (List.mem_of_find?_eq_some hfind)
      have hid := List.find?_some hfind
      rw [Option.some_or]
      constructor
      · intro h other hother
        cases hother
        exact (h data rfl henvelope hid).1
      · intro h message hmessage _ _
        cases hmessage
        exact ⟨h data rfl, hid⟩

/-- The generic `request` of streamable HTTP takes the first envelope where none has the id. -/
theorem answered_request (hmethod : isNotification r.method = false) (text : JsString) :
    Answered (r, match pickJsonRpcResult parse text r.id with
      | some data => .fulfilled data
      | none => .rejected .unparsable) ↔
      extractJsonRpcResults parse text = [] ∨
        ∃ data, (extractJsonRpcResults parse text).find? (hasId · r.id) = some data ∧ isResponse data := by
  unfold pickJsonRpcResult
  dsimp only
  cases hfind : (extractJsonRpcResults parse text).find? (hasId · r.id) with
  | none =>
      rw [Option.none_or]
      cases hextract : extractJsonRpcResults parse text with
      | nil => exact iff_of_true trivial (.inl rfl)
      | cons first rest =>
          rw [hextract] at hfind
          have hfirst := List.find?_eq_none.mp hfind first List.mem_cons_self
          refine (answered_fulfilled hmethod first).trans (iff_of_false (fun h => hfirst h.2) fun h => ?_)
          rcases h with hnil | ⟨data, hsome, -⟩
          · cases hnil
          · cases hsome
  | some data =>
      have hmem := List.mem_of_find?_eq_some hfind
      rw [Option.some_or]
      refine (answered_fulfilled hmethod data).trans ⟨fun h => .inr ⟨data, rfl, h.1⟩, fun h => ?_⟩
      rcases h with hnil | ⟨other, hother, hresponse⟩
      · rw [hnil] at hmem
        cases hmem
      · cases hother
        have hid := List.find?_some hfind
        exact ⟨hresponse, hid⟩

theorem answered_answer (hstdio : s.transport ≠ .stdio) (hmethod : isNotification r.method = false) (reply : Reply) :
    Answered (r, s.answer parse r reply) ↔ ReplyAnswers parse s r reply := by
  cases reply with
  | failed => exact iff_of_true trivial trivial
  | response ok json text =>
      cases ok with
      | false => exact iff_of_true trivial trivial
      | true =>
          cases htransport : s.transport with
          | stdio => exact absurd htransport hstdio
          | sse =>
              simp only [answer, ReplyAnswers, Bool.not_true, Bool.false_eq_true, ↓reduceIte, htransport]
              rw [answered_ofMessage hmethod]
              exact forall₄_congr fun message _ _ hid => and_iff_left hid
          | streamableHttp =>
              cases hvia : r.via with
              | request =>
                  simp only [answer, ReplyAnswers, Bool.not_true, Bool.false_eq_true, ↓reduceIte, htransport, hvia, hmethod]
                  exact answered_request hmethod text
              | post =>
                  simp only [answer, ReplyAnswers, Bool.not_true, Bool.false_eq_true, ↓reduceIte, htransport, hvia, hmethod]
                  exact answered_pick hmethod text
              | connect =>
                  simp only [answer, ReplyAnswers, Bool.not_true, Bool.false_eq_true, ↓reduceIte, htransport, hvia]
                  rw [answered_ofMessage hmethod]
                  refine forall₂_congr fun data hdata => ?_
                  have henvelope : isJsonRpcResult data = true := by
                    split at hdata
                    · exact isJsonRpcResult_envelopes (List.mem_of_head? hdata)
                    · exact isJsonRpcResult_extract (List.mem_of_head? hdata)
                  refine (forall_prop_of_true henvelope).trans (imp_congr_right fun hid => and_congr_right fun _ => ?_)
                  exact ⟨hasId_unique hid, fun heq => heq ▸ hid⟩

/-! ## Steps -/

def AllAnswered (s : Client) : Prop := ∀ e ∈ s.settled, Answered e

theorem AllAnswered.settle_iff (h : AllAnswered s) : AllAnswered (s.settle r settlement) ↔ Answered (r, settlement) := by
  constructor
  · exact fun hall => hall _ List.mem_cons_self
  · intro hanswered e he
    rcases List.mem_cons.mp he with rfl | hold
    · exact hanswered
    · exact h e hold

theorem AllAnswered.request (h : AllAnswered s) (via : Via) (method : JsString) (written : Bool) :
    AllAnswered (s.request via method written) := by
  unfold Client.request
  dsimp only
  split
  · split
    · exact h
    · intro e he
      rcases List.mem_cons.mp he with rfl | hold
      · trivial
      · exact h e hold
  · exact h
  · exact h

theorem AllAnswered.failPending (h : AllAnswered s) (reason : Rejection) : AllAnswered (s.failPending reason) := by
  intro e he
  rcases List.mem_append.mp he with hnew | hold
  · obtain ⟨q, -, rfl⟩ := List.mem_map.mp hnew
    trivial
  · exact h e hold

theorem settled_request (s : Client) (via : Via) (method : JsString) (written : Bool) :
    s.settled ⊆ (s.request via method written).settled := by
  unfold Client.request
  dsimp only
  split
  · split
    · exact List.Subset.refl _
    · exact List.subset_cons_self ..
  · exact List.Subset.refl _
  · exact List.Subset.refl _

theorem settled_onLine {line : JsString} {s' : Client} (h : s.onLine parse line written = some s') :
    s.settled ⊆ s'.settled := by
  unfold onLine at h
  split at h
  · cases h
    exact List.Subset.refl _
  · cases h
  · split at h
    · cases h
      exact List.subset_cons_self ..
    · split at h
      · cases h
        exact settled_request ..
      · cases h
        exact List.Subset.refl _

theorem settled_drain (s : Client) (lines : List JsString) : s.settled ⊆ (drain parse written s lines).settled := by
  fun_induction drain parse written s lines with
  | case1 => exact List.Subset.refl _
  | case2 => exact List.Subset.refl _
  | case3 =>
      rename_i ih
      exact ih
  | case4 =>
      rename_i hline ih
      exact List.Subset.trans (settled_onLine hline) ih
  | case5 => exact List.Subset.refl _

theorem eq_of_hasId (h : Inv s) {message : Json} {q : Request} (hr : r ∈ s.pending) (hq : q ∈ s.pending)
    (hrid : hasId message r.id = true) (hqid : hasId message q.id = true) : q = r :=
  List.inj_on_of_nodup_map h.pendingOnce hq hr (hasId_unique hqid hrid)

theorem allAnswered_onLine_iff (h : Inv s) (hall : AllAnswered s) {line : JsString} {s' : Client}
    (hline : s.onLine parse line written = some s') : AllAnswered s' ↔ LineAnswers parse s line := by
  unfold onLine at hline
  split at hline
  · rename_i hparse
    cases hline
    exact iff_of_true hall fun message hmessage => by rw [hparse] at hmessage; cases hmessage
  · cases hline
  · rename_i message _ hparse
    split at hline
    · rename_i r hfind
      cases hline
      have hr := List.mem_of_find?_eq_some hfind
      have hid := List.find?_some hfind
      rw [hall.settle_iff]
      constructor
      · intro hanswered other hother q hq hmethod hqid
        cases hparse.symm.trans hother
        obtain rfl := eq_of_hasId h hr hq hid hqid
        exact (hanswered hmethod).1
      · exact fun hline hmethod => ⟨hline message hparse r hr hmethod hid, hid⟩
    · rename_i hfind
      have hnone : LineAnswers parse s line := by
        intro other hother q hq _ hqid
        cases hparse.symm.trans hother
        exact absurd hqid (List.find?_eq_none.mp hfind q hq)
      split at hline
      · cases hline
        exact iff_of_true (AllAnswered.request hall _ _ _) hnone
      · cases hline
        exact iff_of_true hall hnone

theorem lineAnswers_of_throws {line : JsString} (h : s.onLine parse line written = none) : LineAnswers parse s line := by
  unfold onLine at h
  split at h
  · cases h
  · rename_i hparse
    intro message hmessage q _ _ hid
    cases hparse.symm.trans hmessage
    cases hid
  · split at h
    · cases h
    · split at h <;> cases h

theorem allAnswered_drain_iff (h : Inv s) (hall : AllAnswered s) (lines : List JsString) :
    AllAnswered (drain parse written s lines) ↔ LinesAnswer parse written s lines := by
  fun_induction drain parse written s lines with
  | case1 => exact iff_of_true hall trivial
  | case2 s rest => exact iff_of_true hall trivial
  | case3 s line more hmore trimmed hempty ih =>
      rw [LinesAnswer, if_pos hempty]
      · exact ih h hall
      · exact hmore
  | case4 s line more hmore trimmed hempty s' hline ih =>
      rw [LinesAnswer, if_neg hempty, hline]
      · constructor
        · intro hdrain
          have hs' : AllAnswered s' := fun e he => hdrain e (settled_drain s' more he)
          exact ⟨(allAnswered_onLine_iff h hall hline).mp hs', (ih (h.onLine hline) hs').mp hdrain⟩
        · rintro ⟨hanswers, hrest⟩
          exact (ih (h.onLine hline) ((allAnswered_onLine_iff h hall hline).mpr hanswers)).mpr hrest
      · exact hmore
  | case5 s line more hmore trimmed hempty hline =>
      rw [LinesAnswer, if_neg hempty, hline]
      · exact iff_of_true hall ⟨lineAnswers_of_throws hline, trivial⟩
      · exact hmore

theorem allAnswered_step_iff (s : Client) (op : Op) (h : Inv s) (hall : AllAnswered s) :
    AllAnswered (step parse s op) ↔ NoImpostor parse s op := by
  cases op with
  | request via method written => exact iff_of_true (AllAnswered.request hall _ _ _) trivial
  | data chunk written =>
      simp only [step, NoImpostor]
      split
      · rename_i hstdio
        exact (allAnswered_drain_iff h hall _).trans ⟨fun hlines _ => hlines, fun hlines => hlines hstdio⟩
      · rename_i hstdio
        exact iff_of_true hall fun hfalse => absurd hfalse hstdio
  | timeout id =>
      refine iff_of_true ?_ trivial
      simp only [step]
      split
      · split
        · exact hall.settle_iff.mpr trivial
        · exact hall
      · split
        · exact hall.settle_iff.mpr trivial
        · exact hall
  | reply id reply =>
      simp only [step, NoImpostor]
      split
      · rename_i hstdio
        exact iff_of_true hall fun hfalse => absurd hstdio hfalse
      · rename_i hstdio
        rw [forall_prop_of_true hstdio]
        split
        · rename_i r hfind
          have hr := List.mem_of_find?_eq_some hfind
          have hbeq := List.find?_some hfind
          have hid : r.id = id := beq_iff_eq.mp hbeq
          rw [hall.settle_iff]
          constructor
          · intro hanswered q hq hqid hmethod
            obtain rfl : q = r := List.inj_on_of_nodup_map h.pendingOnce hq hr (hqid.trans hid.symm)
            exact (answered_answer hstdio hmethod reply).mp hanswered
          · intro hanswers
            cases hmethod : isNotification r.method with
            | true => exact answered_notification hmethod _
            | false => exact (answered_answer hstdio hmethod reply).mpr (hanswers r hr hid hmethod)
        · rename_i hfind
          refine iff_of_true hall fun q hq hqid => ?_
          exact absurd (beq_iff_eq.mpr hqid) (List.find?_eq_none.mp hfind q hq)
  | exit | close =>
      refine iff_of_true ?_ trivial
      simp only [step]
      split
      · exact hall.failPending _
      · exact hall

/-! ## Runs -/

/-- The child exits, or the client closes. -/
def Op.ends : Op → Bool
  | exit | close => true
  | _ => false

/-- Every pending request is rejected. -/
def RejectsPending (s s' : Client) : Prop :=
  s'.pending = [] ∧ ∀ r ∈ s.pending, ∃ reason, (r, .rejected reason) ∈ s'.settled

theorem rejectsPending_ends (hstdio : s.transport = .stdio) {op : Op} (h : op.ends = true) :
    RejectsPending s (step parse s op) := by
  have hfail (reason : Rejection) : RejectsPending s (s.failPending reason) :=
    ⟨rfl, fun r hr => ⟨reason, List.mem_append_left _ (List.mem_map.mpr ⟨r, List.mem_reverse.mpr hr, rfl⟩)⟩⟩
  cases op with
  | exit | close =>
      simp only [step, hstdio]
      exact hfail _
  | request | data | timeout | reply => cases h

/-- What is asked of the promises in a run of a transport. -/
structure Correct (parse : JsString → Option Json) (transport : Transport) (ops : List Op) : Prop where
  once : ∀ pre, pre <+: ops → ((run (step parse) { transport := transport } pre).settled.map fun e => e.1.id).Nodup
  answered : ∀ pre, pre <+: ops → AllAnswered (run (step parse) { transport := transport } pre)
  ends : transport = .stdio → ∀ pre op, pre ++ [op] <+: ops → op.ends = true →
    RejectsPending (run (step parse) { transport := transport } pre) (run (step parse) { transport := transport } (pre ++ [op]))

@[simp] theorem transport_request (s : Client) (via : Via) (method : JsString) (written : Bool) :
    (s.request via method written).transport = s.transport := by
  unfold Client.request
  dsimp only
  split
  · split <;> rfl
  · rfl
  · rfl

theorem transport_onLine {line : JsString} {s' : Client} (h : s.onLine parse line written = some s') :
    s'.transport = s.transport := by
  unfold onLine at h
  split at h
  · cases h
    rfl
  · cases h
  · split at h
    · cases h
      rfl
    · split at h
      · cases h
        simp
      · cases h
        rfl

theorem transport_drain (s : Client) (lines : List JsString) :
    (drain parse written s lines).transport = s.transport := by
  fun_induction drain parse written s lines with
  | case1 => rfl
  | case2 => rfl
  | case3 =>
      rename_i ih
      exact ih
  | case4 =>
      rename_i hline ih
      exact ih.trans (transport_onLine hline)
  | case5 => rfl

theorem transport_step (s : Client) (op : Op) : (step parse s op).transport = s.transport := by
  cases op with
  | request via method written => exact transport_request ..
  | data chunk written =>
      simp only [step]
      split
      · exact transport_drain ..
      · rfl
  | timeout id =>
      simp only [step]
      split <;> split <;> rfl
  | reply id reply =>
      simp only [step]
      split
      · rfl
      · split <;> rfl
  | exit | close =>
      simp only [step]
      split <;> rfl

theorem replies_reach_requests_iff (parse : JsString → Option Json) (transport : Transport) (ops : List Op) :
    Correct parse transport ops ↔ Under (step parse) (NoImpostor parse) { transport := transport } ops := by
  have hanswered : (∀ pre, pre <+: ops → AllAnswered (run (step parse) { transport := transport } pre)) ↔
      Under (step parse) (NoImpostor parse) { transport := transport } ops :=
    forall_prefix_iff_under (fun s op (h : Inv s) => h.step op)
      (fun s op h hall => allAnswered_step_iff s op h hall) (inv_start transport)
      (fun e he => absurd he List.not_mem_nil) ops
  refine ⟨fun h => hanswered.mp h.answered, fun h => ⟨fun pre _ => ?_, hanswered.mpr h, ?_⟩⟩
  · have hinv : Inv (run (step parse) { transport := transport } pre) :=
      run_invariant (fun s op (hs : Inv s) => hs.step op) (inv_start transport) pre
    exact hinv.settledOnce
  · intro hstdio pre op _ hends
    have htransport : (run (step parse) { transport := transport } pre).transport = transport :=
      run_invariant (I := fun s => s.transport = transport) (fun s op hs => (transport_step s op).trans hs) rfl pre
    rw [run_concat]
    exact rejectsPending_ends (htransport.trans hstdio) hends

/-- A request of the server, which numbers its requests from 1 as the client does. -/
def ping : Json := .obj [(js "jsonrpc", .str (js "2.0")), (js "id", .num (js "1")), (js "method", .str (js "ping"))]

/-- `JSON.parse` on the text of `ping`. -/
def parsePing (text : JsString) : Option Json := if text = ping.stringify then some ping else none

def pinged : List Op := [.request .request (js "tools/call") true, .data (ping.stringify ++ [unit '\n']) true]

/-- The first call over stdio is fulfilled with a request of the server. -/
theorem ping_answers_call : ¬Correct parsePing .stdio pinged := by
  intro h
  have hsettled : (run (step parsePing) { transport := .stdio } pinged).settled =
      [(⟨1, js "tools/call", .request⟩, .fulfilled ping)] := by rfl
  have hanswered := h.answered pinged (List.prefix_refl _) (⟨1, js "tools/call", .request⟩, .fulfilled ping)
    (hsettled ▸ List.mem_singleton_self _)
  have hmethod : (ping.get? (js "method")).isNone = false := by decide
  have hresponse : (ping.get? (js "method")).isNone = true := (hanswered (by decide)).1
  rw [hmethod] at hresponse
  cases hresponse

end WrongStack.Mcp
