import WrongStack.Session.Writer

/-!
# What the writer has and what it owes

Every event of a call is on disk, in the chain, in the buffer or with a suspended call, in this
order. The counters have seen all but the events of the suspended calls.
-/

namespace WrongStack.Session

open Lib

def WriterConfig.line (c : WriterConfig) (e : SessionEvent) : Record :=
  .event (scrubEvent c.secretScrubber e)

/-- The file that holds everything: nothing is written before the first event is appended. -/
def fullLog (c : WriterConfig) (events : List SessionEvent) : List Record :=
  if events.isEmpty then [] else c.startRecord :: events.map c.line

def countersOf (c : WriterConfig) (events : List SessionEvent) : Counters :=
  events.foldl (fun k e => observeForSummary k (scrubEvent c.secretScrubber e)) {}

namespace Writer

variable {c : WriterConfig} {w : Writer} {called : List SessionEvent}

/-- The file, and behind it all that is on its way. -/
def logged (c : WriterConfig) (w : Writer) : List Record :=
  w.file ++ w.writeChain.flatten ++ w.writeBuffer.map .event ++ w.suspended.flatten.map c.line

structure Inv (c : WriterConfig) (w : Writer) (called : List SessionEvent) : Prop where
  content : w.closing ≠ .resolved → w.logged c = fullLog c called
  written : w.file <+: fullLog c called
  observed : ∃ es, es ++ w.suspended.flatten = called ∧ w.counters = countersOf c es
  started : w.init = .notStarted ↔ called = []
  nonempty : ∀ es ∈ w.suspended, es ≠ []
  awaits : w.awaits ≤ w.writeChain.length
  notCalled : w.closed = false → w.closing = .notCalled

theorem Inv.start : Inv c {} [] where
  content _ := rfl
  written := List.prefix_rfl
  observed := ⟨[], rfl, rfl⟩
  started := ⟨fun _ => rfl, fun _ => rfl⟩
  nonempty := fun _ hes => absurd hes List.not_mem_nil
  awaits := Nat.le_refl 0
  notCalled _ := rfl

/-! ## Flushing -/

theorem flush_eq (w : Writer) : w.flush =
    { w with
      flushTimer := false
      writeBuffer := []
      writeChain := if w.writeBuffer = [] then w.writeChain
        else w.writeChain ++ [w.writeBuffer.map .event] } := by
  unfold flush flushBuffer
  split
  · rename_i hempty
    simp only at hempty
    simp [hempty]
  · simp [enqueueWrite]

theorem flush_chain (w : Writer) :
    w.flush.writeChain.flatten = w.writeChain.flatten ++ w.writeBuffer.map .event := by
  rw [flush_eq]
  simp only
  split <;> simp_all

theorem length_writeChain_flush (w : Writer) : w.writeChain.length ≤ w.flush.writeChain.length := by
  rw [flush_eq]
  simp only
  split <;> simp

theorem logged_flush (w : Writer) : w.flush.logged c = w.logged c := by
  unfold logged
  rw [flush_chain]
  simp [flush_eq]

theorem Inv.flush (h : Inv c w called) : Inv c w.flush called where
  content := by
    rw [logged_flush, flush_eq]
    exact h.content
  written := by
    rw [flush_eq]
    exact h.written
  observed := by
    rw [flush_eq]
    exact h.observed
  started := by
    rw [flush_eq]
    exact h.started
  nonempty := by
    rw [flush_eq]
    exact h.nonempty
  awaits := by
    refine Nat.le_trans ?_ (length_writeChain_flush w)
    rw [flush_eq]
    exact h.awaits
  notCalled := by
    rw [flush_eq]
    exact h.notCalled

/-! ## Appending -/

theorem foldl_push (events : List SessionEvent) : events.foldl (push c) w =
    { w with
      counters := events.foldl (fun k e => observeForSummary k (scrubEvent c.secretScrubber e)) w.counters
      writeBuffer := w.writeBuffer ++ events.map (scrubEvent c.secretScrubber) } := by
  induction events generalizing w with
  | nil => simp
  | cons e events ih =>
      rw [List.foldl_cons, ih]
      simp [push]

theorem fullLog_append {events : List SessionEvent} (h : called ≠ []) :
    fullLog c (called ++ events) = fullLog c called ++ events.map c.line := by
  simp [fullLog, h]

theorem Inv.appendBatch (h : Inv c w called) (hopen : w.closed = false) (events : List SessionEvent) :
    Inv c (w.appendBatch c events) (called ++ events) := by
  unfold Writer.appendBatch
  by_cases hnil : events = []
  · simpa [hnil] using h
  · have hguard : (w.closed || events.isEmpty) = false := by simp [hopen, hnil]
    rw [if_neg (by rw [hguard]; exact Bool.false_ne_true)]
    obtain ⟨es, hes, hcounters⟩ := h.observed
    have hobserved : es ++ (w.suspended ++ [events]).flatten = called ++ events := by
      rw [← hes]
      simp
    have hnonempty : ∀ ds ∈ w.suspended ++ [events], ds ≠ [] := by
      intro ds hds
      rcases List.mem_append.mp hds with hds | hds
      · exact h.nonempty ds hds
      · rw [List.mem_singleton.mp hds]
        exact hnil
    unfold Writer.ensureInit
    cases hinit : w.init with
    | notStarted =>
        obtain rfl := h.started.mp hinit
        have hnothing := h.content
        simp only [logged, fullLog, List.isEmpty_nil, ↓reduceIte, List.append_eq_nil_iff] at hnothing
        refine ⟨fun hres => ?_, ?_, ⟨es, hobserved, hcounters⟩, by simp [hnil], hnonempty, ?_,
          h.notCalled⟩
        · obtain ⟨⟨⟨hfile, hchain⟩, hbuffer⟩, hsusp⟩ := hnothing hres
          simp [logged, enqueueWrite, fullLog, hnil, hfile, hchain, hbuffer, hsusp]
        · have hfile : w.file = [] := List.prefix_nil.mp h.written
          simp [enqueueWrite, hfile]
        · simpa [enqueueWrite] using Nat.le_succ_of_le h.awaits
    | _ =>
        have hcalled : called ≠ [] := fun he => by
          rw [h.started.mpr he] at hinit
          cases hinit
        refine ⟨fun hres => ?_, ?_, ⟨es, hobserved, hcounters⟩, ?_, hnonempty, h.awaits,
          h.notCalled⟩
        · rw [fullLog_append hcalled, ← h.content hres]
          simp [logged]
        · rw [fullLog_append hcalled]
          exact h.written.trans (List.prefix_append _ _)
        · simp [hinit, hnil]

theorem continueAppend_cases (events : List SessionEvent) :
    w.continueAppend c events = (events.foldl (push c) w).flush ∨
      w.continueAppend c events = (events.foldl (push c) w).scheduleFlush := by
  unfold continueAppend
  simp only
  split
  · exact Or.inl rfl
  · exact Or.inr rfl

theorem Inv.resume (h : Inv c w called) : Inv c (w.resume c) called := by
  unfold Writer.resume
  split
  · rename_i events rest hinit hsusp
    obtain ⟨es, hes, hcounters⟩ := h.observed
    have hpush : Inv c (events.foldl (push c) { w with suspended := rest }) called := by
      rw [foldl_push]
      refine ⟨fun hres => ?_, h.written, ⟨es ++ events, ?_, ?_⟩, h.started, ?_, h.awaits,
        h.notCalled⟩
      · rw [← h.content hres]
        simp [logged, hsusp, WriterConfig.line]
      · rw [← hes, hsusp]
        simp
      · simp only [countersOf, List.foldl_append, hcounters]
      · exact fun ds hds => h.nonempty ds (hsusp ▸ List.mem_cons_of_mem _ hds)
    rcases continueAppend_cases (w := { w with suspended := rest }) (c := c) events with heq | heq
    · rw [heq]
      exact hpush.flush
    · rw [heq]
      exact ⟨hpush.content, hpush.written, hpush.observed, hpush.started, hpush.nonempty, hpush.awaits,
        hpush.notCalled⟩
  · exact h

/-! ## The disk and the close -/

theorem Inv.writeDone (h : Inv c w called) : Inv c w.writeDone called := by
  unfold Writer.writeDone
  split
  · exact h
  · rename_i data rest hchain
    have hawaits := h.awaits
    rw [hchain, List.length_cons] at hawaits
    refine ⟨fun hres => ?_, ?_, h.observed, h.started, h.nonempty, ?_, h.notCalled⟩
    · rw [← h.content hres]
      simp only at hres
      simp [logged, hchain, hres]
    · simp only
      split
      · exact h.written
      · rename_i hres
        rw [← h.content hres]
        refine ⟨rest.flatten ++ w.writeBuffer.map .event ++ w.suspended.flatten.map c.line, ?_⟩
        simp [logged, hchain]
    · simp only
      omega

theorem Inv.initDone (h : Inv c w called) : Inv c w.initDone called := by
  unfold Writer.initDone
  split
  · rename_i hpending
    refine ⟨h.content, h.written, h.observed, ?_, h.nonempty, h.awaits, h.notCalled⟩
    rw [← h.started, hpending.1]
    simp
  · exact h

theorem Inv.close (h : Inv c w called) : Inv c w.close called := by
  unfold Writer.close
  cases hclosed : w.closed with
  | true => simpa [hclosed] using h
  | false =>
      have hopen : w.closing = .notCalled := h.notCalled hclosed
      have hflush : Inv c ({ w with closed := true }).flush called :=
        Inv.flush ⟨h.content, h.written, h.observed, h.started, h.nonempty, h.awaits, fun _ => hopen⟩
      simp only [Bool.false_eq_true, ↓reduceIte]
      refine ⟨fun _ => hflush.content ?_, hflush.written, hflush.observed, hflush.started,
        hflush.nonempty, ?_, fun hc => ?_⟩
      · rw [flush_eq]
        simp [hopen]
      · simp only
        split
        · exact Nat.le_refl _
        · exact Nat.zero_le _
      · rw [flush_eq] at hc
        cases hc

theorem Inv.closeStep (h : Inv c w called) : Inv c w.closeStep called := by
  have hclosed : w.closing ≠ .notCalled → ¬ w.closed = false := fun hc hopen => hc (h.notCalled hopen)
  unfold Writer.closeStep
  split
  · exact h
  · split
    · exact h
    · rename_i hc
      split
      · exact h
      · exact ⟨fun _ => h.content (by simp [hc]), h.written, h.observed, h.started, h.nonempty,
          Nat.le_refl _, fun hopen => absurd hopen (hclosed (by simp [hc]))⟩
    · rename_i hc
      exact ⟨fun _ => h.content (by simp [hc]), h.written, h.observed, h.started, h.nonempty, h.awaits,
        fun hopen => absurd hopen (hclosed (by simp [hc]))⟩
    · rename_i hc
      exact ⟨fun hres => absurd rfl hres, h.written, h.observed, h.started, h.nonempty, h.awaits,
        fun hopen => absurd hopen (hclosed (by simp [hc]))⟩
    · exact h

theorem appendBatch_of_closed (h : w.closed = true) (events : List SessionEvent) :
    w.appendBatch c events = w := by
  simp [Writer.appendBatch, h]

/-- What the writer has and what it owes are, after any step, all the events called for so far. -/
theorem Inv.step (h : Inv c w called) (o : WriterOp) : Inv c (w.step c o) (Writer.called called w o) := by
  cases o with
  | append event =>
      cases hclosed : w.closed with
      | true => simpa [Writer.step, Writer.append, Writer.called, appendBatch_of_closed hclosed, hclosed] using h
      | false => simpa [Writer.step, Writer.append, Writer.called, hclosed] using h.appendBatch hclosed [event]
  | appendBatch events =>
      cases hclosed : w.closed with
      | true => simpa [Writer.step, Writer.called, appendBatch_of_closed hclosed, hclosed] using h
      | false => simpa [Writer.step, Writer.called, hclosed] using h.appendBatch hclosed events
  | flush => exact h.flush
  | timerFires =>
      simp only [Writer.step, Writer.timerFires, Writer.called]
      split
      · exact h.flush
      · exact h
  | close => exact h.close
  | resume => exact h.resume
  | writeDone => exact h.writeDone
  | initDone => exact h.initDone
  | closeStep => exact h.closeStep

/-! ## A closed writer -/

theorem Inv.step_closed (h : Inv c w called) (hclosed : w.closed = true) (o : WriterOp) :
    Inv c (w.step c o) called := by
  have hstep := h.step o
  cases o <;> simpa [Writer.called, hclosed] using hstep

theorem closed_resume (w : Writer) : (w.resume c).closed = w.closed := by
  unfold Writer.resume
  split
  · rename_i events rest _ _
    rcases continueAppend_cases (w := { w with suspended := rest }) (c := c) events with heq | heq
    · rw [heq, flush_eq, foldl_push]
    · rw [heq, foldl_push]
      rfl
  · rfl

theorem closed_step (h : w.closed = true) (o : WriterOp) : (w.step c o).closed = true := by
  cases o with
  | append event => rw [Writer.step, Writer.append, appendBatch_of_closed h, h]
  | appendBatch events => rw [Writer.step, appendBatch_of_closed h, h]
  | flush => rw [Writer.step, flush_eq, h]
  | timerFires =>
      simp only [Writer.step, Writer.timerFires, flush_eq]
      split <;> exact h
  | close => simp [Writer.step, Writer.close, h]
  | resume => rw [Writer.step, closed_resume, h]
  | writeDone =>
      simp only [Writer.step, Writer.writeDone]
      split <;> exact h
  | initDone =>
      simp only [Writer.step, Writer.initDone]
      split <;> exact h
  | closeStep =>
      simp only [Writer.step, Writer.closeStep]
      repeat (first | exact h | split)

end Writer

end WrongStack.Session

/-!
# Closing the writer

What is certain from the call of `close` on, if no call is cut off by it; and how `close` can resolve
without the events of a call that is.
-/

namespace WrongStack.Session

open Lib

def Complete (c : WriterConfig) (called : List SessionEvent) (w : Writer) : Prop :=
  w.file = fullLog c called ∧ w.summary = some (countersOf c called).finalize

namespace Writer

variable {c : WriterConfig} {w : Writer} {called : List SessionEvent}

/-- The last suspended call is continued before `doClose` is, and fills the buffer by itself. -/
def LastFills (w : Writer) : Prop :=
  w.init = .done ∧ ∃ last, w.suspended.getLast? = some last ∧ FLUSH_SIZE ≤ last.length

/-- `close` cuts off no call. -/
def CloseSafe (w : Writer) : Prop := w.suspended = [] ∨ w.LastFills

/-! ## A close that cuts off no call -/

def Settling (c : WriterConfig) (called : List SessionEvent) (w : Writer) : Prop :=
  match w.closing with
  | .notCalled => False
  | .flushing => (w.suspended = [] ∧ w.writeBuffer = []) ∨ (w.resumeFirst = true ∧ w.LastFills)
  | .draining => w.suspended = [] ∧ w.writeBuffer = [] ∧ w.awaits = w.writeChain.length
  | .finalized => w.suspended = [] ∧ w.writeBuffer = [] ∧ w.writeChain = [] ∧
      w.summary = some (countersOf c called).finalize
  | .resolved => Complete c called w

theorem Settling.close (h : w.CloseSafe) (hopen : w.closed = false) : Settling c called w.close := by
  have hclose : w.close.closing = .flushing ∧ w.close.suspended = w.suspended ∧
      w.close.writeBuffer = [] ∧ w.close.init = w.init ∧
      w.close.resumeFirst = decide (w.init = .done) := by
    simp [Writer.close, hopen, flush_eq]
  obtain ⟨hclosing, hsusp, hbuffer, hinit, hfirst⟩ := hclose
  simp only [Settling, hclosing, hsusp, hbuffer, hfirst, LastFills, hinit, decide_eq_true_eq]
  rcases h with h | h
  · exact Or.inl ⟨h, trivial⟩
  · exact Or.inr ⟨h.1, h⟩

theorem flush_of_empty (h : w.writeBuffer = []) : w.flush = { w with flushTimer := false } := by
  rw [flush_eq]
  simp [h]

theorem Settling.flush (h : Settling c called w) : Settling c called w.flush := by
  unfold Settling at h ⊢
  have hclosing : w.flush.closing = w.closing := by rw [flush_eq]
  rw [hclosing]
  cases hc : w.closing with
  | notCalled => simp [hc] at h
  | flushing =>
      simp only [hc] at h
      rcases h with h | h
      · rw [flush_of_empty h.2]
        exact Or.inl h
      · rw [flush_eq]
        exact Or.inr h
  | draining =>
      simp only [hc] at h
      rw [flush_of_empty h.2.1]
      exact h
  | finalized =>
      simp only [hc] at h
      rw [flush_of_empty h.2.1]
      exact h
  | resolved =>
      simp only [hc] at h
      rw [flush_eq]
      exact h

theorem resume_of_no_call (h : w.suspended = []) : w.resume c = w := by
  unfold Writer.resume
  split
  · rename_i hsusp
    rw [h] at hsusp
    cases hsusp
  · rfl

theorem continueAppend_full {events : List SessionEvent} (h : FLUSH_SIZE ≤ events.length) :
    w.continueAppend c events = (events.foldl (push c) w).flush := by
  unfold continueAppend
  have hlen : FLUSH_SIZE ≤ (events.foldl (push c) w).writeBuffer.length := by
    rw [foldl_push]
    simp only [List.length_append, List.length_map]
    omega
  simp only [hlen, ↓reduceIte]

theorem Settling.resume (h : Settling c called w) : Settling c called (w.resume c) := by
  by_cases hsusp : w.suspended = []
  · rwa [resume_of_no_call hsusp]
  · unfold Settling at h
    cases hc : w.closing with
    | notCalled => simp [hc] at h
    | flushing =>
        simp only [hc, hsusp, false_and, false_or] at h
        obtain ⟨hfirst, hdone, last, hlast, hfull⟩ := h
        cases hs : w.suspended with
        | nil => exact absurd hs hsusp
        | cons events rest =>
            rw [hs] at hlast
            have hresume : w.resume c = { w with suspended := rest }.continueAppend c events := by
              simp only [Writer.resume, hdone, hs]
            rw [hresume]
            cases rest with
            | nil =>
                obtain rfl : events = last := by simpa using hlast
                rw [continueAppend_full hfull, flush_eq, foldl_push]
                simp [Settling, hc]
            | cons next rest =>
                rw [List.getLast?_cons_cons] at hlast
                rcases continueAppend_cases (w := { w with suspended := next :: rest }) (c := c) events
                  with heq | heq
                · rw [heq, flush_eq, foldl_push]
                  simp only [Settling, hc]
                  exact Or.inr ⟨hfirst, hdone, last, hlast, hfull⟩
                · rw [heq, foldl_push]
                  simp only [Settling, scheduleFlush, hc]
                  exact Or.inr ⟨hfirst, hdone, last, hlast, hfull⟩
    | draining => simp [hc, hsusp] at h
    | finalized => simp [hc, hsusp] at h
    | resolved =>
        -- nothing that a call still does reaches the file
        simp only [hc] at h
        unfold Writer.resume
        split
        · rename_i events rest _ _
          rcases continueAppend_cases (w := { w with suspended := rest }) (c := c) events with heq | heq
          · rw [heq, flush_eq, foldl_push]
            simp only [Settling, hc]
            exact h
          · rw [heq, foldl_push]
            simp only [Settling, scheduleFlush, hc]
            exact h
        · simpa only [Settling, hc] using h

theorem Settling.writeDone (h : Settling c called w) : Settling c called w.writeDone := by
  unfold Writer.writeDone
  cases hchain : w.writeChain with
  | nil => exact h
  | cons data rest =>
      unfold Settling at h
      cases hc : w.closing with
      | notCalled => simp [hc] at h
      | flushing =>
          simp only [hc] at h
          simp only [Settling]
          exact h
      | draining =>
          simp only [hc, hchain, List.length_cons] at h
          simp only [Settling]
          refine ⟨h.1, h.2.1, ?_⟩
          omega
      | finalized => simp [hc, hchain] at h
      | resolved =>
          simp only [hc] at h
          simp only [Settling, ↓reduceIte]
          exact h

theorem Settling.initDone (h : Settling c called w) : Settling c called w.initDone := by
  unfold Writer.initDone
  split
  · rename_i hpending
    unfold Settling at h ⊢
    cases hc : w.closing with
    | notCalled => simp [hc] at h
    | flushing =>
        simp only [hc, LastFills, hpending.1] at h ⊢
        rcases h with h | ⟨-, h, -⟩
        · exact Or.inl h
        · cases h
    | draining => simpa only [hc] using h
    | finalized => simpa only [hc] using h
    | resolved =>
        simp only [hc] at h
        exact h
  · exact h

theorem Settling.closeStep (hi : Inv c w called) (h : Settling c called w) :
    Settling c called w.closeStep := by
  unfold Writer.closeStep
  split
  · exact h
  · rename_i hawaits
    unfold Settling at h
    cases hc : w.closing with
    | notCalled => simp [hc] at h
    | flushing =>
        simp only [hc] at h
        rcases h with ⟨hsusp, hbuffer⟩ | ⟨hfirst, hfills⟩
        · simp [Settling, hsusp, hbuffer]
        · obtain ⟨-, last, hlast, -⟩ := id hfills
          have hsusp : w.suspended ≠ [] := fun hnil => by simp [hnil] at hlast
          have hwait : (w.resumeFirst && !w.suspended.isEmpty) = true := by simp [hfirst, hsusp]
          simp only [hwait, ↓reduceIte, Settling, hc]
          exact Or.inr ⟨hfirst, hfills⟩
    | draining =>
        simp only [hc] at h
        obtain ⟨hsusp, hbuffer, hall⟩ := h
        obtain ⟨es, hes, hcounters⟩ := hi.observed
        rw [hsusp, List.flatten_nil, List.append_nil] at hes
        have hchain : w.writeChain = [] := by
          rw [← List.length_eq_zero_iff]
          omega
        simp [Settling, hsusp, hbuffer, hchain, hcounters, hes]
    | finalized =>
        simp only [hc] at h
        obtain ⟨hsusp, hbuffer, hchain, hsummary⟩ := h
        have hcontent := hi.content (by simp [hc])
        simp only [logged, hsusp, hbuffer, hchain, List.flatten_nil, List.map_nil, List.append_nil]
          at hcontent
        exact ⟨hcontent, hsummary⟩
    | resolved => simpa only [Settling, hc] using h

theorem Settling.step (hi : Inv c w called) (hclosed : w.closed = true) (h : Settling c called w)
    (o : WriterOp) : Settling c called (w.step c o) := by
  cases o with
  | append event => rwa [Writer.step, Writer.append, appendBatch_of_closed hclosed]
  | appendBatch events => rwa [Writer.step, appendBatch_of_closed hclosed]
  | flush => exact h.flush
  | timerFires =>
      simp only [Writer.step, Writer.timerFires]
      split
      · exact h.flush
      · exact h
  | close => simpa [Writer.step, Writer.close, hclosed] using h
  | resume => exact h.resume
  | writeDone => exact h.writeDone
  | initDone => exact h.initDone
  | closeStep => exact h.closeStep hi

/-! ## Runs of a closed writer -/

theorem run_closed (hi : Inv c w called) (hclosed : w.closed = true) (os : List WriterOp) :
    Inv c (run (Writer.step c) w os) called ∧ (run (Writer.step c) w os).closed = true :=
  run_invariant (I := fun w => Inv c w called ∧ w.closed = true)
    (fun _ o h => ⟨h.1.step_closed h.2 o, closed_step h.2 o⟩) ⟨hi, hclosed⟩ os

theorem run_settling (hi : Inv c w called) (hclosed : w.closed = true) (h : Settling c called w)
    (os : List WriterOp) : Settling c called (run (Writer.step c) w os) :=
  (run_invariant (I := fun w => Inv c w called ∧ w.closed = true ∧ Settling c called w)
    (fun _ o h => ⟨h.1.step_closed h.2.1 o, closed_step h.2.1 o, h.2.2.step h.1 h.2.1 o⟩)
    ⟨hi, hclosed, h⟩ os).2.2

/-! ## A close that cuts off a call -/

theorem run_writeDone (hc : w.closing ≠ .resolved) :
    run (Writer.step c) w (List.replicate w.writeChain.length .writeDone) =
      { w with
        writeChain := []
        file := w.file ++ w.writeChain.flatten
        awaits := w.awaits - w.writeChain.length } := by
  induction hchain : w.writeChain generalizing w with
  | nil =>
      obtain ⟨⟩ := w
      simp_all
  | cons data rest ih =>
      have hstep : w.step c .writeDone =
          { w with writeChain := rest, file := w.file ++ data, awaits := w.awaits - 1 } := by
        simp [Writer.step, Writer.writeDone, hchain, hc]
      rw [List.length_cons, List.replicate_succ, run_cons, hstep]
      rw [ih (w := { w with writeChain := rest, file := w.file ++ data, awaits := w.awaits - 1 }) hc rfl]
      simp only [List.flatten_cons, List.append_assoc, Writer.mk.injEq, true_and, and_true]
      omega

theorem run_finish (hc : w.closing = .flushing) (hgo : w.resumeFirst = false ∨ w.suspended = [])
    (ha : w.awaits ≤ w.writeChain.length) :
    ∃ post, (run (Writer.step c) w post).closing = .resolved ∧
      (run (Writer.step c) w post).file = w.file ++ w.writeChain.flatten := by
  refine ⟨List.replicate w.writeChain.length .writeDone ++ [.closeStep, .closeStep, .closeStep], ?_⟩
  have hawaits : w.awaits - w.writeChain.length = 0 := Nat.sub_eq_zero_of_le ha
  have hwait : (w.resumeFirst && !w.suspended.isEmpty) = false := by
    rcases hgo with h | h <;> simp [h]
  rw [run_append, run_writeDone (by simp [hc]), hawaits]
  simp [Writer.step, Writer.closeStep, hc, hwait]

/-- What is not in the chain when the close goes through is not in the file. -/
theorem exists_incomplete (hi : Inv c w called) (hc : w.closing = .flushing)
    (hgo : w.resumeFirst = false ∨ w.suspended = []) (hleft : w.writeBuffer ≠ [] ∨ w.suspended ≠ []) :
    ∃ post, (run (Writer.step c) w post).closing = .resolved ∧
      ¬ Complete c called (run (Writer.step c) w post) := by
  obtain ⟨post, hres, hfile⟩ := run_finish (c := c) hc hgo hi.awaits
  refine ⟨post, hres, fun hcomplete => ?_⟩
  have hall := hcomplete.1
  rw [hfile, ← hi.content (by simp [hc]), logged, List.append_assoc, List.self_eq_append_right,
    List.append_eq_nil_iff, List.map_eq_nil_iff, List.map_eq_nil_iff] at hall
  rcases hleft with hbuffer | hsusp
  · exact hbuffer hall.1
  · obtain ⟨es, hes⟩ := List.exists_mem_of_ne_nil _ hsusp
    exact hi.nonempty es hes (List.flatten_eq_nil_iff.mp hall.2 es hes)

/-- The last call is continued with the buffer just flushed, and does not fill it. -/
theorem exists_left_over (hc : w.closing = .flushing) (hdone : w.init = .done)
    {before : List (List SessionEvent)} {last : List SessionEvent} (hs : w.suspended = before ++ [last])
    (hlast : last ≠ []) (hshort : last.length < FLUSH_SIZE) :
    ∃ post, (run (Writer.step c) w post).closing = .flushing ∧
      (run (Writer.step c) w post).suspended = [] ∧ (run (Writer.step c) w post).writeBuffer ≠ [] := by
  induction before generalizing w with
  | nil =>
      refine ⟨[.flush, .resume], ?_⟩
      have hresume : (w.step c .flush).step c .resume =
          ({ w.flush with suspended := [] }).continueAppend c last := by
        have hinit : w.flush.init = .done := by rw [flush_eq, hdone]
        have hsusp : w.flush.suspended = [last] := by rw [flush_eq, hs, List.nil_append]
        simp only [Writer.step, Writer.resume, hinit, hsusp]
      have hlen : ¬ FLUSH_SIZE ≤ last.length := Nat.not_le.mpr hshort
      rw [run_cons, run_cons, run_nil, hresume]
      simp only [continueAppend, foldl_push, flush_eq, List.nil_append, List.length_map, hlen,
        ↓reduceIte, scheduleFlush]
      exact ⟨hc, trivial, by simpa using hlast⟩
  | cons events before ih =>
      have hresume : w.step c .resume = { w with suspended := before ++ [last] }.continueAppend c events := by
        simp only [Writer.step, Writer.resume, hdone, hs, List.cons_append]
      have hnext : (w.step c .resume).closing = .flushing ∧ (w.step c .resume).init = .done ∧
          (w.step c .resume).suspended = before ++ [last] := by
        rw [hresume]
        rcases continueAppend_cases (w := { w with suspended := before ++ [last] }) (c := c) events
          with heq | heq
        · rw [heq, flush_eq, foldl_push]
          exact ⟨hc, hdone, rfl⟩
        · rw [heq, foldl_push]
          exact ⟨hc, hdone, rfl⟩
      obtain ⟨post, hpost⟩ := ih hnext.1 hnext.2.1 hnext.2.2
      exact ⟨.resume :: post, hpost⟩

end Writer

end WrongStack.Session
