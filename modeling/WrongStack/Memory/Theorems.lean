import WrongStack.Memory.Backend

/-!
# No memory is lost

A run of the processes is looked at with a ledger: the entries that have been remembered and not been taken out again,
and the lines that a `forget` has removed.
-/

namespace WrongStack.Memory

open Lib

variable {toLowerCase : JsString → JsString} {s : State} {g : Ledger} {p : Nat}

structure Ledger where
  /-- Remembered, and since then neither matched by a `forget` or a `consolidate` nor cleared. -/
  due : List (JsString × MemoryEntry) := []
  removed : List JsString := []

/-- What the next access of a call settles: a remembered entry becomes due when its file is in place, and is due until
a rule that matches one of its lines takes effect. -/
def record (toLowerCase : JsString → JsString) (g : Ledger) (s : State) : Op → Ledger
  | .step p true =>
      match (s.stores p).stage with
      | .rememberWrite id entry _ => { g with due := (id, entry) :: g.due }
      | .forgetWrite query existing =>
          { due := g.due.filter fun e => (stored e.1 e.2).all fun line => !forgets toLowerCase query line
            removed := (lines existing).filter (forgets toLowerCase query) ++ g.removed }
      | .consolidateWrite _ existing =>
          { g with due := g.due.filter fun e =>
              (stored e.1 e.2).all fun line => decide (line ∉ (dedupe toLowerCase [] (lines existing)).2) }
      | .clearWrite _ => { g with due := [] }
      | _ => g
  | _ => g

/-- What has been remembered and is due is in the file, and what has been forgotten is not. -/
def Kept (t : State × Ledger) : Prop :=
  (∀ id entry, Outcome.remembered id entry ∈ t.1.resolved → (id, entry) ∈ t.2.due →
      stored id entry <:+: lines t.1.text) ∧
    ∀ removed, Outcome.forgot removed ∈ t.1.resolved → ∀ line ∈ removed, line ∉ lines t.1.text

/-- A call writes where it has read: the file is still as its read saw it. A new entry, which has an id of its own, has
no line that has been removed before. -/
def Undisturbed (t : State × Ledger) : Op → Prop
  | .step p true =>
      match (t.1.stores p).stage with
      | .rememberWrite id entry existing => existing = t.1.text ∧ ∀ line ∈ stored id entry, line ∉ t.2.removed
      | .forgetWrite _ existing => existing = t.1.text
      | .consolidateWrite _ existing => existing = t.1.text
      | _ => True
  | _ => True

/-! ## What the calls report -/

def Outcome.removed : Outcome → List JsString
  | forgot removed => removed
  | remembered .. | consolidated | cleared => []

def Stage.removed : Stage → List JsString
  | forgetUnlock removed => removed
  | consolidateRead outcome | consolidateWrite outcome _ | recalc outcome => outcome.removed
  | _ => []

/-- A call reports only lines of `removed`. -/
structure Reports (removed : List JsString) (s : State) : Prop where
  resolved : ∀ outcome ∈ s.resolved, outcome.removed ⊆ removed
  running : ∀ p, (s.stores p).stage.removed ⊆ removed

namespace Reports

variable {removed : List JsString} {stage : Stage} {outcome : Outcome}

theorem mono (h : Reports removed s) {removed' : List JsString} (hsub : removed ⊆ removed') : Reports removed' s :=
  ⟨fun o ho => List.Subset.trans (h.resolved o ho) hsub, fun p => List.Subset.trans (h.running p) hsub⟩

theorem file (h : Reports removed s) (file : Option JsString) : Reports removed { s with file := file } :=
  ⟨h.resolved, h.running⟩

theorem lock (h : Reports removed s) (lock : Bool) : Reports removed { s with lock := lock } :=
  ⟨h.resolved, h.running⟩

theorem stores (h : Reports removed s) (p : Nat) {store : Store} (hstore : store.stage.removed ⊆ removed) :
    Reports removed { s with stores := Function.update s.stores p store } := by
  refine ⟨h.resolved, fun q => ?_⟩
  by_cases hq : q = p
  · subst hq
    simpa using hstore
  · simpa [Function.update_of_ne hq] using h.running q

theorem become (h : Reports removed s) (p : Nat) (hstage : stage.removed ⊆ removed) :
    Reports removed (s.become p stage) :=
  h.stores p hstage

theorem track (h : Reports removed s) (p size : Nat) : Reports removed (s.track p size) :=
  h.stores p (h.running p)

theorem settle (h : Reports removed s) (p : Nat) (houtcome : outcome.removed ⊆ removed) :
    Reports removed { s.become p .idle with resolved := outcome :: s.resolved } := by
  refine ⟨fun o ho => ?_, fun q => (h.stores p (List.nil_subset _)).running q⟩
  rcases List.mem_cons.mp ho with rfl | hold
  · exact houtcome
  · exact h.resolved o hold

theorem finish (h : Reports removed s) (p : Nat) (houtcome : outcome.removed ⊆ removed) :
    Reports removed (s.finish p outcome) := by
  cases outcome with
  | remembered id entry => exact (h.track p _).settle p houtcome
  | forgot | consolidated | cleared => exact h.settle p houtcome

end Reports

/-! ## The invariant -/

@[simp] theorem text_become (s : State) (p : Nat) (stage : Stage) : (s.become p stage).text = s.text := rfl

@[simp] theorem text_track (s : State) (p size : Nat) : (s.track p size).text = s.text := rfl

@[simp] theorem file_finish (s : State) (p : Nat) (outcome : Outcome) : (s.finish p outcome).file = s.file := by
  cases outcome <;> rfl

@[simp] theorem text_finish (s : State) (p : Nat) (outcome : Outcome) : (s.finish p outcome).text = s.text := by
  cases outcome <;> rfl

theorem toWellFormed_text (s : State) : JsString.toWellFormed s.text = s.text := by
  rw [State.text, State.readFile]
  cases s.file with
  | none => rfl
  | some written => exact JsString.toWellFormed_toWellFormed written

theorem text_of_file {written : JsString} (h : s.file = some written) : s.text = JsString.toWellFormed written := by
  rw [State.text, State.readFile, h]
  rfl

structure Inv (t : State × Ledger) : Prop where
  due : ∀ e ∈ t.2.due, stored e.1 e.2 <:+: lines t.1.text
  gone : ∀ line ∈ t.2.removed, line ∉ lines t.1.text
  entryLines : ∀ line ∈ t.2.removed, isEntryLine line = true
  reports : Reports t.2.removed t.1

theorem Inv.kept {t : State × Ledger} (h : Inv t) : Kept t :=
  ⟨fun id entry _ hdue => h.due (id, entry) hdue,
    fun _ hforgot line hline => h.gone line (h.reports.resolved _ hforgot hline)⟩

theorem Inv.same (h : Inv (s, g)) {s' : State} (htext : s'.text = s.text) (hreports : Reports g.removed s') :
    Inv (s', g) where
  due := htext ▸ h.due
  gone := htext ▸ h.gone
  entryLines := h.entryLines
  reports := hreports

theorem Inv.write (h : Inv (s, g)) {s' : State} {g' : Ledger} {next : JsString} {drops : JsString → Prop}
    {adds : List JsString} (hfile : s'.file = some next) (hrewrites : Rewrites s.text next drops adds)
    (hdue : ∀ e ∈ g'.due, e ∈ g.due ∧ (∀ line ∈ stored e.1 e.2, ¬drops line) ∨
      stored e.1 e.2 <:+: lines (JsString.toWellFormed next))
    (hremoved : ∀ line ∈ g'.removed, isEntryLine line = true ∧
      (line ∈ g.removed ∧ line ∉ adds ∨ line ∉ lines (JsString.toWellFormed next)))
    (hreports : Reports g'.removed s') : Inv (s', g') where
  due e he := by
    rw [text_of_file hfile]
    rcases hdue e he with ⟨hold, hdrops⟩ | hnew
    · exact hrewrites.keeps e.1 e.2 (h.due e hold) hdrops
    · exact hnew
  gone line hline := by
    rw [text_of_file hfile]
    intro hmem
    obtain ⟨hentry, ⟨hold, hadds⟩ | hnot⟩ := hremoved line hline
    · rcases hrewrites.only line hmem hentry with hbefore | hnew
      · exact h.gone line hold hbefore
      · exact hadds hnew
    · exact hnot hmem
  entryLines line hline := (hremoved line hline).1
  reports := hreports

/-! ## Steps -/

variable {id : JsString} {entry : MemoryEntry} {existing query : JsString} {outcome : Outcome}

theorem inv_rememberWrite (h : Inv (s, g)) (hexisting : existing = s.text)
    (hnew : ∀ line ∈ stored id entry, line ∉ g.removed) (p : Nat) :
    Inv (({ s with file := some (remembered existing id entry) } : State).become p (.rememberSize id entry),
      { g with due := (id, entry) :: g.due }) := by
  subst hexisting
  refine h.write rfl (rewrites_remembered (toWellFormed_text s) id entry) (fun e he => ?_) (fun line hline => ?_)
    ((h.reports.file _).become p (List.nil_subset _))
  · rcases List.mem_cons.mp he with rfl | hold
    · exact .inr (stored_infix_remembered s.text id entry)
    · exact .inl ⟨hold, fun _ _ => not_false⟩
  · exact ⟨h.entryLines line hline, .inl ⟨hline, fun hadds => hnew line hadds hline⟩⟩

theorem inv_forgetWrite (h : Inv (s, g)) (hexisting : existing = s.text) (p : Nat) :
    Inv (({ s with file := some (forgotten toLowerCase query existing) } : State).become p
        (.forgetUnlock ((lines existing).filter (forgets toLowerCase query))),
      { due := g.due.filter fun e => (stored e.1 e.2).all fun line => !forgets toLowerCase query line
        removed := (lines existing).filter (forgets toLowerCase query) ++ g.removed }) := by
  subst hexisting
  have hwf := toWellFormed_text s
  refine h.write rfl (rewrites_forgotten hwf query) (fun e he => ?_) (fun line hline => ?_)
    (((h.reports.file _).mono (List.subset_append_right _ _)).become p (List.subset_append_left _ _))
  · obtain ⟨hdue, hall⟩ := List.mem_filter.mp he
    exact .inl ⟨hdue, fun line hline => by simpa using List.all_eq_true.mp hall line hline⟩
  · rcases List.mem_append.mp hline with hnew | hold
    · have hforgets := (List.mem_filter.mp hnew).2
      exact ⟨isEntryLine_of_forgets hforgets, .inr (not_mem_forgotten hwf hforgets)⟩
    · exact ⟨h.entryLines line hold, .inl ⟨hold, List.not_mem_nil⟩⟩

theorem inv_consolidateWrite (h : Inv (s, g)) (hexisting : existing = s.text) {s' : State}
    (hfile : s'.file = some (consolidated toLowerCase existing)) (hreports : Reports g.removed s') :
    Inv (s', { g with due := g.due.filter fun e =>
      (stored e.1 e.2).all fun line => decide (line ∉ (dedupe toLowerCase [] (lines existing)).2) }) := by
  subst hexisting
  refine h.write hfile (rewrites_consolidated (toWellFormed_text s)) (fun e he => ?_) (fun line hline => ?_) hreports
  · obtain ⟨hdue, hall⟩ := List.mem_filter.mp he
    refine .inl ⟨hdue, fun line hline hdrop => ?_⟩
    have hkept := List.all_eq_true.mp hall line hline
    exact of_decide_eq_true hkept hdrop
  · exact ⟨h.entryLines line hline, .inl ⟨hline, List.not_mem_nil⟩⟩

theorem inv_clearWrite (h : Inv (s, g)) {s' : State} (hfile : s'.file = some [])
    (hreports : Reports g.removed s') : Inv (s', { g with due := [] }) where
  due _ he := absurd he List.not_mem_nil
  gone line hline := by
    rw [text_of_file hfile]
    intro hmem
    have hnil : line = [] := by simpa [lines, JsString.toWellFormed, JsString.splitOn] using hmem
    have hentry := h.entryLines line hline
    rw [hnil, not_isEntryLine_nil] at hentry
    cases hentry
  entryLines := h.entryLines
  reports := hreports

theorem inv_resume {ok : Bool} (h : Inv (s, g)) (hc : Undisturbed (s, g) (.step p ok)) :
    Inv (resume toLowerCase s p ok, record toLowerCase g s (.step p ok)) := by
  have hreports := h.reports
  have hrunning := hreports.running p
  -- an access that leaves the file as it is
  have hread {s' : State} (hledger : record toLowerCase g s (.step p ok) = g) (htext : s'.text = s.text)
      (hreports' : Reports g.removed s') : Inv (s', record toLowerCase g s (.step p ok)) := by
    rw [hledger]
    exact h.same htext hreports'
  cases hstage : (s.stores p).stage with
  | idle =>
      have hledger : record toLowerCase g s (.step p ok) = g := by cases ok <;> simp [record, hstage]
      simp only [resume, hstage]
      exact hread hledger rfl hreports
  | rememberRead id entry =>
      have hledger : record toLowerCase g s (.step p ok) = g := by cases ok <;> simp [record, hstage]
      simp only [resume, hstage]
      exact hread hledger rfl (hreports.become p (List.nil_subset _))
  | rememberWrite id entry existing =>
      cases ok with
      | false =>
          simp only [resume, hstage, Bool.false_eq_true, ↓reduceIte]
          exact hread rfl rfl (hreports.become p (List.nil_subset _))
      | true =>
          simp only [Undisturbed, hstage] at hc
          simp only [resume, record, hstage, ↓reduceIte]
          exact inv_rememberWrite h hc.1 hc.2 p
  | rememberSize id entry =>
      have hledger : record toLowerCase g s (.step p ok) = g := by cases ok <;> simp [record, hstage]
      simp only [resume, hstage]
      generalize (if ok = true then s.readFile else none) = read
      split
      · exact hread hledger rfl ((hreports.track p _).become p (List.nil_subset _))
      · exact hread hledger (by simp) ((hreports.track p _).finish p (List.nil_subset _))
  | forgetLock query =>
      have hledger : record toLowerCase g s (.step p ok) = g := by cases ok <;> simp [record, hstage]
      simp only [resume, hstage]
      split
      · exact hread hledger rfl hreports
      · split
        · exact hread hledger rfl ((hreports.lock true).become p (List.nil_subset _))
        · exact hread hledger rfl (hreports.become p (List.nil_subset _))
  | forgetRead query =>
      have hledger : record toLowerCase g s (.step p ok) = g := by cases ok <;> simp [record, hstage]
      simp only [resume, hstage]
      split
      · exact hread hledger rfl (hreports.become p (List.nil_subset _))
      · split <;> exact hread hledger rfl (hreports.become p (List.nil_subset _))
  | forgetWrite query existing =>
      cases ok with
      | false =>
          simp only [resume, hstage, Bool.false_eq_true, ↓reduceIte]
          exact hread rfl rfl ((hreports.lock false).become p (List.nil_subset _))
      | true =>
          simp only [Undisturbed, hstage] at hc
          simp only [resume, record, hstage, ↓reduceIte]
          exact inv_forgetWrite h hc p
  | forgetUnlock removed =>
      have hledger : record toLowerCase g s (.step p ok) = g := by cases ok <;> simp [record, hstage]
      have hremoved : removed ⊆ g.removed := by simpa [hstage, Stage.removed] using hrunning
      simp only [resume, hstage]
      split
      · exact hread hledger (by simp; rfl) ((hreports.lock false).finish p (List.nil_subset _))
      · exact hread hledger rfl ((hreports.lock false).become p hremoved)
  | clearWrite oneScope =>
      cases ok with
      | false =>
          simp only [resume, hstage, Bool.false_eq_true, ↓reduceIte]
          exact hread rfl rfl (hreports.become p (List.nil_subset _))
      | true =>
          simp only [resume, record, hstage, ↓reduceIte]
          refine inv_clearWrite h ?_ (Reports.finish ?_ p (List.nil_subset _))
          · cases oneScope <;> simp [State.track]
          · cases oneScope with
            | false => exact hreports.file _
            | true => exact (hreports.file _).track p 0
  | consolidateRead outcome =>
      have hledger : record toLowerCase g s (.step p ok) = g := by cases ok <;> simp [record, hstage]
      have houtcome : outcome.removed ⊆ g.removed := by simpa [hstage, Stage.removed] using hrunning
      simp only [resume, hstage]
      split
      · exact hread hledger (by simp) (hreports.finish p houtcome)
      · exact hread hledger rfl (hreports.become p houtcome)
  | consolidateWrite outcome existing =>
      have houtcome : outcome.removed ⊆ g.removed := by simpa [hstage, Stage.removed] using hrunning
      cases ok with
      | false =>
          simp only [resume, hstage, Bool.false_eq_true, ↓reduceIte]
          exact hread rfl (by simp) (hreports.finish p houtcome)
      | true =>
          simp only [Undisturbed, hstage] at hc
          simp only [resume, record, hstage, ↓reduceIte]
          split
          · exact inv_consolidateWrite h hc (by simp) ((hreports.file _).finish p houtcome)
          · exact inv_consolidateWrite h hc rfl ((hreports.file _).become p houtcome)
  | recalc outcome =>
      have hledger : record toLowerCase g s (.step p ok) = g := by cases ok <;> simp [record, hstage]
      have houtcome : outcome.removed ⊆ g.removed := by simpa [hstage, Stage.removed] using hrunning
      simp only [resume, hstage]
      exact hread hledger (by simp) ((hreports.track p _).finish p houtcome)

theorem inv_step {t : State × Ledger} {op : Op} (h : Inv t) (hc : Undisturbed t op) :
    Inv (withHistory (step toLowerCase) (record toLowerCase) t op) := by
  obtain ⟨s, g⟩ := t
  cases op with
  | call p call =>
      refine h.same ?_ ?_
      · simp only [step]
        split
        · cases call <;> rfl
        · rfl
      · simp only [step]
        split
        · cases call <;> exact h.reports.become p (List.nil_subset _)
        · exact h.reports
  | step p ok => exact inv_resume h hc
  | timeout p =>
      refine h.same ?_ ?_
      · simp only [step]
        split <;> rfl
      · simp only [step]
        split
        · exact h.reports.become p (List.nil_subset _)
        · exact h.reports
  | breakLock p =>
      refine h.same ?_ ?_
      · simp only [step]
        split <;> rfl
      · simp only [step]
        split
        · exact h.reports.lock false
        · exact h.reports
  | crash p => exact h.same rfl (h.reports.stores p (List.nil_subset _))

/-! ## Runs -/

theorem inv_start (file : Option JsString) : Inv ({ file := file }, {}) where
  due _ he := absurd he List.not_mem_nil
  gone _ hline := absurd hline List.not_mem_nil
  entryLines _ hline := absurd hline List.not_mem_nil
  reports := ⟨fun _ ho => absurd ho List.not_mem_nil, fun _ => List.nil_subset _⟩

theorem memories_kept (toLowerCase : JsString → JsString) (file : Option JsString) (ops : List Op)
    (h : Under (withHistory (step toLowerCase) (record toLowerCase)) Undisturbed ({ file := file }, {}) ops) :
    Kept (run (withHistory (step toLowerCase) (record toLowerCase)) ({ file := file }, {}) ops) :=
  (run_invariant_under (fun _ _ => inv_step) (inv_start file) h).kept

/-- An entry without a type, a priority or tags. -/
def note (text : JsString) : MemoryEntry := { ts := js "2026-01-01T00:00:00.000Z", text := text }

/-- The rest of a `remember` after its read. -/
def writes (p : Nat) : List Op := [.step p true, .step p true]

/-- Two processes remember something. The second reads before the first has written, or after. -/
def twoRemember (overlap : Bool) : List Op :=
  [.call 0 (.remember (js "mem_1_a") (note (js "uses pnpm"))), .step 0 true] ++ (if overlap then [] else writes 0) ++
    [.call 1 (.remember (js "mem_2_b") (note (js "uses vitest"))), .step 1 true] ++
    (if overlap then writes 0 else []) ++ writes 1

theorem memories_kept_apart :
    Kept (run (withHistory (step JsString.toLowerCase) (record JsString.toLowerCase)) ({ file := none }, {})
      (twoRemember false)) :=
  memories_kept JsString.toLowerCase none (twoRemember false)
    ⟨trivial, trivial, ⟨by decide +kernel, by decide +kernel⟩, trivial, trivial, trivial,
      ⟨by decide +kernel, by decide +kernel⟩, trivial, trivial⟩

/-- The second process writes what it has read, and the entry of the first is gone. -/
theorem second_write_wins :
    ¬Kept (run (withHistory (step JsString.toLowerCase) (record JsString.toLowerCase)) ({ file := none }, {})
      (twoRemember true)) := by
  intro h
  have hlost : ¬stored (js "mem_1_a") (note (js "uses pnpm")) <:+:
      lines (run (step JsString.toLowerCase) { file := none } (twoRemember true)).text := by decide +kernel
  have hkept := h.1 (js "mem_1_a") (note (js "uses pnpm")) (by decide +kernel) (by decide +kernel)
  rw [run_withHistory] at hkept
  exact hlost hkept

end WrongStack.Memory
