import WrongStack.AutoPhase.Lemmas.Cap

/-!
# How many phases run at once

The number of running phases stays within its limit exactly as long as whoever starts phases from a list that was
made earlier finds room for them.
-/

namespace WrongStack.AutoPhase

open Lib Sdd

variable {o : PhaseOrchestratorOptions} {w : PhaseOrchestrator} {g : PhaseGraph} {id : PhaseId} {op : Op}
  {ids : List PhaseId}

namespace PhaseOrchestrator

/-- There is room for the phases that the step starts from a list that was made before an `await`: for the batch of
`start`, and for the next phase of a tick that has waited for the one before. -/
def Room (o : PhaseOrchestratorOptions) (w : PhaseOrchestrator) : Op → Prop
  | .driver k =>
      match w.drivers[k]? with
      | some (.waitBefore readyPhases) => w.stopped = false → w.paused = false →
          w.running + w.toStart (readyPhases.take o.maxConcurrentPhases) ≤ o.maxConcurrentPhases
      | some (.tick call rest) => w.callRejected call = false → w.callReturned call = true →
          (∃ id ∈ rest, w.graph.statusOf id = some .pending) → w.running < o.maxConcurrentPhases
      | _ => True
  | _ => True

/-- `start` is not called while a phase that has been started is running. -/
def Quiet (w : PhaseOrchestrator) : Op → Prop
  | .start => ∀ id ∈ w.runningPhases, w.graph.statusOf id ≠ some .running
  | _ => True

/-- The phase that the board puts back. -/
def requeued (w : PhaseOrchestrator) : Op → Option PhaseId
  | .requeueTask t => (w.graph.findPhaseOfTask t).filter fun id =>
      w.graph.statusOf id == some .completed || w.graph.statusOf id == some .failed ||
        w.graph.statusOf id == some .paused
  | _ => none

/-- A step, with the list of the phases that have been started and not put back since. -/
def watch (o : PhaseOrchestratorOptions) (s : PhaseOrchestrator × List PhaseId) (op : Op) :
    PhaseOrchestrator × List PhaseId :=
  (s.1.step o op, s.2.filter (fun id => s.1.requeued op != some id) ++ s.1.startedBy (s.1.step o op))

end PhaseOrchestrator

open PhaseOrchestrator

/-! ## Kinds of steps -/

/-- A tick makes its list when it comes, so there is room for its first phase. -/
theorem tick_cases (w : PhaseOrchestrator) (onTickThrows : Bool) :
    (∃ id, w.running < o.maxConcurrentPhases ∧ Starts w (w.tick o onTickThrows) [id]) ∨
      Settles w (w.tick o onTickThrows) := by
  unfold PhaseOrchestrator.tick
  split
  · exact .inr (.refl w)
  · simp only
    rcases tickLoop_cases (o := o) { w with drivers := w.drivers ++ [Driver.returned] } w.drivers.length
      (w.graph.getReadyPhases.take (o.maxConcurrentPhases - w.graph.getActivePhases.length)) with
      ⟨id, hid, -, hstart⟩ | ⟨-, hsettles⟩
    · refine .inl ⟨id, ?_, hstart.status, hstart.unstarted, hstart.nodup, hstart.inFlight, hstart.calls⟩
      have hpos := List.length_pos_of_mem hid
      rw [List.length_take] at hpos
      unfold PhaseOrchestrator.running
      omega
    · exact .inr ⟨hsettles.running, hsettles.unstarted, hsettles.inFlight, hsettles.calls⟩

theorem resumeDriver_cases (w : PhaseOrchestrator) (k : Nat) (driver : Driver) :
    (∃ ready ids, driver = .waitBefore ready ∧ w.stopped = false ∧ w.paused = false ∧
        Starts w (w.resumeDriver o k driver) ids ∧ ids.length = w.toStart (ready.take o.maxConcurrentPhases)) ∨
      (∃ call rest id, driver = .tick call rest ∧ w.callRejected call = false ∧ w.callReturned call = true ∧
        id ∈ rest ∧ w.graph.statusOf id = some .pending ∧ Starts w (w.resumeDriver o k driver) [id]) ∨
      Settles w (w.resumeDriver o k driver) ∧
        (∀ ready, driver = .waitBefore ready → ¬ (w.stopped = false ∧ w.paused = false)) ∧
        ∀ call rest, driver = .tick call rest → w.callRejected call = false → w.callReturned call = true →
          ∀ id ∈ rest, w.graph.statusOf id ≠ some .pending := by
  have hother (h : Settles w (w.resumeDriver o k driver)) (hbefore : ∀ ready, driver ≠ .waitBefore ready)
      (htick : ∀ call rest, driver ≠ .tick call rest) : Settles w (w.resumeDriver o k driver) ∧
        (∀ ready, driver = .waitBefore ready → ¬ (w.stopped = false ∧ w.paused = false)) ∧
        ∀ call rest, driver = .tick call rest → w.callRejected call = false → w.callReturned call = true →
          ∀ id ∈ rest, w.graph.statusOf id ≠ some .pending :=
    ⟨h, fun ready heq => absurd heq (hbefore ready), fun call rest heq => absurd heq (htick call rest)⟩
  cases driver with
  | waitBefore ready =>
      by_cases hstopped : w.stopped = true
      · refine .inr (.inr ⟨?_, fun _ _ h => ?_, fun _ _ h => nomatch h⟩)
        · simp only [PhaseOrchestrator.resumeDriver, if_pos hstopped]
          exact settles_startLoop w k []
        · rw [hstopped] at h
          cases h.1
      · by_cases hpaused : w.paused = true
        · refine .inr (.inr ⟨?_, fun _ _ h => ?_, fun _ _ h => nomatch h⟩)
          · simp only [PhaseOrchestrator.resumeDriver, if_neg hstopped, if_pos hpaused]
            exact .refl w
          · rw [hpaused] at h
            cases h.2
        · obtain ⟨ids, hids, hmem⟩ := starts_startPhases (o := o) (ready.take o.maxConcurrentPhases) w
          refine .inl ⟨ready, ids, rfl, by simpa using hstopped, by simpa using hpaused, ?_, ?_⟩
          · simp only [PhaseOrchestrator.resumeDriver, if_neg hstopped, if_neg hpaused]
            exact hids.setDriver k _
          · refine ((List.perm_ext_iff_of_nodup hids.nodup (List.nodup_dedup _)).mpr fun id => ?_).length_eq
            rw [hmem, List.mem_dedup, List.mem_filter]
  | tick call rest =>
      simp only [PhaseOrchestrator.resumeDriver]
      by_cases hrejected : w.callRejected call = true
      · refine .inr (.inr ⟨?_, fun _ h => (nomatch h), fun _ _ h hnot => ?_⟩)
        · rw [if_pos hrejected]
          exact (Settles.refl w).setDriver k _
        · cases h
          rw [hrejected] at hnot
          cases hnot
      · rw [if_neg hrejected]
        by_cases hreturned : w.callReturned call = true
        · rw [if_pos hreturned]
          rcases tickLoop_cases (o := o) w k rest with ⟨id, hid, hpending, hstart⟩ | ⟨hnone, hsettles⟩
          · exact .inr (.inl ⟨call, rest, id, rfl, by simpa using hrejected, hreturned, hid, hpending, hstart⟩)
          · refine .inr (.inr ⟨hsettles, fun _ h => (nomatch h), fun _ _ h _ _ => ?_⟩)
            cases h
            exact hnone
        · refine .inr (.inr ⟨?_, fun _ h => (nomatch h), fun _ _ h _ hyes => ?_⟩)
          · rw [if_neg hreturned]
            exact .refl w
          · cases h
            exact absurd hyes hreturned
  | phases calls =>
      refine .inr (.inr (hother ?_ (by simp) (by simp)))
      simp only [PhaseOrchestrator.resumeDriver]
      split
      · exact (Settles.refl w).setDriver k _
      · split
        · exact (Settles.refl w).setDriver k _
        · exact .refl w
  | delay => exact .inr (.inr (hother ((Settles.refl w).setDriver k _) (by simp) (by simp)))
  | waitAfter =>
      refine .inr (.inr (hother ?_ (by simp) (by simp)))
      simp only [PhaseOrchestrator.resumeDriver]
      split
      · exact .refl w
      · exact settles_startLoop w k _
  | drainMerges awaited =>
      refine .inr (.inr (hother ?_ (by simp) (by simp)))
      simp only [PhaseOrchestrator.resumeDriver]
      split
      · exact (Settles.refl w).setDriver k _
      · exact .refl w
  | drainQueue tail =>
      refine .inr (.inr (hother ?_ (by simp) (by simp)))
      simp only [PhaseOrchestrator.resumeDriver]
      split
      · exact (Settles.refl w).setDriver k _
      · exact .refl w
  | returned => exact .inr (.inr (hother (.refl w) (by simp) (by simp)))
  | rejected => exact .inr (.inr (hother (.refl w) (by simp) (by simp)))

theorem start_graph (w : PhaseOrchestrator) : w.start.graph = w.graph.normalizeForResume := startLoop_graph _

theorem statusOf_normalizeForResume (g : PhaseGraph) (id : PhaseId) : g.normalizeForResume.statusOf id =
    (g.statusOf id).map fun s => if s = .running then .pending else s := by
  unfold PhaseGraph.statusOf
  rw [get?_normalizeForResume, Option.map_map, Option.map_map]
  exact congrArg (fun f => (g.phases.get? id).map f) (funext normalizePhase_status)

theorem start_not_running (w : PhaseOrchestrator) (id : PhaseId) : w.start.graph.statusOf id ≠ some .running := by
  rw [start_graph, statusOf_normalizeForResume]
  intro h
  obtain ⟨s, -, hs⟩ := Option.map_eq_some_iff.mp h
  split at hs
  · cases hs
  · rename_i hne
    exact hne hs

theorem start_running (w : PhaseOrchestrator) : w.start.running = 0 :=
  List.length_eq_zero_iff.mpr (List.eq_nil_iff_forall_not_mem.mpr fun id hid =>
    start_not_running w id (mem_getActivePhases.mp hid))

/-- A phase that the board puts back is pending, and all else is as it was. -/
theorem requeueTask_cases (w : PhaseOrchestrator) (t : TaskId) :
    (∃ id, w.requeued (.requeueTask t) = some id ∧
        (w.requeueTask t).graph.statusOf = setStatus w.graph.statusOf id .pending ∧
        (w.requeueTask t).runningPhases = w.runningPhases ∧ (w.requeueTask t).phaseCalls = w.phaseCalls) ∨
      w.requeued (.requeueTask t) = none ∧ Settles w (w.requeueTask t) := by
  unfold PhaseOrchestrator.requeueTask
  cases hfind : w.graph.findPhaseOfTask t with
  | none =>
      refine .inr ⟨?_, .refl w⟩
      simp only [PhaseOrchestrator.requeued, hfind]
      rfl
  | some id =>
      have hbook : SameBook w.graph (w.graph.modifyPhase id fun p => p.updateNodeStatus t .pending) :=
        sameBook_updateNodeStatus t .pending
      have hsame := hbook.statusOf
      obtain ⟨p, hp⟩ : ∃ p, w.graph.phases.get? id = some p := by
        unfold PhaseGraph.findPhaseOfTask at hfind
        obtain ⟨e, he, rfl⟩ := Option.map_eq_some_iff.mp hfind
        exact ⟨e.2, JsMap.mem_entries_iff.mp (List.mem_of_find?_eq_some he)⟩
      have hstatus : w.graph.statusOf id = some p.status := by
        unfold PhaseGraph.statusOf
        rw [hp]
        rfl
      have hphase : (PhaseOrchestrator.phase { w with
          taskRetryCounts := w.taskRetryCounts.delete (id, t)
          graph := w.graph.modifyPhase id fun p => p.updateNodeStatus t .pending } id).status = p.status := by
        unfold PhaseOrchestrator.phase PhaseGraph.modifyPhase
        rw [JsMap.get?_modify, if_pos rfl, hp]
        exact updateNodeStatus_status p t _
      simp only [PhaseOrchestrator.modifyPhase, hphase]
      by_cases hs : p.status = .completed ∨ p.status = .failed ∨ p.status = .paused
      · refine .inl ⟨id, ?_, ?_⟩
        · simp only [PhaseOrchestrator.requeued, hfind, Option.filter_some, hstatus]
          exact if_pos (by simpa [or_assoc] using hs)
        · rw [if_pos hs]
          refine ⟨?_, rfl, rfl⟩
          refine Eq.trans ?_ (congrArg (fun f => setStatus f id .pending) hsame)
          exact statusOf_updatePhaseStatus
      · refine .inr ⟨?_, ?_⟩
        · simp only [PhaseOrchestrator.requeued, hfind, Option.filter_some, hstatus]
          exact if_neg (by simpa [or_assoc] using hs)
        · rw [if_neg hs]
          exact .of_same hsame rfl rfl

/-! ## The limit -/

theorem running_step (h : w.running ≤ o.maxConcurrentPhases) (op : Op) :
    (w.step o op).running ≤ o.maxConcurrentPhases ↔ Room o w op := by
  have hsettles {w' : PhaseOrchestrator} (hw : Settles w w') : w'.running ≤ o.maxConcurrentPhases ↔ True :=
    iff_of_true (hw.running_le.trans h) trivial
  have htick (w₀ : PhaseOrchestrator) (hrunning : w₀.running = w.running) (onTickThrows : Bool) :
      (w₀.tick o onTickThrows).running ≤ o.maxConcurrentPhases ↔ True := by
    refine iff_of_true ?_ trivial
    rcases tick_cases (o := o) w₀ onTickThrows with ⟨id, hroom, hstart⟩ | hw
    · rw [hstart.running_eq]
      exact hroom
    · exact hw.running_le.trans (hrunning ▸ h)
  cases op with
  | start =>
      refine iff_of_true ?_ trivial
      rw [PhaseOrchestrator.step, start_running]
      exact Nat.zero_le _
  | tick onTickThrows => exact htick w rfl onTickThrows
  | pause => exact hsettles (.of_same rfl rfl rfl)
  | resume onTickThrows => exact htick { w with paused := false } rfl onTickThrows
  | stop => exact hsettles (settles_stop w)
  | requeueTask t =>
      refine iff_of_true ?_ trivial
      rcases requeueTask_cases w t with ⟨id, -, hstatus, -⟩ | ⟨-, hw⟩
      · refine Nat.le_trans ?_ h
        refine (List.subperm_of_subset (nodup_getActivePhases _) fun id' hid' => ?_).length_le
        rw [mem_getActivePhases] at hid' ⊢
        rw [PhaseOrchestrator.step, hstatus] at hid'
        by_cases heq : id = id'
        · subst heq
          rw [setStatus, if_pos rfl] at hid'
          obtain ⟨-, -, hs⟩ := Option.map_eq_some_iff.mp hid'
          cases hs
        · rwa [setStatus_of_ne heq] at hid'
      · exact hw.running_le.trans h
  | phaseCall i a =>
      simp only [PhaseOrchestrator.step]
      split
      · exact hsettles (.refl w)
      · exact hsettles (settles_resumeCall w i _ a _)
  | merge k a =>
      simp only [PhaseOrchestrator.step]
      split
      · exact hsettles (.refl w)
      · exact hsettles (settles_resumeMerge w k _ a _)
  | driver k =>
      simp only [PhaseOrchestrator.step, Room]
      cases hdriver : w.drivers[k]? with
      | none => exact hsettles (.refl w)
      | some driver =>
          simp only
          rcases resumeDriver_cases (o := o) w k driver with ⟨ready, ids, rfl, hstopped, hpaused, hstart, hlength⟩ |
            ⟨call, rest, id, rfl, hrejected, hreturned, hid, hpending, hstart⟩ | ⟨hw, hbefore, hnext⟩
          · rw [hstart.running_eq, hlength]
            exact ⟨fun hroom _ _ => hroom, fun hroom => hroom hstopped hpaused⟩
          · rw [hstart.running_eq]
            exact ⟨fun hroom _ _ _ => hroom, fun hroom => hroom hrejected hreturned ⟨id, hid, hpending⟩⟩
          · refine (hsettles hw).trans (iff_of_true trivial ?_)
            cases driver with
            | waitBefore ready => exact fun hstopped hpaused => absurd ⟨hstopped, hpaused⟩ (hbefore ready rfl)
            | tick call rest =>
                rintro hrejected hreturned ⟨id, hid, hpending⟩
                exact absurd hpending (hnext call rest rfl hrejected hreturned id hid)
            | _ => trivial

/-! ## Once each -/

/-- Who is on the list has been started and is not to be started. -/
structure Ledger (s : PhaseOrchestrator × List PhaseId) : Prop where
  nodup : s.2.Nodup
  started : ∀ id ∈ s.2, s.1.unstarted id = false
  inFlight : ∀ id ∈ s.2, s.1.graph.statusOf id = some .running → id ∈ s.1.runningPhases

variable {s : PhaseOrchestrator × List PhaseId}

theorem Ledger.settles {w' : PhaseOrchestrator} (h : Ledger s) (hw : Settles s.1 w') :
    Ledger (w', s.2 ++ s.1.startedBy w') := by
  rw [hw.startedBy, List.append_nil]
  refine ⟨h.nodup, fun id hid => ?_, fun id hid hrun => ?_⟩
  · rw [Bool.eq_false_iff]
    intro hunstarted
    have := hw.unstarted id hunstarted
    rw [h.started id hid] at this
    cases this
  · exact hw.inFlight id (h.inFlight id hid (hw.running id hrun)) hrun

theorem Ledger.starts {w' : PhaseOrchestrator} (h : Ledger s) (hw : Starts s.1 w' ids) :
    Ledger (w', s.2 ++ s.1.startedBy w') := by
  rw [hw.startedBy]
  have hdisjoint : ∀ id ∈ s.2, ∀ id' ∈ ids, id ≠ id' := by
    rintro id hid id' hid' rfl
    have := hw.unstarted id hid'
    rw [h.started id hid] at this
    cases this
  refine ⟨List.nodup_append.mpr ⟨h.nodup, hw.nodup, hdisjoint⟩, fun id hid => ?_, fun id hid hrun => ?_⟩
  · rw [Bool.eq_false_iff, Ne, hw.unstarted_iff]
    rintro ⟨hnot, hunstarted⟩
    have := h.started id ((List.mem_append.mp hid).resolve_right hnot)
    rw [hunstarted] at this
    cases this
  · refine hw.inFlight id ((List.mem_append.mp hid).symm.imp_right fun hmem => h.inFlight id hmem ?_)
    have hnot : id ∉ ids := fun hid' => hdisjoint id hmem id hid' rfl
    rwa [hw.status, if_neg hnot] at hrun

theorem ledger_watch (h : Ledger s) (op : Op) (hquiet : Quiet s.1 op) : Ledger (watch o s op) := by
  have hall (hop : s.1.requeued op = none) : s.2.filter (fun id => s.1.requeued op != some id) = s.2 := by
    rw [hop]
    exact List.filter_eq_self.mpr fun _ _ => rfl
  have htick (w : PhaseOrchestrator) (hw : Settles s.1 w) (hcalls : w.phaseCalls = s.1.phaseCalls) (onTickThrows : Bool) :
      Ledger (w.tick o onTickThrows, s.2 ++ s.1.startedBy (w.tick o onTickThrows)) := by
    have hledger := h.settles hw
    rw [hw.startedBy, List.append_nil] at hledger
    have hsame : s.1.startedBy (w.tick o onTickThrows) = w.startedBy (w.tick o onTickThrows) := by
      unfold PhaseOrchestrator.startedBy
      rw [hcalls]
    rw [hsame]
    rcases tick_cases (o := o) w onTickThrows with ⟨id, -, hstart⟩ | hw'
    · exact hledger.starts hstart
    · exact hledger.settles hw'
  unfold PhaseOrchestrator.watch
  cases op with
  | start =>
      rw [hall rfl]
      have hnone : s.1.startedBy s.1.start = [] := by
        unfold PhaseOrchestrator.startedBy PhaseOrchestrator.start PhaseOrchestrator.startLoop
        simp only
        split <;> simp [PhaseOrchestrator.setDriver]
      refine ⟨?_, fun id hid => ?_, fun id _ hrun => absurd hrun (start_not_running s.1 id)⟩
      · rw [PhaseOrchestrator.step, hnone, List.append_nil]
        exact h.nodup
      · rw [PhaseOrchestrator.step, hnone, List.append_nil] at hid
        have hstatus : s.1.start.graph.statusOf id = s.1.graph.statusOf id := by
          rw [start_graph, statusOf_normalizeForResume]
          cases hs : s.1.graph.statusOf id with
          | none => rfl
          | some status =>
              have hnot : status ≠ .running := by
                rintro rfl
                exact hquiet id (h.inFlight id hid hs) hs
              simp [hnot]
        have := h.started id hid
        unfold PhaseOrchestrator.unstarted at this ⊢
        rwa [PhaseOrchestrator.step, hstatus]
  | tick onTickThrows =>
      rw [hall rfl]
      exact htick s.1 (.refl s.1) rfl onTickThrows
  | pause =>
      rw [hall rfl]
      exact h.settles (.of_same rfl rfl rfl)
  | resume onTickThrows =>
      rw [hall rfl]
      exact htick { s.1 with paused := false } (.of_same rfl rfl rfl) rfl onTickThrows
  | stop =>
      rw [hall rfl]
      exact h.settles (settles_stop s.1)
  | requeueTask t =>
      rcases requeueTask_cases s.1 t with ⟨id, hid, hstatus, hrunning, hcalls⟩ | ⟨hnone, hw⟩
      · have hnone : s.1.startedBy (s.1.requeueTask t) = [] := by
          unfold PhaseOrchestrator.startedBy
          rw [hcalls, List.drop_length]
          rfl
        have hother {id' : PhaseId} (hid' : id' ∈ s.2.filter fun id' => s.1.requeued (.requeueTask t) != some id') :
            id' ∈ s.2 ∧ (s.1.requeueTask t).graph.statusOf id' = s.1.graph.statusOf id' := by
          obtain ⟨hmem, hne⟩ := List.mem_filter.mp hid'
          rw [hid] at hne
          refine ⟨hmem, ?_⟩
          rw [hstatus, setStatus_of_ne]
          rintro rfl
          simp at hne
        rw [PhaseOrchestrator.step, hnone, List.append_nil]
        refine ⟨h.nodup.filter _, fun id' hid' => ?_, fun id' hid' hrun => ?_⟩
        · obtain ⟨hmem, hsame⟩ := hother hid'
          have := h.started id' hmem
          unfold PhaseOrchestrator.unstarted at this ⊢
          rwa [hsame]
        · obtain ⟨hmem, hsame⟩ := hother hid'
          rw [hsame] at hrun
          rw [hrunning]
          exact h.inFlight id' hmem hrun
      · rw [hall hnone]
        exact h.settles hw
  | phaseCall i a =>
      rw [hall rfl]
      simp only [PhaseOrchestrator.step]
      split
      · exact h.settles (.refl s.1)
      · exact h.settles (settles_resumeCall s.1 i _ a _)
  | merge k a =>
      rw [hall rfl]
      simp only [PhaseOrchestrator.step]
      split
      · exact h.settles (.refl s.1)
      · exact h.settles (settles_resumeMerge s.1 k _ a _)
  | driver k =>
      rw [hall rfl]
      simp only [PhaseOrchestrator.step]
      split
      · exact h.settles (.refl s.1)
      · rename_i driver _
        rcases resumeDriver_cases (o := o) s.1 k driver with ⟨_, ids, -, -, -, hstart, -⟩ |
          ⟨_, _, id, -, -, -, -, -, hstart⟩ | ⟨hw, -⟩
        · exact h.starts hstart
        · exact h.starts hstart
        · exact h.settles hw

/-! ## Runs -/

theorem run_watch (s : PhaseOrchestrator × List PhaseId) (ops : List Op) :
    (run (watch o) s ops).1 = run (PhaseOrchestrator.step o) s.1 ops := by
  induction ops generalizing s with
  | nil => rfl
  | cons op ops ih => exact ih (watch o s op)

theorem ledger_run (hs : Ledger s) {ops : List Op} (h : Under (PhaseOrchestrator.step o) Quiet s.1 ops) :
    Ledger (run (watch o) s ops) := by
  induction ops generalizing s with
  | nil => exact hs
  | cons op ops ih => exact ih (ledger_watch hs op h.1) h.2

/-- What is promised of a state and the phases that have been started and not put back since: the limit is kept, and no
phase is on the list twice. -/
def Capped (o : PhaseOrchestratorOptions) (s : PhaseOrchestrator × List PhaseId) : Prop :=
  s.1.running ≤ o.maxConcurrentPhases ∧ s.2.Nodup

/-- In a run whose steps all find room and which is not started again over a running phase, the promise holds in every
state. And the room is needed: where the limit holds in every state, every step has found it. -/
theorem capped (o : PhaseOrchestratorOptions) (g : PhaseGraph) (ops : List Op) :
    (Under (PhaseOrchestrator.step o) (fun w op => Room o w op ∧ Quiet w op) (PhaseOrchestrator.start { graph := g }) ops →
        ∀ pre, pre <+: ops → Capped o (run (watch o) (PhaseOrchestrator.start { graph := g }, []) pre)) ∧
      ((∀ pre, pre <+: ops →
          (run (PhaseOrchestrator.step o) (PhaseOrchestrator.start { graph := g }) pre).running ≤ o.maxConcurrentPhases) →
        Under (PhaseOrchestrator.step o) (Room o) (PhaseOrchestrator.start { graph := g }) ops) := by
  have hzero : (PhaseOrchestrator.start { graph := g }).running ≤ o.maxConcurrentPhases := by
    rw [start_running]
    exact Nat.zero_le _
  have hcap := forall_prefix_iff_under (I := fun _ => True) (J := fun w => w.running ≤ o.maxConcurrentPhases) (C := Room o)
    (fun _ _ _ => trivial) (fun _ op _ hw => running_step hw op) trivial hzero ops
  refine ⟨fun h pre hpre => ?_, hcap.mp⟩
  obtain ⟨hroom, hquiet⟩ := under_and.mp h
  refine ⟨?_, ?_⟩
  · rw [run_watch]
    exact hcap.mpr hroom pre hpre
  · obtain ⟨post, rfl⟩ := hpre
    have hledger : Ledger (PhaseOrchestrator.start { graph := g }, []) :=
      ⟨List.nodup_nil, fun _ hid => absurd hid List.not_mem_nil, fun _ hid => absurd hid List.not_mem_nil⟩
    exact (ledger_run hledger ((under_append pre post).mp hquiet).1).nodup

/-- Two phases that can start. -/
def twoReady : PhaseGraph := { phases := (JsMap.empty.set 0 {}).set 1 {} }

theorem room_twoReady : Room {} (PhaseOrchestrator.start { graph := twoReady }) (.driver 0) := by
  have hdriver : (PhaseOrchestrator.start { graph := twoReady }).drivers[0]? = some (.waitBefore [0, 1]) := by
    decide +kernel
  simp only [Room, hdriver]
  decide +kernel

theorem capped_twoReady : (∀ pre, pre <+: [Op.driver 0] →
      Capped {} (run (watch {}) (PhaseOrchestrator.start { graph := twoReady }, []) pre)) ∧
    twoReady.getReadyPhases = [0, 1] :=
  ⟨(capped {} twoReady [.driver 0]).1 ⟨⟨room_twoReady, trivial⟩, trivial⟩, by decide +kernel⟩

/-- A tick starts the first phase, and `start` goes on with the second while that one runs. -/
theorem two_running :
    (run (watch {}) (PhaseOrchestrator.start { graph := twoReady }, [])
      [.pause, .resume false, .driver 0, .driver 0, .driver 0, .driver 0]).1.running = 2 ∧
    ¬ Capped {} (run (watch {}) (PhaseOrchestrator.start { graph := twoReady }, [])
      [.pause, .resume false, .driver 0, .driver 0, .driver 0, .driver 0]) := by
  have htwo : (run (watch {}) (PhaseOrchestrator.start { graph := twoReady }, [])
      [.pause, .resume false, .driver 0, .driver 0, .driver 0, .driver 0]).1.running = 2 := by decide +kernel
  refine ⟨htwo, fun h => ?_⟩
  have := h.1
  rw [htwo] at this
  exact absurd this (by decide)

end WrongStack.AutoPhase
