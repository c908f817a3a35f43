import WrongStack.AutoPhase.Lemmas.Calls

/-!
# What starts and stops the calls

`start` and `tick` start a phase only when it is pending and its dependencies have ended, and phases that have
ended stay so. `stop` pauses the phases that are running.
-/

namespace WrongStack.AutoPhase

open Lib Sdd

variable {o : PhaseOrchestratorOptions} {g : PhaseGraph} {w w' : PhaseOrchestrator} {p p' : PhaseNode}
  {id : PhaseId} {i k : Nat} {stage : PhaseStage} {driver : Driver}
  {changed : List PhaseId}

/-- The phase may be started. -/
def Startable (w : PhaseOrchestrator) (id : PhaseId) : Prop := ∀ p, w.graph.phases.get? id = some p →
  p.status ≠ .ready ∧ DepsDone w p

/-! ## Starting a phase -/

theorem at_append_iff {id' : PhaseId} {s : PhaseStage} {j : Nat}
    (hcalls : w'.phaseCalls = w.phaseCalls ++ [{ phaseId := id, stage }]) :
    At w' j id' s ↔ At w j id' s ∨ (j = w.phaseCalls.length ∧ id' = id ∧ s = stage ∧ stage.live = true) := by
  unfold At
  rw [hcalls]
  rcases Nat.lt_trichotomy j w.phaseCalls.length with hlt | heq | hgt
  · rw [List.getElem?_append_left hlt]
    simp [hlt.ne]
  · subst heq
    rw [List.getElem?_concat_length, List.getElem?_eq_none (le_refl _)]
    constructor
    · rintro ⟨hc, hlive⟩
      obtain ⟨rfl, rfl⟩ := PhaseCall.mk.inj (Option.some.inj hc)
      exact .inr ⟨rfl, rfl, rfl, hlive⟩
    · rintro (⟨hc, -⟩ | ⟨-, rfl, rfl, hlive⟩)
      · cases hc
      · exact ⟨rfl, hlive⟩
  · rw [List.getElem?_eq_none (by simp; omega), List.getElem?_eq_none hgt.le]
    simp [hgt.ne']

theorem Tidy.returns (h : Tidy g changed w) (id : PhaseId) : Tidy g changed (w.pushCall id .returned) := by
  have hiff : ∀ {j id' s}, At (w.pushCall id .returned) j id' s ↔ At w j id' s := by
    intro j id' s
    rw [at_append_iff rfl]
    simp [PhaseStage.live]
  refine ⟨?_, ?_, ?_, ?_, ?_, h.deps, h.completed, h.workable, h.ready, h.merges, h.promise,
    h.queue, h.known⟩
  · exact fun j id' s hj => h.calls j id' s (hiff.mp hj)
  · exact fun j j' id' s s' hj hj' => h.alone j j' id' s s' (hiff.mp hj) (hiff.mp hj')
  · exact fun j id' s hj => h.unmerged j id' s (hiff.mp hj)
  · intro id' q hq hstatus
    obtain ⟨hnone, hrest⟩ := h.fresh id' q hq hstatus
    exact ⟨fun j s hj => hnone j s (hiff.mp hj), hrest⟩
  · intro id' hid'
    obtain ⟨j, s, hj, hs⟩ := h.running id' hid'
    exact ⟨j, s, hiff.mpr hj, hs⟩

theorem Tidy.begins (h : Tidy g changed w) (hp : w.graph.phases.get? id = some p) (hs : p.status = .pending)
    (hdeps : DepsDone w p) : Tidy g changed
      ((w.pushCall id .allocate).beginPhase id) := by
  obtain ⟨hnone, hunmerged, hidle⟩ := h.fresh id p hp (.inl hs)
  have hiff : ∀ {j id' s}, At ((w.pushCall id .allocate).beginPhase id) j id' s ↔
      At w j id' s ∨ (j = w.phaseCalls.length ∧ id' = id ∧ s = .allocate) := by
    intro j id' s
    refine (at_append_iff (w := w) rfl).trans ?_
    simp [PhaseStage.live]
  have hmaps : Maps id (fun p => { p with status := .running }) w
      ((w.pushCall id .allocate).beginPhase id) :=
    maps_modify rfl
  have hterm : p.terminal = true → ({ p with status := .running } : PhaseNode).terminal = true := by
    intro ht
    simp [PhaseNode.terminal, hs] at ht
  have honly := hmaps.onlyPhase hp rfl hterm fun hw => hw
  have hother : ∀ {j id' s}, At w j id' s → id' ≠ id := by
    rintro j id' s hj rfl
    exact hnone j s hj
  refine ⟨?_, ?_, ?_, ?_, ?_, ?_, ?_, ?_, ?_, ?_, h.promise, h.queue, h.known⟩
  · intro j id' s hj
    rcases hiff.mp hj with hj | ⟨-, rfl, rfl⟩
    · rw [honly.others id' (hother hj)]
      exact h.calls j id' s hj
    · exact ⟨_, honly.new, .inl rfl, hidle hs⟩
  · intro j j' id' s s' hj hj'
    rcases hiff.mp hj with hj | ⟨rfl, rfl, -⟩ <;> rcases hiff.mp hj' with hj' | ⟨rfl, hid, -⟩
    · exact h.alone j j' id' s s' hj hj'
    · exact absurd hid (hother hj)
    · exact absurd rfl (hother hj')
    · rfl
  · intro j id' s hj
    rcases hiff.mp hj with hj | ⟨-, rfl, -⟩
    · exact h.unmerged j id' s hj
    · exact hunmerged
  · intro id' q hq hstatus
    rcases honly.cases hq with ⟨-, rfl⟩ | ⟨hne, hq⟩
    · simp at hstatus
    · obtain ⟨hnone', hrest⟩ := h.fresh id' q hq hstatus
      refine ⟨fun j s hj => ?_, hrest⟩
      rcases hiff.mp hj with hj | ⟨-, heq, -⟩
      · exact hnone' j s hj
      · exact hne heq
  · intro id' hid'
    have hcases : id' ∈ w.runningPhases ∨ id' = id := by
      unfold PhaseOrchestrator.beginPhase at hid'
      simp only at hid'
      split at hid'
      · exact .inl hid'
      · exact (List.mem_append.mp hid').imp_right List.mem_singleton.mp
    rcases hcases with hmem | rfl
    · obtain ⟨j, s, hj, hs⟩ := h.running id' hmem
      exact ⟨j, s, hiff.mpr (.inl hj), hs⟩
    · exact ⟨_, _, hiff.mpr (.inr ⟨rfl, rfl, rfl⟩), rfl⟩
  · intro id' q hq hstatus
    rcases honly.cases hq with ⟨-, rfl⟩ | ⟨-, hq⟩
    · exact honly.depsDone rfl hdeps
    · exact honly.depsDone rfl (h.deps id' q hq hstatus)
  · intro id' q hq hstatus
    rcases honly.cases hq with ⟨-, rfl⟩ | ⟨-, hq⟩
    · simp at hstatus
    · exact h.completed id' q hq hstatus
  · intro id' p₀ q h₀ hq hw
    rcases honly.cases hq with ⟨rfl, rfl⟩ | ⟨-, hq⟩
    · exact h.workable _ p₀ p h₀ hp hw
    · exact h.workable id' p₀ q h₀ hq hw
  · intro driver hdriver id' hid' q hq
    rcases honly.cases hq with ⟨-, rfl⟩ | ⟨-, hq⟩
    · exact ⟨by simp, honly.depsDone rfl hdeps⟩
    · obtain ⟨hne, hdone⟩ := h.ready driver hdriver id' hid' q hq
      exact ⟨hne, honly.depsDone rfl hdone⟩
  · intro k m hm
    have hne := hunmerged m (List.mem_of_getElem? hm)
    obtain ⟨q, hq, hok⟩ := h.merges k m hm
    exact ⟨q, (honly.others m.phaseId hne).trans hq, hok⟩

theorem Tidy.startPhase (h : Tidy g changed w) (hstart : Startable w id) : Tidy g changed (w.startPhase o id) := by
  unfold PhaseOrchestrator.startPhase
  simp only
  split
  · rename_i hs
    obtain ⟨p, hp, hstatus⟩ : ∃ p, w.graph.phases.get? id = some p ∧ (p.status = .pending ∨ p.status = .ready) := by
      unfold PhaseGraph.statusOf at hs
      rcases hs with hs | hs
      · obtain ⟨p, hp, hs⟩ := Option.map_eq_some_iff.mp hs
        exact ⟨p, hp, .inl hs⟩
      · obtain ⟨p, hp, hs⟩ := Option.map_eq_some_iff.mp hs
        exact ⟨p, hp, .inr hs⟩
    obtain ⟨hne, hdeps⟩ := hstart p hp
    have hpending := hstatus.resolve_right hne
    have hbegun := h.begins hp hpending hdeps
    split
    · exact hbegun
    · have hat : At ((w.pushCall id .allocate).beginPhase id)
          w.phaseCalls.length id .allocate := ⟨List.getElem?_concat_length, rfl⟩
      obtain ⟨q, hq, hbusy, hidle⟩ := hbegun.calls _ _ _ hat
      exact hbegun.nextBatch hat hq hbusy hidle
  · exact h.returns id

/-! ## Drivers -/

theorem nextBatch_withDrivers (w : PhaseOrchestrator) (drivers : List Driver) (i : Nat) (id : PhaseId) :
    PhaseOrchestrator.nextBatch o { w with drivers } i id = { w.nextBatch o i id with drivers } := by
  have hphase : ({ w with drivers } : PhaseOrchestrator).phase id = w.phase id := rfl
  unfold PhaseOrchestrator.nextBatch
  cases hends : (w.phase id).getExecutableTasks.isEmpty || w.stopped with
  | true =>
      simp only [hphase, hends]
      rfl
  | false =>
      simp only [hphase, hends]
      rfl

theorem startPhase_withDrivers (w : PhaseOrchestrator) (drivers : List Driver) (id : PhaseId) :
    PhaseOrchestrator.startPhase o { w with drivers } id = { w.startPhase o id with drivers } := by
  unfold PhaseOrchestrator.startPhase
  simp only
  split
  · split
    · rfl
    · exact nextBatch_withDrivers ((w.pushCall id .allocate).beginPhase id) drivers w.phaseCalls.length id
  · rfl

theorem Tidy.withDrivers {drivers : List Driver} (h : Tidy g changed w)
    (hready : ∀ driver ∈ drivers, ∀ id ∈ driver.ready, Startable w id) : Tidy g changed { w with drivers } :=
  ⟨h.calls, h.alone, h.unmerged, h.fresh, h.running, h.deps, h.completed, h.workable, hready, h.merges, h.promise,
    h.queue, h.known⟩

/-- Starting a phase takes nothing away from the others. -/
theorem Startable.startPhase {id' : PhaseId} (h : Tidy g changed w) (hid : Startable w id) (hid' : Startable w id') :
    Startable (w.startPhase o id) id' := by
  have hready : Tidy g changed { w with drivers := [.waitBefore [id']] } := by
    refine h.withDrivers fun driver hdriver j hj => ?_
    obtain rfl := List.mem_singleton.mp hdriver
    obtain rfl := List.mem_singleton.mp hj
    exact hid'
  have hstarted := hready.startPhase (o := o) hid
  rw [startPhase_withDrivers] at hstarted
  exact hstarted.ready _ (List.mem_singleton_self _) id' (List.mem_singleton_self _)

theorem Tidy.setDriver (h : Tidy g changed w) (k : Nat) (hready : ∀ id ∈ driver.ready, Startable w id) :
    Tidy g changed (w.setDriver k driver) := by
  refine h.withDrivers fun driver' hdriver' => ?_
  rcases List.mem_or_eq_of_mem_set hdriver' with hold | rfl
  · exact h.ready driver' hold
  · exact hready

theorem startable_of_ready (hid : id ∈ w.graph.getReadyPhases) : Startable w id := by
  intro p hp
  unfold PhaseGraph.getReadyPhases at hid
  obtain ⟨e, he, rfl⟩ := List.mem_map.mp hid
  rw [List.mem_insertionSort, List.mem_filter] at he
  obtain ⟨hmem, hcond⟩ := he
  have hget := JsMap.mem_entries_iff.mp (show (e.1, e.2) ∈ w.graph.phases.entries from hmem)
  obtain rfl := Option.some.inj (hget.symm.trans hp)
  simp only [Bool.and_eq_true, beq_iff_eq] at hcond
  exact ⟨by simp [hcond.1], List.all_eq_true.mp hcond.2⟩

theorem Tidy.startLoop (h : Tidy g changed w) (k : Nat) {readyPhases : List PhaseId}
    (hready : ∀ id ∈ readyPhases, Startable w id) : Tidy g changed (w.startLoop k readyPhases) := by
  unfold PhaseOrchestrator.startLoop
  split
  · exact h.setDriver k (by simp [Driver.ready])
  · exact h.setDriver k hready

theorem Tidy.startPhases (h : Tidy g changed w) {batch : List PhaseId} (hbatch : ∀ id ∈ batch, Startable w id) :
    Tidy g changed (w.startPhases o batch) := by
  unfold PhaseOrchestrator.startPhases
  induction batch generalizing w with
  | nil => exact h
  | cons id batch ih =>
      have hid := hbatch id List.mem_cons_self
      exact ih (h.startPhase hid) fun id' hid' => .startPhase h hid (hbatch id' (List.mem_cons_of_mem id hid'))

/-! ## Stopping -/

theorem get?_stop (w : PhaseOrchestrator) (id : PhaseId) : w.stop.graph.phases.get? id =
    if id ∈ w.runningPhases then (w.graph.phases.get? id).map fun p => { p with status := .paused }
    else w.graph.phases.get? id := by
  have hfold : ∀ (ids : List PhaseId) (g : PhaseGraph),
      (ids.foldl (fun g id => g.updatePhaseStatus id .paused) g).phases.get? id =
        if id ∈ ids then (g.phases.get? id).map fun p => { p with status := .paused } else g.phases.get? id := by
    intro ids
    induction ids with
    | nil => simp
    | cons id' ids ih =>
        intro g
        rw [List.foldl_cons, ih]
        have hget : (g.updatePhaseStatus id' .paused).phases.get? id =
            if id' = id then (g.phases.get? id).map fun p => { p with status := .paused } else g.phases.get? id :=
          JsMap.get?_modify ..
        rw [hget]
        by_cases heq : id' = id
        · subst heq
          simp only [↓reduceIte, List.mem_cons, true_or, Option.map_map]
          split <;> rfl
        · simp [heq, Ne.symm heq]
  exact hfold w.runningPhases w.graph

theorem PhaseStage.Fits.pause {stopped : Bool} (h : stage.Fits stopped p) (hworking : stage.working = true) :
    stage.Fits true { p with status := .paused } := by
  cases stage <;> simp_all [PhaseStage.Fits, PhaseStage.working, PhaseStatus.busy]
  all_goals exact ⟨h.2.idle, .inl rfl⟩

theorem WorkedOff.stop {stopped : Bool} {tasks : TaskGraph} (h : WorkedOff stopped tasks) : WorkedOff true tasks :=
  ⟨h.idle, .inl rfl⟩

theorem PhaseStage.Fits.stop {stopped : Bool} (h : stage.Fits stopped p) : stage.Fits true p := by
  cases stage <;> simp_all [PhaseStage.Fits]
  all_goals exact h.2.stop

theorem PhaseStage.Fits.busy {stopped : Bool} (h : stage.Fits stopped p) (hworking : stage.working = true) :
    p.status.busy := by
  cases stage <;> simp_all [PhaseStage.Fits, PhaseStage.working]

theorem Tidy.busy (h : Tidy g changed w) (hid : id ∈ w.runningPhases) (hp : w.graph.phases.get? id = some p) :
    p.status.busy := by
  obtain ⟨i, s, hat, hworking⟩ := h.running id hid
  obtain ⟨q, hq, hfits⟩ := h.calls i id s hat
  obtain rfl := Option.some.inj (hp.symm.trans hq)
  exact hfits.busy hworking

theorem Tidy.stop (h : Tidy g changed w) : Tidy g changed w.stop := by
  have hcases : ∀ {id' q'}, w.stop.graph.phases.get? id' = some q' →
      (id' ∈ w.runningPhases ∧ q'.status = .paused ∧ ∃ q, w.graph.phases.get? id' = some q ∧
        q' = { q with status := .paused }) ∨ (id' ∉ w.runningPhases ∧ w.graph.phases.get? id' = some q') := by
    intro id' q' hq
    rw [get?_stop] at hq
    split at hq
    · rename_i hmem
      obtain ⟨q, hold, rfl⟩ := Option.map_eq_some_iff.mp hq
      exact .inl ⟨hmem, rfl, q, hold, rfl⟩
    · rename_i hnot
      exact .inr ⟨hnot, hq⟩
  have hdone : ∀ {q}, DepsDone w q → DepsDone w.stop q := by
    intro q hq d hd
    have hold := hq d hd
    unfold PhaseGraph.depDone at hold ⊢
    rw [get?_stop]
    split
    · rename_i hmem
      exfalso
      obtain ⟨q, hq', hterm⟩ := (Option.any_eq_true ..).mp hold
      rcases h.busy hmem hq' with hb | hb <;> simp [PhaseNode.terminal, hb] at hterm
    · exact hold
  have hat : ∀ {j id' s}, At w.stop j id' s ↔ At w j id' s := Iff.rfl
  refine ⟨?_, fun j j' id' s s' hj hj' => h.alone j j' id' s s' hj hj', fun j id' s hj => h.unmerged j id' s hj, ?_,
    h.running, ?_, ?_, ?_, ?_, ?_, h.promise, h.queue, h.known⟩
  · intro j id' s hj
    obtain ⟨q, hq, hfits⟩ := h.calls j id' s hj
    rw [get?_stop, hq]
    split
    · rename_i hmem
      obtain ⟨j', s', hj', hworking⟩ := h.running id' hmem
      obtain rfl := h.alone j j' id' s s' hj hj'
      obtain ⟨-, rfl⟩ := PhaseCall.mk.inj (Option.some.inj (hj.1.symm.trans hj'.1))
      exact ⟨_, rfl, hfits.pause hworking⟩
    · exact ⟨q, rfl, hfits.stop⟩
  · intro id' q hq hstatus
    rcases hcases hq with ⟨-, hpaused, -⟩ | ⟨-, hq⟩
    · simp [hpaused] at hstatus
    · exact h.fresh id' q hq hstatus
  · intro id' q hq hstatus
    rcases hcases hq with ⟨-, hpaused, -⟩ | ⟨-, hq⟩
    · simp [hpaused] at hstatus
    · exact hdone (h.deps id' q hq hstatus)
  · intro id' q hq hstatus hinit
    rcases hcases hq with ⟨-, hpaused, -⟩ | ⟨-, hq⟩
    · simp [hpaused] at hstatus
    · exact (h.completed id' q hq hstatus hinit).stop
  · intro id' p₀ q h₀ hq hw
    rcases hcases hq with ⟨-, -, r, hr, rfl⟩ | ⟨-, hq⟩
    · exact h.workable id' p₀ r h₀ hr hw
    · exact h.workable id' p₀ q h₀ hq hw
  · intro driver hdriver id' hid' q hq
    rcases hcases hq with ⟨-, hpaused, r, hr, rfl⟩ | ⟨-, hq⟩
    · exact ⟨by simp, fun d hd => hdone (h.ready driver hdriver id' hid' r hr).2 d hd⟩
    · obtain ⟨hne, hd⟩ := h.ready driver hdriver id' hid' q hq
      exact ⟨hne, hdone hd⟩
  · intro k m hm
    obtain ⟨q, hq, hok⟩ := h.merges k m hm
    refine ⟨q, ?_, hok⟩
    rw [get?_stop, if_neg, hq]
    intro hmem
    obtain ⟨j, s, hj, -⟩ := h.running m.phaseId hmem
    exact h.unmerged j m.phaseId s hj m (List.mem_of_getElem? hm) rfl

theorem Tidy.tickLoop (h : Tidy g changed w) (k : Nat) {rest : List PhaseId} (hrest : ∀ id ∈ rest, Startable w id) :
    Tidy g changed (w.tickLoop o k rest) := by
  induction rest with
  | nil =>
      unfold PhaseOrchestrator.tickLoop PhaseOrchestrator.endTick
      split
      · exact h.stop.setDriver k (by simp [Driver.ready])
      · exact h.setDriver k (by simp [Driver.ready])
  | cons id rest ih =>
      have hid := hrest id List.mem_cons_self
      unfold PhaseOrchestrator.tickLoop
      split
      · exact (h.startPhase hid).setDriver k fun id' hid' => .startPhase h hid (hrest id' (List.mem_cons_of_mem id hid'))
      · exact ih fun id' hid' => hrest id' (List.mem_cons_of_mem id hid')

theorem Tidy.tick (h : Tidy g changed w) (onTickThrows : Bool) : Tidy g changed (w.tick o onTickThrows) := by
  unfold PhaseOrchestrator.tick
  split
  · exact h
  · have hpushed : Tidy g changed { w with drivers := w.drivers ++ [Driver.returned] } := by
      refine h.withDrivers fun driver hdriver => ?_
      rcases List.mem_append.mp hdriver with hold | hnew
      · exact h.ready driver hold
      · obtain rfl := List.mem_singleton.mp hnew
        simp [Driver.ready]
    exact hpushed.tickLoop _ fun id hid => startable_of_ready (w := w) (List.mem_of_mem_take hid)

theorem Tidy.resumeDriver (h : Tidy g changed w) (hk : w.drivers[k]? = some driver) : Tidy g changed (w.resumeDriver o k driver) := by
  have hready := h.ready driver (List.mem_of_getElem? hk)
  cases driver with
  | waitBefore readyPhases =>
      simp only [PhaseOrchestrator.resumeDriver]
      split
      · exact h.startLoop k (by simp)
      · split
        · exact h
        · refine (h.startPhases fun id hid => ?_).setDriver k (by simp [Driver.ready])
          exact hready id (List.mem_of_mem_take hid)
  | phases calls =>
      simp only [PhaseOrchestrator.resumeDriver]
      split
      · exact h.setDriver k (by simp [Driver.ready])
      · split
        · refine h.setDriver k ?_
          split <;> simp [Driver.ready]
        · exact h
  | delay => exact h.setDriver k (by simp [Driver.ready])
  | waitAfter =>
      simp only [PhaseOrchestrator.resumeDriver]
      split
      · exact h
      · exact h.startLoop k fun id hid => startable_of_ready (List.mem_filter.mp hid).1
  | drainMerges awaited =>
      simp only [PhaseOrchestrator.resumeDriver]
      split
      · exact h.setDriver k (by simp [Driver.ready])
      · exact h
  | drainQueue tail =>
      simp only [PhaseOrchestrator.resumeDriver]
      split
      · exact h.setDriver k (by simp [Driver.ready])
      · exact h
  | tick call rest =>
      simp only [PhaseOrchestrator.resumeDriver]
      split
      · exact h.setDriver k (by simp [Driver.ready])
      · split
        · exact h.tickLoop k hready
        · exact h
  | returned | rejected => exact h

end WrongStack.AutoPhase
