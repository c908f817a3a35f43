import WrongStack.AutoPhase.Lemmas.Merges
import WrongStack.AutoPhase.Lemmas.Steps

/-!
# One run

From the start on, every step keeps a run tidy.
-/

namespace WrongStack.AutoPhase

open Lib Sdd

variable {o : PhaseOrchestratorOptions} {g : PhaseGraph} {w : PhaseOrchestrator} {changed : List PhaseId}

/-- Nobody starts the orchestrator once more or puts a task back. -/
def Op.goesOn : Op → Bool
  | .start | .requeueTask _ => false
  | _ => true

/-- The phases whose squash has had changes, after a step. -/
def changedBy (changed : List PhaseId) (w : PhaseOrchestrator) : Op → List PhaseId
  | .merge k a => (w.merges[k]?).elim changed fun m => squashedBy changed m.phaseId a m.stage
  | _ => changed

theorem normalizePhase_pending {p : PhaseNode} (hs : (PhaseGraph.normalizePhase p).status = .pending) :
    Idle (PhaseGraph.normalizePhase p).taskGraph := by
  rw [normalizePhase_status] at hs
  unfold PhaseGraph.normalizePhase
  by_cases hrunning : p.status = .running
  · simp only [hrunning, ↓reduceIte]
    exact idle_resetTasks _
  · rw [if_neg hrunning] at hs
    simp only [hs, reduceCtorEq, ↓reduceIte]
    exact idle_resetTasks p

theorem Workable.normalizePhase {p : PhaseNode} (h : Workable p.taskGraph) :
    Workable (PhaseGraph.normalizePhase p).taskGraph := by
  unfold PhaseGraph.normalizePhase
  split
  · simp only [↓reduceIte]
    exact Workable.resetTasks (p := { p with status := .pending }) h
  · simp only
    split
    · exact h.resetTasks
    · exact h

theorem tidy_normalizeForResume (g : PhaseGraph) (drivers : List Driver) (hready : ∀ d ∈ drivers, d.ready = []) :
    Tidy g [] { graph := g.normalizeForResume, drivers := drivers } := by
  have hold : ∀ id p, g.normalizeForResume.phases.get? id = some p → ∃ p₀, g.phases.get? id = some p₀ ∧
      PhaseGraph.normalizePhase p₀ = p := by
    intro id p hp
    rw [get?_normalizeForResume] at hp
    exact Option.map_eq_some_iff.mp hp
  have hat : ∀ {i id stage}, ¬ At { graph := g.normalizeForResume, drivers := drivers } i id stage := by
    rintro i id stage ⟨hi, -⟩
    simp at hi
  have hmerge : ∀ {m : Merge}, m ∉ ([] : List Merge) := List.not_mem_nil
  refine ⟨fun _ _ _ h => absurd h hat, fun _ _ _ _ _ h => absurd h hat, fun _ _ _ h => absurd h hat, ?_, ?_, ?_, ?_,
    ?_, ?_, ?_, ?_, ?_, ?_⟩
  · intro id p hp _
    obtain ⟨p₀, -, rfl⟩ := hold id p hp
    exact ⟨fun _ _ => hat, fun _ hm => absurd hm hmerge, normalizePhase_pending⟩
  · exact fun _ hid => absurd hid List.not_mem_nil
  · intro id p hp hrunning
    obtain ⟨p₀, -, rfl⟩ := hold id p hp
    rw [normalizePhase_status] at hrunning
    split at hrunning
    · cases hrunning
    · contradiction
  · intro id p hp hcompleted hnew
    obtain ⟨p₀, hp₀, rfl⟩ := hold id p hp
    rw [normalizePhase_status] at hcompleted
    split at hcompleted
    · cases hcompleted
    · exact absurd (by rw [PhaseGraph.statusOf, hp₀, Option.map_some, hcompleted]) hnew
  · intro id p₀ p hp₀ hp hw
    obtain ⟨p₁, hp₁, rfl⟩ := hold id p hp
    obtain rfl := Option.some.inj (hp₀.symm.trans hp₁)
    exact hw.normalizePhase
  · intro d hd id hid
    rw [hready d hd] at hid
    cases hid
  · intro k m hm
    simp at hm
  · intro k m hm
    simp at hm
  · refine ⟨List.nodup_nil, fun k => ?_, List.Pairwise.nil, fun k id behind hm => ?_⟩
    · simp
    · simp at hm
  · exact fun _ hid => absurd hid List.not_mem_nil

theorem tidy_start (g : PhaseGraph) : Tidy g [] (PhaseOrchestrator.start { graph := g }) := by
  have h := tidy_normalizeForResume g [.returned] (by simp [Driver.ready])
  exact h.startLoop 0 fun id hid => startable_of_ready hid

theorem Tidy.pause {paused : Bool} (h : Tidy g changed w) : Tidy g changed { w with paused := paused } :=
  h.same rfl rfl rfl rfl rfl rfl

theorem Tidy.step {op : Op} (h : Tidy g changed w) (hop : op.goesOn = true) :
    Tidy g (changedBy changed w op) (w.step o op) := by
  cases op with
  | start => cases hop
  | requeueTask => cases hop
  | tick onTickThrows => exact h.tick onTickThrows
  | pause => exact h.pause
  | resume onTickThrows => exact h.pause.tick onTickThrows
  | stop => exact h.stop
  | phaseCall i a =>
      simp only [PhaseOrchestrator.step, changedBy]
      split
      · exact h
      · rename_i hi
        exact h.resumeCall hi
  | merge k a =>
      simp only [PhaseOrchestrator.step, changedBy]
      split
      · rename_i hk
        rw [hk]
        exact h
      · rename_i hk
        rw [hk]
        exact h.resumeMerge hk
  | driver k =>
      simp only [PhaseOrchestrator.step, changedBy]
      split
      · exact h
      · rename_i hk
        exact h.resumeDriver hk

end WrongStack.AutoPhase

/-!
# What a phase graph promises
-/

namespace WrongStack.AutoPhase

open Lib Sdd

/-! ## The lists -/

/-- The lists are right in every state of a run exactly if each of its steps is one that keeps them. -/
theorem lists_consistent_iff (o : PhaseOrchestratorOptions) (g : PhaseGraph) (ops : List Op) (h : Consistent g) :
    (∀ pre, pre <+: ops → Consistent (run (PhaseOrchestrator.step o) { graph := g } pre).graph) ↔
      Under (PhaseOrchestrator.step o) (Keeps o) { graph := g } ops :=
  forall_prefix_iff_under (I := fun _ => True) (J := fun w : PhaseOrchestrator => Consistent w.graph) (fun _ _ _ => trivial)
    (fun _ op _ hw => consistent_step hw op) trivial h ops

/-- One phase with one task. -/
def oneTask : PhaseGraph :=
  { phases := JsMap.empty.set 0 { taskGraph := { nodes := JsMap.empty.set 0 { status := .pending } } } }

theorem consistent_oneTask : Consistent oneTask := by
  have hempty : ∀ t, t ≠ PhaseStatus.pending → Lists oneTask.statusOf [] t := by
    intro t ht
    refine ⟨List.nodup_nil, fun id => iff_of_false List.not_mem_nil fun hs => ?_⟩
    unfold PhaseGraph.statusOf oneTask at hs
    rw [JsMap.get?_set] at hs
    split at hs
    · exact ht (Option.some.inj hs).symm
    · cases hs
  exact ⟨hempty _ (by decide), hempty _ (by decide), hempty _ (by decide)⟩

theorem lists_consistent_oneTask :
    (∀ pre, pre <+: [Op.start, .driver 0, .pause] →
        Consistent (run (PhaseOrchestrator.step {}) { graph := oneTask } pre).graph) ↔
      Under (PhaseOrchestrator.step {}) (Keeps {}) { graph := oneTask } [.start, .driver 0, .pause] :=
  lists_consistent_iff {} oneTask _ consistent_oneTask

/-- The only task fails with no retries left, and so its phase: `tick` never sees it. -/
theorem failed_unlisted : ¬ ∀ pre, pre <+: [Op.start, .driver 0, .phaseCall 0 {}, .phaseCall 0 {}] →
    Consistent (run (PhaseOrchestrator.step { maxRetries := 0, stopOnFailure := true }) { graph := oneTask } pre).graph := by
  intro h
  have hfailed := ((h _ (List.prefix_refl _)).failed.mem 0).mpr (by decide +kernel)
  exact absurd hfailed (by decide +kernel)

/-! ## One run -/

/-- Once it has been started, with the phases whose squash has had changes. -/
def started (o : PhaseOrchestratorOptions) (g : PhaseGraph) (ops : List Op) : PhaseOrchestrator × List PhaseId :=
  run (withHistory (PhaseOrchestrator.step o) changedBy) (PhaseOrchestrator.start { graph := g }, []) ops

/-- The run has completed the phase. -/
structure Completed (g : PhaseGraph) (w : PhaseOrchestrator) (id : PhaseId) (p : PhaseNode) : Prop where
  phase : w.graph.phases.get? id = some p
  status : p.status = .completed
  new : g.statusOf id ≠ some .completed

/-- A phase of the run that is completed is worked off, and its settled merge has landed or is parked; a phase
runs only when what it depends on has ended, and merges go one by one, dependencies first. -/
structure Ordered (g : PhaseGraph) (changed : List PhaseId) (w : PhaseOrchestrator) : Prop where
  idle : ∀ id p, Completed g w id p → Idle p.taskGraph
  spent : ∀ id p, Completed g w id p → w.stopped = false → Spent p.taskGraph
  finished : ∀ id p, Completed g w id p → w.stopped = false → ∀ p₀, g.phases.get? id = some p₀ →
    Workable p₀.taskGraph → ∀ t s, p.taskGraph.statusOf t = some s → s = .completed ∨ s = .failed
  settled : ∀ m ∈ w.merges, m.stage.isSettled = true → ∃ p, w.graph.phases.get? m.phaseId = some p ∧
    (p.status = .failed ∨ p.status = .completed ∧
      (p.integrationStatus = some .merged ∧ (m.phaseId ∈ changed → InBase w.repo m.phaseId) ∨
        p.integrationStatus = some .needsReview))
  deps : ∀ id p, w.graph.phases.get? id = some p → p.status = .running → DepsDone w p
  earlier : ∀ (k k' : Nat) (m m' : Merge) (p : PhaseNode), k' < k → w.merges[k]? = some m →
    w.merges[k']? = some m' → m.stage.chained = true → w.graph.phases.get? m.phaseId = some p →
    m'.phaseId ∈ p.dependsOn → m'.stage.isSettled = true
  alone : ∀ (k k' : Nat) (m m' : Merge), w.merges[k]? = some m → w.merges[k']? = some m' →
    m.stage.begun = true → m'.stage.begun = true → m.stage.isSettled = false → m'.stage.isSettled = false → k = k'

theorem Tidy.ordered {g : PhaseGraph} {changed : List PhaseId} {w : PhaseOrchestrator} (h : Tidy g changed w) :
    Ordered g changed w := by
  have hworked : ∀ {id p}, Completed g w id p → WorkedOff w.stopped p.taskGraph := fun hc =>
    h.completed _ _ hc.phase hc.status hc.new
  have hspent : ∀ {id p}, Completed g w id p → w.stopped = false → Spent p.taskGraph := by
    intro id p hc hrunning
    rcases (hworked hc).spent with hstopped | hspent
    · rw [hrunning] at hstopped
      cases hstopped
    · exact hspent
  refine ⟨fun _ _ hc => (hworked hc).idle, fun _ _ => hspent, ?_, ?_, h.deps, ?_, ?_⟩
  · intro id p hc hrunning p₀ hp₀ hworkable t s ht
    exact (h.workable id p₀ p hp₀ hc.phase hworkable).finished (hworked hc).idle (hspent hc hrunning) ht
  · intro m hm hsettled
    obtain ⟨k, hk⟩ := List.mem_iff_getElem?.mp hm
    obtain ⟨p, hp, hok⟩ := h.merges k m hk
    refine ⟨p, hp, ?_⟩
    have hfits := hok.fits
    have hlanded := hok.landed
    cases hs : m.stage with
    | settled rejected =>
        rw [hs] at hfits hlanded
        rcases hfits with hfailed | ⟨hcompleted, hmerged | hparked⟩
        · exact .inl hfailed
        · exact .inr ⟨hcompleted, .inl ⟨hmerged, hlanded rfl hmerged⟩⟩
        · exact .inr ⟨hcompleted, .inr hparked⟩
    | _ =>
        rw [hs] at hsettled
        cases hsettled
  · intro k k' m m' p hlt hm hm' hchained hp hdep
    obtain ⟨p', hp', hok⟩ := h.merges k m hm
    obtain rfl := Option.some.inj (hp.symm.trans hp')
    exact hok.ordered hchained k' m' hlt hm' hdep
  · intro k k' m m' hm hm' hb hb' ho ho'
    exact h.queue.one hm hm' hb hb' ho ho'

/-- In every state of a run in which nobody starts the orchestrator once more or puts a task back. -/
theorem completed_ordered (o : PhaseOrchestratorOptions) (g : PhaseGraph) (ops : List Op)
    (h : ∀ op ∈ ops, op.goesOn = true) : Ordered g (started o g ops).2 (started o g ops).1 := by
  have hrun : Tidy g (started o g ops).2 (started o g ops).1 := by
    refine run_invariant_under (I := fun s : PhaseOrchestrator × List PhaseId => Tidy g s.2 s.1)
      (C := fun _ op => op.goesOn = true) (fun _ _ hs hop => hs.step hop) (tidy_start g) ?_
    exact under_iff_forall_concat.mpr fun pre op hpre => h op (hpre.mem (by simp))
  exact hrun.ordered

theorem completed_ordered_oneTask : Ordered oneTask (started { worktrees := true } oneTask [.driver 0, .phaseCall 0 {}]).2
    (started { worktrees := true } oneTask [.driver 0, .phaseCall 0 {}]).1 :=
  completed_ordered { worktrees := true } oneTask _ (by decide)

/-- A completed phase has no task to do, its settled merge has landed, and a phase runs only when the merges of what
it depends on have. -/
structure Integrated (g : PhaseGraph) (changed : List PhaseId) (w : PhaseOrchestrator) : Prop where
  finished : ∀ id p, Completed g w id p → ∀ t s, p.taskGraph.statusOf t = some s →
    s ≠ .pending ∧ s ≠ .blocked ∧ s ≠ .inProgress
  landed : ∀ m ∈ w.merges, m.stage.isSettled = true → ∀ p, w.graph.phases.get? m.phaseId = some p →
    p.status = .completed → p.integrationStatus = some .merged ∧ (m.phaseId ∈ changed → InBase w.repo m.phaseId)
  forked : ∀ id p, w.graph.phases.get? id = some p → p.status = .running → ∀ d ∈ p.dependsOn,
    w.graph.statusOf d = some .completed → ∃ m ∈ w.merges, m.phaseId = d ∧ m.stage.isSettled = true

/-- Two phases without tasks, the second one after the first. -/
def twoPhases : PhaseGraph := { phases := (JsMap.empty.set 0 {}).set 1 { dependsOn := [0] } }

/-- The second phase has its worktree while the merge of the first one has not begun. -/
def forksEarly : List Op :=
  [.driver 0, .phaseCall 0 {}, .phaseCall 0 {}, .phaseCall 0 {}, .phaseCall 0 {}, .driver 0, .driver 0, .driver 0,
    .phaseCall 1 {}]

/-- The squash of the only phase conflicts. -/
def conflicts : List Op :=
  [.driver 0, .phaseCall 0 {}, .phaseCall 0 {}, .phaseCall 0 {}, .phaseCall 0 {}, .merge 0 {}, .merge 0 {},
    .merge 0 {}, .merge 0 { git := { conflict := true } }, .merge 0 {}, .merge 0 {}, .merge 0 {}]

/-- The only task is pending when `stop` comes. -/
def stopsEarly : List Op := [.driver 0, .stop, .phaseCall 0 {}, .phaseCall 0 {}, .phaseCall 0 {}]

theorem not_integrated :
    ¬ Integrated twoPhases (started { worktrees := true } twoPhases forksEarly).2
        (started { worktrees := true } twoPhases forksEarly).1 ∧
      ¬ Integrated { phases := JsMap.empty.set 0 {} }
        (started { worktrees := true } { phases := JsMap.empty.set 0 {} } conflicts).2
        (started { worktrees := true } { phases := JsMap.empty.set 0 {} } conflicts).1 ∧
      ¬ Integrated oneTask (started { worktrees := true } oneTask stopsEarly).2
        (started { worktrees := true } oneTask stopsEarly).1 := by
  refine ⟨fun h => ?_, fun h => ?_, fun h => ?_⟩
  · have hstatus : (started { worktrees := true } twoPhases forksEarly).1.graph.statusOf 1 = some .running := by
      decide +kernel
    have hdeps : ((started { worktrees := true } twoPhases forksEarly).1.graph.phases.get? 1).map PhaseNode.dependsOn =
        some [0] := by decide +kernel
    obtain ⟨p, hp, hs⟩ := Option.map_eq_some_iff.mp hstatus
    obtain ⟨p', hp', hd⟩ := Option.map_eq_some_iff.mp hdeps
    obtain rfl := Option.some.inj (hp.symm.trans hp')
    obtain ⟨m, hm, -, hsettled⟩ := h.forked 1 p hp hs 0 (by simp [hd]) (by decide +kernel)
    have hnone : ∀ m ∈ (started { worktrees := true } twoPhases forksEarly).1.merges, m.stage.isSettled = false := by
      decide +kernel
    rw [hnone m hm] at hsettled
    cases hsettled
  · have hstatus : (started { worktrees := true } { phases := JsMap.empty.set 0 {} } conflicts).1.graph.statusOf 0 =
        some .completed := by decide +kernel
    have hparked : ((started { worktrees := true } { phases := JsMap.empty.set 0 {} } conflicts).1.graph.phases.get?
        0).bind PhaseNode.integrationStatus = some .needsReview := by decide +kernel
    obtain ⟨p, hp, hs⟩ := Option.map_eq_some_iff.mp hstatus
    have hmerge : { phaseId := 0, stage := .settled false } ∈
        (started { worktrees := true } { phases := JsMap.empty.set 0 {} } conflicts).1.merges := by decide +kernel
    have hmerged := (h.landed _ hmerge rfl p hp hs).1
    rw [hp, Option.bind_some, hmerged] at hparked
    cases hparked
  · have hstatus : (started { worktrees := true } oneTask stopsEarly).1.graph.statusOf 0 = some .completed := by
      decide +kernel
    have htask : ((started { worktrees := true } oneTask stopsEarly).1.graph.phases.get? 0).bind
        (fun p => p.taskGraph.statusOf 0) = some .pending := by decide +kernel
    obtain ⟨p, hp, hs⟩ := Option.map_eq_some_iff.mp hstatus
    rw [hp, Option.bind_some] at htask
    exact (h.finished 0 p ⟨hp, hs, by decide +kernel⟩ 0 _ htask).1 rfl

end WrongStack.AutoPhase
