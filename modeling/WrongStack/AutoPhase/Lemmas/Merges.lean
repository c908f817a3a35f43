import WrongStack.AutoPhase.Lemmas.Drivers
import WrongStack.Worktree.Theorems

/-!
# The merges of one run

The queue lets one merge at a time touch the base, so what a squash has put into the index is there when the
merge commits it.
-/

namespace WrongStack.AutoPhase

open Lib Sdd

variable {o : PhaseOrchestratorOptions} {g : PhaseGraph} {w w' : PhaseOrchestrator} {p p' : PhaseNode}
  {id : PhaseId} {k k' : Nat} {s s' : MergeStage} {changed changed' : List PhaseId} {merges : List Merge}
  {queue : List Nat} {m m' : Merge} {repo repo' : Worktree.Repo} {a : Worktree.Answer}

/-! ## The queue -/

theorem MergeStage.chained_of_begun (h : s.begun = true) : s.chained = true := by
  cases s <;> first | rfl | cases h

theorem MergeStage.begun_of_isSettled (h : s.isSettled = true) : s.begun = true := by
  cases s <;> first | rfl | cases h

/-- When the turn of a merge has come, those before it are settled. -/
theorem Queue.before {front back : List Nat} (h : Queue merges queue) (hq : queue = front ++ k :: back)
    (hm : merges[k]? = some m) (hbegun : m.stage.begun = true) {k' : Nat} (hk' : k' ∈ front)
    (hm' : merges[k']? = some m') : m'.stage.isSettled = true := by
  have hturns := h.turns
  rw [hq, List.pairwise_append] at hturns
  exact hturns.2.2 k' hk' k List.mem_cons_self m' m hm' hm hbegun

theorem Queue.one (h : Queue merges queue) (hm : merges[k]? = some m) (hm' : merges[k']? = some m')
    (hbegun : m.stage.begun = true) (hbegun' : m'.stage.begun = true) (hopen : m.stage.isSettled = false)
    (hopen' : m'.stage.isSettled = false) : k = k' := by
  by_contra hne
  have hk := (h.chained k).mpr ⟨m, hm, MergeStage.chained_of_begun hbegun⟩
  have hk' := (h.chained k').mpr ⟨m', hm', MergeStage.chained_of_begun hbegun'⟩
  obtain ⟨front, back, hq⟩ := List.append_of_mem hk
  have hcases : k' ∈ front ∨ k' ∈ back := by
    rw [hq] at hk'
    simpa [Ne.symm hne] using hk'
  rcases hcases with hfront | hback
  · rw [h.before hq hm hbegun hfront hm'] at hopen'
    cases hopen'
  · have hturns := h.turns
    rw [hq, List.pairwise_append, List.pairwise_cons] at hturns
    rw [hturns.2.1.1 k' hback m m' hm hm' hbegun'] at hopen
    cases hopen

theorem getElem?_set_cases {x y : Merge} (h : (merges.set k x)[k']? = some y) :
    (k' = k ∧ y = x) ∨ (k' ≠ k ∧ merges[k']? = some y) := by
  by_cases heq : k' = k
  · subst heq
    have hlt : k' < merges.length := by
      by_contra hle
      rw [List.getElem?_eq_none (by simpa using hle)] at h
      cases h
    rw [List.getElem?_set_self hlt] at h
    exact .inl ⟨rfl, (Option.some.inj h).symm⟩
  · rw [List.getElem?_set_ne (Ne.symm heq)] at h
    exact .inr ⟨heq, h⟩

theorem getElem?_set_of (hk : merges[k]? = some m) (m' : Merge) : (merges.set k m')[k]? = some m' := by
  obtain ⟨hlt, -⟩ := List.getElem?_eq_some_iff.mp hk
  exact List.getElem?_set_self hlt

theorem Queue.set {front back : List Nat} (h : Queue merges queue) (hk : merges[k]? = some m)
    (hq : queue = front ++ k :: back) (hbegun : m'.stage.begun = true)
    (hmono : m.stage.isSettled = true → m'.stage.isSettled = true)
    (hbefore : ∀ k' ∈ front, ∀ m'', merges[k']? = some m'' → m''.stage.isSettled = true) :
    Queue (merges.set k m') queue := by
  have hmem : k ∈ queue := by
    rw [hq]
    exact List.mem_append_right _ List.mem_cons_self
  have hself := getElem?_set_of hk m'
  have hnot : k ∉ front ∧ k ∉ back := by
    have hnodup := h.nodup
    rw [hq, List.nodup_append, List.nodup_cons] at hnodup
    exact ⟨fun hf => hnodup.2.2 k hf k List.mem_cons_self rfl, hnodup.2.1.1⟩
  refine ⟨h.nodup, fun k' => ?_, ?_, ?_⟩
  · by_cases heq : k' = k
    · subst heq
      exact iff_of_true hmem ⟨m', hself, MergeStage.chained_of_begun hbegun⟩
    · rw [List.getElem?_set_ne (Ne.symm heq)]
      exact h.chained k'
  · have hturns := h.turns
    rw [hq, List.pairwise_append, List.pairwise_cons] at hturns ⊢
    obtain ⟨hfront, ⟨hnext, hback⟩, hcross⟩ := hturns
    have hold : ∀ {j}, j ≠ k → (merges.set k m')[j]? = merges[j]? := fun hne => List.getElem?_set_ne (Ne.symm hne)
    refine ⟨hfront.imp_of_mem ?_, ⟨?_, hback.imp_of_mem ?_⟩, ?_⟩
    · intro i j hi hj hturn n n' hn hn'
      rw [hold fun heq => hnot.1 (heq ▸ hi)] at hn
      rw [hold fun heq => hnot.1 (heq ▸ hj)] at hn'
      exact hturn n n' hn hn'
    · intro j hj n n' hn hn' hb
      rw [hself] at hn
      rw [hold fun heq => hnot.2 (heq ▸ hj)] at hn'
      obtain rfl := Option.some.inj hn
      exact hmono (hnext j hj m n' hk hn' hb)
    · intro i j hi hj hturn n n' hn hn'
      rw [hold fun heq => hnot.2 (heq ▸ hi)] at hn
      rw [hold fun heq => hnot.2 (heq ▸ hj)] at hn'
      exact hturn n n' hn hn'
    · intro i hi j hj n n' hn hn' hb
      have hne : i ≠ k := fun heq => hnot.1 (heq ▸ hi)
      rw [hold hne] at hn
      rcases List.mem_cons.mp hj with rfl | hj
      · exact hbefore i hi n hn
      · rw [hold fun heq => hnot.2 (heq ▸ hj)] at hn'
        exact hcross i hi j (List.mem_cons_of_mem k hj) n n' hn hn' hb
  · intro k' id' behind hm
    rcases getElem?_set_cases hm with ⟨-, rfl⟩ | ⟨-, hm⟩
    · cases hbegun
    · exact h.behind k' id' behind hm

theorem Queue.goes (h : Queue merges queue) (hk : merges[k]? = some m) (hb : m.stage.begun = true)
    (hbegun : m'.stage.begun = true) (hmono : m.stage.isSettled = true → m'.stage.isSettled = true) :
    Queue (merges.set k m') queue := by
  obtain ⟨front, back, hq⟩ := List.append_of_mem ((h.chained k).mpr ⟨m, hk, MergeStage.chained_of_begun hb⟩)
  exact h.set hk hq hbegun hmono fun k' hk' m'' hm'' => h.before hq hk hb hk' hm''

theorem isSettled_of_settled (h : w.settled k = true) (hm : w.merges[k]? = some m) : m.stage.isSettled = true := by
  unfold PhaseOrchestrator.settled at h
  rw [hm] at h
  obtain ⟨id, s⟩ := m
  cases s <;> first | rfl | cases h

/-- The turn of a merge comes when the one before it is settled. -/
theorem Queue.turn {behind : Option Nat} (h : Queue w.merges queue)
    (hk : w.merges[k]? = some { phaseId := id, stage := .queued behind }) (hsettled : behind.all w.settled = true)
    (hbegun : m'.stage.begun = true) : Queue (w.merges.set k m') queue := by
  obtain ⟨front, back, hq, hbehind⟩ := h.behind k id behind hk
  refine h.set hk hq hbegun (by simp [MergeStage.isSettled]) fun k' hk' m'' hm'' => ?_
  obtain ⟨last, hlast⟩ := Option.isSome_iff_exists.mp (List.getLast?_isSome.mpr (List.ne_nil_of_mem hk'))
  rw [hbehind, hlast, Option.all_some] at hsettled
  have hmem : last ∈ queue := by
    rw [hq]
    exact List.mem_append_left _ (List.mem_of_getLast? hlast)
  obtain ⟨n, hn, -⟩ := (h.chained last).mp hmem
  have hsettled' := isSettled_of_settled hsettled hn
  by_cases heq : k' = last
  · subst heq
    obtain rfl := Option.some.inj (hn.symm.trans hm'')
    exact hsettled'
  · have hfront := List.dropLast_append_getLast? last hlast
    have hk'' : k' ∈ front.dropLast := by
      rw [← hfront] at hk'
      simpa [heq] using hk'
    have hq' : queue = front.dropLast ++ last :: (k :: back) := by
      rw [hq]
      conv_lhs => rw [← hfront]
      rw [List.append_assoc]
      rfl
    exact h.before hq' hn (MergeStage.begun_of_isSettled hsettled') hk'' hm''

theorem Queue.joins {awaited : List Nat} (h : Queue merges queue)
    (hk : merges[k]? = some { phaseId := id, stage := .deps awaited }) :
    Queue (merges.set k { phaseId := id, stage := .queued queue.getLast? }) (queue ++ [k]) := by
  have hnot : k ∉ queue := by
    intro hmem
    obtain ⟨m, hm, hc⟩ := (h.chained k).mp hmem
    obtain rfl := Option.some.inj (hk.symm.trans hm)
    cases hc
  have hself := getElem?_set_of hk { phaseId := id, stage := .queued queue.getLast? }
  have hold : ∀ {j}, j ≠ k → (merges.set k { phaseId := id, stage := .queued queue.getLast? })[j]? = merges[j]? :=
    fun hne => List.getElem?_set_ne (Ne.symm hne)
  have hne : ∀ {j}, j ∈ queue → j ≠ k := by
    rintro j hj rfl
    exact hnot hj
  refine ⟨List.nodup_append.mpr ⟨h.nodup, List.nodup_singleton k, ?_⟩, fun j => ?_, ?_, ?_⟩
  · rintro j hj j' hj' rfl
    exact hnot (List.mem_singleton.mp hj' ▸ hj)
  · by_cases heq : j = k
    · subst heq
      exact iff_of_true (by simp) ⟨_, hself, rfl⟩
    · rw [hold heq, ← h.chained j]
      simp [heq]
  · refine List.pairwise_append.mpr ⟨h.turns.imp_of_mem ?_, List.pairwise_singleton .., ?_⟩
    · intro i j hi hj hturn n n' hn hn'
      rw [hold (hne hi)] at hn
      rw [hold (hne hj)] at hn'
      exact hturn n n' hn hn'
    · intro i hi j hj n n' hn hn' hb
      obtain rfl := List.mem_singleton.mp hj
      rw [hself] at hn'
      obtain rfl := Option.some.inj hn'
      cases hb
  · intro j id' behind hm
    rcases getElem?_set_cases hm with ⟨rfl, heq⟩ | ⟨-, hm⟩
    · obtain ⟨-, hstage⟩ := Merge.mk.inj heq
      exact ⟨queue, [], rfl, MergeStage.queued.inj hstage⟩
    · obtain ⟨front, back, hq, hb⟩ := h.behind j id' behind hm
      exact ⟨front, back ++ [k], by simp [hq], hb⟩

/-! ## The base -/

/-- The command puts changes of the branch into the index. -/
def squashes (a : Worktree.Answer) : Worktree.MergeStage → Bool
  | .squash => !a.throws && !a.conflict && a.changes
  | .addResolved _ => !a.throws && a.changes
  | _ => false

/-- The phases whose squash has had changes, after a command of the merge of `id`. -/
def squashed (changed : List PhaseId) (id : PhaseId) (a : Worktree.Answer) (stage : Worktree.MergeStage) :
    List PhaseId :=
  if squashes a stage then id :: changed else changed

theorem InBase.commit {x : PhaseId} (h : InBase repo x) (id : PhaseId) : InBase (repo.commit id) x := by
  obtain ⟨c, hc, hx⟩ := h
  rcases repo.commit_cases id with heq | ⟨htip, -, hlog, -⟩
  · rw [heq]
    exact ⟨c, hc, hx⟩
  · refine ⟨c, ?_, hx⟩
    rw [htip, hlog]
    exact List.mem_cons_of_mem _ hc

theorem inBase_commit (h : id ∈ repo.staged) : InBase (repo.commit id) id := by
  have hne : repo.staged.isEmpty = false := by
    cases hs : repo.staged with
    | nil => rw [hs] at h; cases h
    | cons _ _ => rfl
  refine ⟨{ sha := repo.nextSha, taskId := id }, ?_, rfl⟩
  unfold Worktree.Repo.commit
  rw [hne]
  simp [Worktree.Repo.log]

theorem InBase.advance {x : PhaseId} {resolve : Bool} (h : InBase repo x) (stage : Worktree.MergeStage) :
    InBase (stage.advance resolve id repo a).1 x := by
  have hstage : ∀ changes, InBase (repo.stage id changes) x := by
    intro changes
    obtain ⟨htip, -, hlog⟩ := repo.stage_base id changes
    unfold InBase
    rwa [htip, hlog]
  cases stage <;> simp only [Worktree.MergeStage.advance]
  case squash => split <;> first | exact h | exact hstage _
  case addResolved => exact hstage _
  case commit => split <;> first | exact h | exact h.commit id
  case commitResolved => split <;> first | exact h | exact h.commit id
  all_goals exact h

/-- What a command of the merge of `id` hands to the next one. -/
structure Hands (changed : List PhaseId) (id : PhaseId) (repo : Worktree.Repo) (stage : Worktree.MergeStage) : Prop where
  unstaged : (MergeStage.merge stage).unstaged = true → id ∉ changed
  staged : (MergeStage.merge stage).staging = true → id ∈ changed → id ∈ repo.staged

theorem Hands.of_not {stage : Worktree.MergeStage} (h : id ∉ changed) : Hands changed id repo stage :=
  ⟨fun _ => h, fun _ hmem => absurd hmem h⟩

theorem Hands.resetHead {files : List String} : Hands changed id repo (.resetHead files) :=
  ⟨fun hs => (by cases hs), fun hs => (by cases hs)⟩

/-- The index holds what the squash has put there. -/
theorem Hands.of_staged {stage : Worktree.MergeStage} (hs : (MergeStage.merge stage).unstaged = false)
    (h : id ∈ changed → id ∈ repo.staged) : Hands changed id repo stage :=
  ⟨fun hun => (by rw [hs] at hun; cases hun), fun _ => h⟩

theorem mem_stage {changes : Bool} (h : id ∉ changed) (hmem : id ∈ if changes = true then id :: changed else changed) :
    id ∈ (repo.stage id changes).staged := by
  cases changes with
  | false => exact absurd hmem h
  | true => exact List.mem_append_right _ (List.mem_singleton_self id)

theorem Hands.advance {stage : Worktree.MergeStage} (h : Hands changed id repo stage) (resolve : Bool)
    (hthrows : (a.throws && !stage.catches) = false) :
    (∀ stage', (stage.advance resolve id repo a).2 = .inl stage' →
        Hands (squashed changed id a stage) id (stage.advance resolve id repo a).1 stage') ∧
      ∀ resolved, (stage.advance resolve id repo a).2 = .inr (.ok resolved) →
        id ∈ squashed changed id a stage → InBase (stage.advance resolve id repo a).1 id := by
  cases stage with
  | checkout =>
      simp only [Worktree.MergeStage.advance]
      split
      · refine ⟨fun stage' _ => .of_not (h.unstaged rfl), by simp⟩
      · exact ⟨by simp, by simp⟩
  | squash =>
      have hnot := h.unstaged rfl
      have hquiet : a.throws = false := by simpa [Worktree.MergeStage.catches] using hthrows
      cases hconflict : a.conflict with
      | true =>
          have hsame : squashed changed id a .squash = changed := by simp [squashed, squashes, hconflict]
          rw [hsame]
          simp only [Worktree.MergeStage.advance, hconflict]
          exact ⟨fun stage' _ => .of_not hnot, by simp⟩
      | false =>
          have hsquashed : squashed changed id a .squash = if a.changes = true then id :: changed else changed := by
            simp [squashed, squashes, hconflict, hquiet]
          rw [hsquashed]
          simp only [Worktree.MergeStage.advance, hconflict]
          refine ⟨?_, by simp⟩
          rintro stage' ⟨⟩
          exact .of_staged rfl (mem_stage hnot)
  | commit =>
      simp only [Worktree.MergeStage.advance]
      split
      · exact ⟨by simp, fun _ _ hmem => inBase_commit (h.staged rfl hmem)⟩
      · exact ⟨by simp, by simp⟩
  | unmergedFiles fromOutput => exact ⟨fun stage' _ => .of_not (h.unstaged rfl), by simp [Worktree.MergeStage.advance]⟩
  | resolve files => exact ⟨fun stage' _ => .of_not (h.unstaged rfl), by simp [Worktree.MergeStage.advance]⟩
  | addResolved files =>
      have hquiet : a.throws = false := by simpa [Worktree.MergeStage.catches] using hthrows
      have hsquashed : squashed changed id a (.addResolved files) =
          if a.changes = true then id :: changed else changed := by
        simp [squashed, squashes, hquiet]
      rw [hsquashed]
      refine ⟨?_, by simp [Worktree.MergeStage.advance]⟩
      rintro stage' ⟨⟩
      exact .of_staged rfl (mem_stage (h.unstaged rfl))
  | hasConflictMarkers files =>
      refine ⟨?_, by simp [Worktree.MergeStage.advance]⟩
      rintro stage' heq
      obtain rfl := Sum.inl.inj heq
      cases a.markers with
      | true => exact .resetHead
      | false => exact .of_staged rfl (h.staged rfl)
  | commitResolved files =>
      simp only [Worktree.MergeStage.advance]
      split
      · exact ⟨by simp, fun _ _ hmem => inBase_commit (h.staged rfl hmem)⟩
      · refine ⟨?_, by simp⟩
        rintro stage' ⟨⟩
        exact .resetHead
  | resetHead files => exact ⟨by simp [Worktree.MergeStage.advance], by simp [Worktree.MergeStage.advance]⟩

/-! ## Steps of a merge -/

/-- Another merge goes on, and takes from the base and the index nothing that this one needs. -/
theorem Integrates.set {mid : PhaseId} (h : Integrates merges repo changed k' m' p) (hne : k' ≠ k)
    (hk : merges[k]? = some { phaseId := mid, stage := s })
    (hmono : s.isSettled = true → s'.isSettled = true) (hid : m'.phaseId ≠ mid)
    (hchanged : ∀ id ∈ changed', id ∈ changed ∨ id = mid)
    (hstaged : m'.stage.staging = true → repo'.staged = repo.staged)
    (hbase : ∀ id, InBase repo id → InBase repo' id) :
    Integrates (merges.set k { phaseId := mid, stage := s' }) repo' changed' k' m' p := by
  have hback : m'.phaseId ∈ changed' → m'.phaseId ∈ changed := fun hmem => (hchanged _ hmem).resolve_right hid
  have hold : ∀ {j : Nat} {n : Merge}, (merges.set k { phaseId := mid, stage := s' })[j]? = some n →
      ∃ n' : Merge, merges[j]? = some n' ∧
      n'.phaseId = n.phaseId ∧ (n'.stage.isSettled = true → n.stage.isSettled = true) := by
    intro j n hn
    rcases getElem?_set_cases hn with ⟨rfl, rfl⟩ | ⟨-, hn⟩
    · exact ⟨_, hk, rfl, hmono⟩
    · exact ⟨n, hn, rfl, fun hs => hs⟩
  refine ⟨h.fits, ?_, ?_, fun hun hmem => h.unstaged hun (hback hmem), ?_, fun hover hint hmem => ?_⟩
  · intro awaited ha j n hlt hn hdep
    obtain ⟨n', hn', hphase, -⟩ := hold hn
    exact h.awaits awaited ha j n' hlt hn' (hphase ▸ hdep)
  · intro hc j n hlt hn hdep
    obtain ⟨n', hn', hphase, hsettled⟩ := hold hn
    exact hsettled (h.ordered hc j n' hlt hn' (hphase ▸ hdep))
  · intro hs hmem
    rw [hstaged hs]
    exact h.staged hs (hback hmem)
  · exact hbase _ (h.landed hover hint (hback hmem))

/-- One merge goes on, and changes nothing but the status of its phase and what it says of the integration. -/
theorem Tidy.merge_goes (h : Tidy g changed w) (hk : w.merges[k]? = some { phaseId := id, stage := s })
    (hp : OnlyPhase id p p' w w') (hmerges : w'.merges = w.merges.set k { phaseId := id, stage := s' })
    (hcalls : w'.phaseCalls = w.phaseCalls) (hdrivers : w'.drivers = w.drivers) (hstopped : w'.stopped = w.stopped)
    (hrunning : w'.runningPhases = w.runningPhases) (hpromise : w'.phaseMergePromise = w.phaseMergePromise)
    (htasks : p'.taskGraph = p.taskGraph)
    (hstatus : p'.status = .failed ∨ p'.status = .completed ∧ p.status = .completed)
    (hqueue : Queue w'.merges w'.mergeQueue) (hmono : s.isSettled = true → s'.isSettled = true)
    (hchanged : ∀ id' ∈ changed', id' ∈ changed ∨ id' = id)
    (hrepo : w'.repo = w.repo ∨ s.begun = true ∧ s.isSettled = false)
    (hbase : ∀ id', InBase w.repo id' → InBase w'.repo id')
    (hself : Integrates w'.merges w'.repo changed' k { phaseId := id, stage := s' } p') : Tidy g changed' w' := by
  have hat : ∀ {j id' s}, At w' j id' s ↔ At w j id' s := by
    intro j id' s
    unfold At
    rw [hcalls]
  have hfree : ∀ {j s}, ¬ At w j id s := fun hj => h.unmerged _ _ _ hj _ (List.mem_of_getElem? hk) rfl
  have hids : ∀ {m}, m ∈ w'.merges → ∃ m' ∈ w.merges, m'.phaseId = m.phaseId := by
    intro m hm
    rw [hmerges] at hm
    rcases List.mem_or_eq_of_mem_set hm with hold | rfl
    · exact ⟨m, hold, rfl⟩
    · exact ⟨_, List.mem_of_getElem? hk, rfl⟩
  have hnew : p'.status ≠ .pending ∧ p'.status ≠ .ready ∧ p'.status ≠ .running := by
    rcases hstatus with hs | ⟨hs, -⟩ <;> simp [hs]
  refine ⟨?_, ?_, ?_, ?_, ?_, ?_, ?_, ?_, ?_, ?_, ?_, hqueue, ?_⟩
  · intro j id' s hj
    have hj' := hat.mp hj
    have hne : id' ≠ id := by
      rintro rfl
      exact hfree hj'
    rw [hp.others id' hne, hstopped]
    exact h.calls j id' s hj'
  · exact fun j j' id' s s' hj hj' => h.alone j j' id' s s' (hat.mp hj) (hat.mp hj')
  · intro j id' s hj m hm
    obtain ⟨m', hm', heq⟩ := hids hm
    exact heq ▸ h.unmerged j id' s (hat.mp hj) m' hm'
  · intro id' q hq hfresh
    rcases hp.cases hq with ⟨-, rfl⟩ | ⟨-, hq⟩
    · exact absurd hfresh (not_or.mpr ⟨hnew.1, hnew.2.1⟩)
    · obtain ⟨hnone, hunmerged, hidle⟩ := h.fresh id' q hq hfresh
      refine ⟨fun j s hj => hnone j s (hat.mp hj), fun m hm => ?_, hidle⟩
      obtain ⟨m', hm', heq⟩ := hids hm
      exact heq ▸ hunmerged m' hm'
  · intro id' hid'
    rw [hrunning] at hid'
    obtain ⟨j, s, hj, hs⟩ := h.running id' hid'
    exact ⟨j, s, hat.mpr hj, hs⟩
  · intro id' q hq hs
    rcases hp.cases hq with ⟨-, rfl⟩ | ⟨-, hq⟩
    · exact absurd hs hnew.2.2
    · exact hp.depsDone rfl (h.deps id' q hq hs)
  · intro id' q hq hs hinit
    rw [hstopped]
    rcases hp.cases hq with ⟨rfl, rfl⟩ | ⟨-, hq⟩
    · rw [htasks]
      rcases hstatus with hfailed | ⟨-, hold⟩
      · simp [hs] at hfailed
      · exact h.completed _ p hp.old hold hinit
    · exact h.completed id' q hq hs hinit
  · intro id' p₀ q h₀ hq hw
    rcases hp.cases hq with ⟨rfl, rfl⟩ | ⟨-, hq⟩
    · rw [htasks]
      exact h.workable _ p₀ p h₀ hp.old hw
    · exact h.workable id' p₀ q h₀ hq hw
  · intro driver hdriver id' hid' q hq
    rw [hdrivers] at hdriver
    rcases hp.cases hq with ⟨rfl, rfl⟩ | ⟨-, hq⟩
    · exact ⟨hnew.2.1, hp.depsDone hp.dependsOn (h.ready driver hdriver _ hid' p hp.old).2⟩
    · obtain ⟨hne, hdone⟩ := h.ready driver hdriver id' hid' q hq
      exact ⟨hne, hp.depsDone rfl hdone⟩
  · intro j m hm
    rw [hmerges] at hm
    rcases getElem?_set_cases hm with ⟨rfl, rfl⟩ | ⟨hne, hm⟩
    · exact ⟨p', hp.new, hself⟩
    · have hid : m.phaseId ≠ id := by
        intro heq
        have hj := h.promise j m hm
        rw [heq, h.promise k _ hk] at hj
        exact hne (Option.some.inj hj).symm
      obtain ⟨q, hq, hok⟩ := h.merges j m hm
      refine ⟨q, (hp.others _ hid).trans hq, ?_⟩
      rw [hmerges]
      refine hok.set hne hk hmono hid hchanged (fun hstaging => ?_) hbase
      rcases hrepo with heq | ⟨hbegun, hopen⟩
      · rw [heq]
      · exfalso
        have hboth : m.stage.begun = true ∧ m.stage.isSettled = false := by
          obtain ⟨mid, ms⟩ := m
          cases ms <;> first | exact ⟨rfl, rfl⟩ | cases hstaging
        exact hne (h.queue.one hm hk hboth.1 hbegun hboth.2 hopen)
  · intro j m hm
    rw [hpromise]
    rw [hmerges] at hm
    rcases getElem?_set_cases hm with ⟨rfl, rfl⟩ | ⟨-, hm⟩
    · have hold : w.phaseMergePromise.get? id = some j := h.promise j _ hk
      exact hold
    · exact h.promise j m hm
  · intro id' hid'
    have hset : ∀ m ∈ w.merges, ∃ m' ∈ w'.merges, m'.phaseId = m.phaseId := by
      intro m hm
      obtain ⟨j, hj⟩ := List.mem_iff_getElem?.mp hm
      rw [hmerges]
      by_cases heq : j = k
      · subst heq
        obtain rfl := Option.some.inj (hk.symm.trans hj)
        exact ⟨_, List.mem_of_getElem? (getElem?_set_of hk _), rfl⟩
      · refine ⟨m, List.mem_of_getElem? (i := j) ?_, rfl⟩
        rw [List.getElem?_set_ne (Ne.symm heq), hj]
    have hmem : ∃ m ∈ w.merges, m.phaseId = id' := by
      rcases hchanged id' hid' with hold | rfl
      · exact h.known id' hold
      · exact ⟨_, List.mem_of_getElem? hk, rfl⟩
    obtain ⟨m, hm, rfl⟩ := hmem
    exact hset m hm

theorem Integrates.self (hdone : ∀ k' m', k' < k → merges[k']? = some m' → m'.phaseId ∈ p.dependsOn →
      m'.stage.isSettled = true) (hc : s'.chained = true) (hfits : s'.Fits p)
    (hunstaged : s'.unstaged = true → id ∉ changed) (hstaged : s'.staging = true → id ∈ changed → id ∈ repo.staged)
    (hlanded : s'.over = true → p.integrationStatus = some .merged → id ∈ changed → InBase repo id) :
    Integrates (merges.set k { phaseId := id, stage := s' }) repo changed k { phaseId := id, stage := s' } p := by
  have hearlier : ∀ k' m', k' < k → (merges.set k { phaseId := id, stage := s' })[k']? = some m' →
      m'.phaseId ∈ p.dependsOn → m'.stage.isSettled = true := by
    intro k' m' hlt hm hdep
    rw [List.getElem?_set_ne (Ne.symm hlt.ne)] at hm
    exact hdone k' m' hlt hm hdep
  refine ⟨hfits, ?_, fun _ => hearlier, hunstaged, hstaged, hlanded⟩
  rintro awaited rfl
  cases hc

theorem maps_markPhaseMergeFailed (w : PhaseOrchestrator) (id : PhaseId) :
    Maps id (fun p => { p with status := .failed }) w (w.markPhaseMergeFailed id) := by
  by_cases hfailed : w.graph.statusOf id = some .failed
  · have hphases : (w.markPhaseMergeFailed id).graph.phases = w.graph.phases := by
      unfold PhaseOrchestrator.markPhaseMergeFailed
      rw [if_pos hfailed]
      simp only
      split <;> rfl
    intro id'
    rw [hphases]
    split
    · rename_i heq
      subst heq
      obtain ⟨p, hp, hs⟩ := Option.map_eq_some_iff.mp hfailed
      rw [hp, Option.map_some, ← hs]
    · rfl
  · refine maps_modify ?_
    unfold PhaseOrchestrator.markPhaseMergeFailed
    rw [if_neg hfailed]
    simp only
    split <;> rfl

/-- What `failMerge` does, whether or not `onPhaseFail` throws. -/
theorem failMerge_cases (w : PhaseOrchestrator) (k : Nat) (id : PhaseId) (a : Answer) : ∃ rejected,
    (w.failMerge k id a).merges = w.merges.set k { phaseId := id, stage := .settled rejected } ∧
      Maps id (fun p => { p with integrationStatus := some .mergeFailed, status := .failed }) w (w.failMerge k id a) ∧
      (w.failMerge k id a).phaseCalls = w.phaseCalls ∧ (w.failMerge k id a).drivers = w.drivers ∧
      (w.failMerge k id a).stopped = w.stopped ∧ (w.failMerge k id a).runningPhases = w.runningPhases ∧
      (w.failMerge k id a).phaseMergePromise = w.phaseMergePromise ∧
      (w.failMerge k id a).mergeQueue = w.mergeQueue ∧ (w.failMerge k id a).repo = w.repo := by
  have hmeta : Maps id (fun p => { p with integrationStatus := some .mergeFailed }) w
      (w.setIntegrationMetadata id .mergeFailed) := maps_modify rfl
  have honce := hmeta.trans (maps_markPhaseMergeFailed (w.setIntegrationMetadata id .mergeFailed) id)
  unfold PhaseOrchestrator.failMerge
  simp only
  split
  · exact ⟨_, rfl, honce.trans (maps_markPhaseMergeFailed _ id), rfl, rfl, rfl, rfl, rfl, rfl, rfl⟩
  · exact ⟨_, rfl, honce, rfl, rfl, rfl, rfl, rfl, rfl, rfl⟩

theorem squashed_of_throws {stage : Worktree.MergeStage} (h : (a.throws && !stage.catches) = true) :
    squashed changed id a stage = changed := by
  have hthrows : a.throws = true := (Bool.and_eq_true_iff.mp h).1
  unfold squashed
  cases stage <;> simp [squashes, hthrows]

theorem mem_squashed {stage : Worktree.MergeStage} {id' : PhaseId} (h : id' ∈ squashed changed id a stage) :
    id' ∈ changed ∨ id' = id := by
  unfold squashed at h
  split at h
  · exact (List.mem_cons.mp h).symm
  · exact .inl h

theorem Tidy.failMerge {a : Answer} (h : Tidy g changed w) (hk : w.merges[k]? = some { phaseId := id, stage := s })
    (hbegun : s.begun = true) : Tidy g changed (w.failMerge k id a) := by
  obtain ⟨p, hp, hok⟩ := h.merges k _ hk
  obtain ⟨rejected, hmerges, hmaps, hcalls, hdrivers, hstopped, hrunning, hpromise, hqueue, hrepo⟩ :=
    failMerge_cases w k id a
  refine h.merge_goes hk (hmaps.onlyPhase hp rfl (fun _ => rfl) fun hw => hw) hmerges hcalls hdrivers hstopped
    hrunning hpromise rfl (.inl rfl) ?_ (fun _ => rfl) (fun _ hmem => .inl hmem) (.inl hrepo)
    (fun _ hin => hrepo ▸ hin) ?_
  · rw [hmerges, hqueue]
    exact h.queue.goes hk hbegun rfl fun _ => rfl
  · rw [hmerges, hrepo]
    exact .self (hok.ordered (MergeStage.chained_of_begun hbegun)) rfl (.inl rfl) (by simp [MergeStage.unstaged])
      (by simp [MergeStage.staging]) (by simp)

/-- The phases whose squash has had changes, after a step of a merge. -/
def squashedBy (changed : List PhaseId) (id : PhaseId) (a : Answer) : MergeStage → List PhaseId
  | .merge stage => squashed changed id a.git stage
  | _ => changed

theorem Tidy.resumeMerge {a : Answer} (h : Tidy g changed w)
    (hk : w.merges[k]? = some { phaseId := id, stage := s }) :
    Tidy g (squashedBy changed id a s) (w.resumeMerge o k id a s) := by
  obtain ⟨p, hp, hok⟩ := h.merges k _ hk
  -- the stages at which the phase stays as it is
  have hstays : ∀ {w' : PhaseOrchestrator} {s'}, w'.graph = w.graph →
      w'.merges = w.merges.set k { phaseId := id, stage := s' } → w'.phaseCalls = w.phaseCalls →
      w'.drivers = w.drivers → w'.stopped = w.stopped → w'.runningPhases = w.runningPhases →
      w'.phaseMergePromise = w.phaseMergePromise → w'.repo = w.repo → p.status = .completed →
      s.isSettled = false → Queue w'.merges w'.mergeQueue →
      Integrates w'.merges w'.repo changed k { phaseId := id, stage := s' } p → Tidy g changed w' := by
    intro w' s' hg hmerges hcalls hdrivers hstopped hrunning hpromise hrepo hs hopen hqueue hself
    exact h.merge_goes hk (.refl hp hg) hmerges hcalls hdrivers hstopped hrunning hpromise rfl (.inr ⟨hs, hs⟩) hqueue
      (fun hset => by rw [hopen] at hset; cases hset) (fun _ hmem => .inl hmem) (.inl hrepo)
      (fun _ hin => hrepo ▸ hin) hself
  cases s with
  | deps awaited =>
      simp only [PhaseOrchestrator.resumeMerge, squashedBy]
      split
      · rename_i hsettled
        refine hstays rfl rfl rfl rfl rfl rfl rfl rfl hok.fits rfl (h.queue.joins hk) ?_
        refine .self (fun k' m' hlt hm hdep => ?_) rfl hok.fits hok.unstaged (by simp [MergeStage.staging])
          (by simp [MergeStage.over])
        exact isSettled_of_settled (List.all_eq_true.mp hsettled k' (hok.awaits awaited rfl k' m' hlt hm hdep)) hm
      · exact h
  | queued behind =>
      simp only [PhaseOrchestrator.resumeMerge, squashedBy]
      split
      · exact h
      · rename_i hwaits
        have hsettled : behind.all w.settled = true := by simpa using hwaits
        split
        · have hmaps : Maps id (fun p => { p with status := .failed }) w
              ((w.markPhaseMergeFailed id).setMerge k id (.settled a.onPhaseFailThrows)) :=
            maps_markPhaseMergeFailed w id
          refine h.merge_goes hk (hmaps.onlyPhase hp rfl (fun _ => rfl) fun hw => hw) rfl rfl rfl rfl rfl rfl rfl
            (.inl rfl) (h.queue.turn hk hsettled rfl) (fun _ => rfl) (fun _ hmem => .inl hmem) (.inl rfl)
            (fun _ hin => hin) ?_
          exact .self (hok.ordered rfl) rfl (.inl rfl) (by simp [MergeStage.unstaged]) (by simp [MergeStage.staging])
            fun _ _ hmem => absurd hmem (hok.unstaged rfl)
        · refine hstays rfl rfl rfl rfl rfl rfl rfl rfl hok.fits rfl (h.queue.turn hk hsettled rfl) ?_
          exact .self (hok.ordered rfl) rfl hok.fits hok.unstaged (by simp [MergeStage.staging])
            (by simp [MergeStage.over])
  | merge stage =>
      have hcompleted : p.status = .completed := hok.fits
      simp only [PhaseOrchestrator.resumeMerge, squashedBy]
      split
      · rename_i hthrows
        rw [squashed_of_throws hthrows]
        exact h.failMerge hk rfl
      · rename_i hthrows
        have hquiet : (a.git.throws && !stage.catches) = false := by simpa using hthrows
        have hhands : Hands changed id w.repo stage := ⟨hok.unstaged, hok.staged⟩
        obtain ⟨hnext, hlands⟩ := hhands.advance o.resolveConflict hquiet
        have hbase : ∀ id', InBase w.repo id' → InBase (stage.advance o.resolveConflict id w.repo a.git).1 id' :=
          fun id' hin => hin.advance stage
        split
        · rename_i stage' heq
          have hands := hnext stage' heq
          refine h.merge_goes hk (.refl hp rfl) rfl rfl rfl rfl rfl rfl rfl (.inr ⟨hcompleted, hcompleted⟩)
            (h.queue.goes hk rfl rfl fun hs => by cases hs) (fun hs => by cases hs) (fun _ hmem => mem_squashed hmem)
            (.inr ⟨rfl, rfl⟩) hbase ?_
          exact .self (hok.ordered rfl) rfl hcompleted hands.unstaged hands.staged (by simp [MergeStage.over])
        · rename_i resolved heq
          have hmaps : Maps id (fun p => { p with integrationStatus := some .merged }) w
              (({ w with repo := (stage.advance o.resolveConflict id w.repo a.git).1 }.setIntegrationMetadata id
                .merged).setMerge k id .release) := maps_modify rfl
          refine h.merge_goes hk (hmaps.onlyPhase hp rfl (fun ht => ht) fun hw => hw) rfl rfl rfl rfl rfl rfl rfl
            (.inr ⟨hcompleted, hcompleted⟩) (h.queue.goes hk rfl rfl fun hs => by cases hs) (fun hs => by cases hs)
            (fun _ hmem => mem_squashed hmem) (.inr ⟨rfl, rfl⟩) hbase ?_
          exact .self (hok.ordered rfl) rfl ⟨hcompleted, .inl rfl⟩ (by simp [MergeStage.unstaged])
            (by simp [MergeStage.staging]) fun _ _ => hlands resolved heq
        · have hmaps : Maps id (fun p => { p with integrationStatus := some .needsReview }) w
              (({ w with repo := (stage.advance o.resolveConflict id w.repo a.git).1 }.setIntegrationMetadata id
                .needsReview).setMerge k id .release) := maps_modify rfl
          refine h.merge_goes hk (hmaps.onlyPhase hp rfl (fun ht => ht) fun hw => hw) rfl rfl rfl rfl rfl rfl rfl
            (.inr ⟨hcompleted, hcompleted⟩) (h.queue.goes hk rfl rfl fun hs => by cases hs) (fun hs => by cases hs)
            (fun _ hmem => mem_squashed hmem) (.inr ⟨rfl, rfl⟩) hbase ?_
          exact .self (hok.ordered rfl) rfl ⟨hcompleted, .inr rfl⟩ (by simp [MergeStage.unstaged])
            (by simp [MergeStage.staging]) (by simp)
  | release =>
      simp only [PhaseOrchestrator.resumeMerge, squashedBy]
      split
      · exact h.failMerge hk rfl
      · refine hstays rfl rfl rfl rfl rfl rfl rfl rfl hok.fits.1 rfl (h.queue.goes hk rfl rfl fun _ => rfl) ?_
        exact .self (hok.ordered rfl) rfl (.inr hok.fits) (by simp [MergeStage.unstaged]) (by simp [MergeStage.staging])
          fun _ => hok.landed rfl
  | settled rejected => exact h

end WrongStack.AutoPhase
