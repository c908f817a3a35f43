import WrongStack.Changes.Manager
import WrongStack.Consensus.Theorems

/-!
# The lifecycle and the gate of a change

Exactly which steps keep the order of the lifecycle and what the agents have reported to the quality gate.
-/

namespace WrongStack.Changes

open Lib Consensus

variable {checks : QualityGateChecks} {p : Protocol} {s s' s'' : State} {id changeId : String}

/-! ## The lifecycle -/

/-- A change becomes applied from approved, and rolled back from applied. -/
def Lifecycle (s s' : State) : Prop :=
  ∀ id change', s'.changes.get? id = some change' →
    (change'.status = .applied →
      ∃ change, s.changes.get? id = some change ∧ (change.status = .approved ∨ change.status = .applied)) ∧
    (change'.status = .rolledBack →
      ∃ change, s.changes.get? id = some change ∧ (change.status = .applied ∨ change.status = .rolledBack))

def HasStatus (s : State) (id : String) (allowed : List ChangeStatus) : Prop :=
  ∀ change ∈ s.changes.get? id, change.status ∈ allowed

instance (s : State) (id : String) (allowed : List ChangeStatus) : Decidable (HasStatus s id allowed) :=
  inferInstanceAs (Decidable (∀ change ∈ s.changes.get? id, change.status ∈ allowed))

/-- What is marked as applied has been approved, what is marked as rolled back has been applied. -/
def KeepsLifecycle (s : State) : Op → Prop
  | .markApplied changeId _ => HasStatus s changeId [.approved, .applied]
  | .markAppliedWithVerification changeId _ => HasStatus s changeId [.approved, .applied]
  | .markRolledBack changeId _ => HasStatus s changeId [.applied, .rolledBack]
  | _ => True

/-! ## The gate -/

inductive Check
  | tests | typecheck | security | lint | coverage
  deriving DecidableEq

/-- The name that the gate has for a check; for the coverage it has none. -/
def Check.name? : Check → Option String
  | tests => "tests"
  | typecheck => "typecheck"
  | security => "security"
  | lint => "lint"
  | coverage => none

def QualityGateChecks.configured (checks : QualityGateChecks) : List Check :=
  (if checks.runTests then [.tests] else []) ++ (if checks.runTypecheck then [.typecheck] else []) ++
    (if checks.runSecurityScan then [.security] else []) ++ (if checks.runLint then [.lint] else []) ++
    (if checks.checkTestCoverage then [.coverage] else [])

/-- The latest result that has been reported for a check of a change. -/
abbrev Reports := String → String → Option CheckResult

def noteReport (reports : Reports) (s : State) : Op → Reports
  | .updateQualityGate changeId checkName result =>
      if s.changes.has changeId then
        Function.update reports changeId (Function.update (reports changeId) checkName (some result))
      else reports
  | _ => reports

/-- The entry has what has been reported. -/
def QualityCheck.Shows (c : QualityCheck) (r : CheckResult) : Prop :=
  c.passed = r.passed ∧ ∀ d ∈ r.detail, c.detail = d

instance (c : QualityCheck) (r : CheckResult) : Decidable (c.Shows r) :=
  inferInstanceAs (Decidable (c.passed = r.passed ∧ ∀ d ∈ r.detail, c.detail = d))

structure GateSound (checks : QualityGateChecks) (gate : QualityGateResult)
    (reported : String → Option CheckResult) : Prop where
  passed : gate.passed = true → ∀ c ∈ checks.configured, ∃ name r, c.name? = some name ∧ reported name = some r ∧
    r.passed = true
  latest : ∀ c ∈ checks.configured, ∀ name r, c.name? = some name → reported name = some r →
    ∃ entry ∈ gate.checks, entry.name = name ∧ entry.Shows r

def GatesSound (checks : QualityGateChecks) (t : State × Reports) : Prop :=
  ∀ id change, t.1.changes.get? id = some change → GateSound checks change.qualityGate (t.2 id)

/-- The gate lists a check, and the pending checks show all that has been reported. -/
def Overwrites (checks : QualityGateChecks) (reported : String → Option CheckResult) : Prop :=
  pendingChecks checks ≠ [] ∧ ∀ c ∈ pendingChecks checks, ∀ r ∈ reported c.name, c.Shows r

instance (checks : QualityGateChecks) (reported : String → Option CheckResult) :
    Decidable (Overwrites checks reported) :=
  inferInstanceAs (Decidable (pendingChecks checks ≠ [] ∧ ∀ c ∈ pendingChecks checks, ∀ r ∈ reported c.name, c.Shows r))

/-- The change whose gate a task writes. -/
def Task.writes? : Task → Option String
  | added changeId _ | gate changeId _ => some changeId
  | verified _ => none

/-- The background task overwrites no report; a report finds the checks listed, and with the coverage configured it is
not the last one that is missing. -/
def KeepsGates (checks : QualityGateChecks) (t : State × Reports) : Op → Prop
  | .updateQualityGate changeId checkName result =>
      ∀ change ∈ t.1.changes.get? changeId, change.qualityGate.checks ≠ [] ∧
        (checks.checkTestCoverage = true → (change.qualityGate.report checkName result).passed = false)
  | .resume i _ _ _ => ∀ changeId ∈ t.1.tasks[i]?.bind Task.writes?, Overwrites checks (t.2 changeId)
  | _ => True

/-- The condition on one step. -/
def Keeps (checks : QualityGateChecks) (t : State × Reports) (op : Op) : Prop :=
  KeepsLifecycle t.1 op ∧ KeepsGates checks t op

instance (s : State) (op : Op) : Decidable (KeepsLifecycle s op) :=
  match op with
  | .markApplied changeId _ => inferInstanceAs (Decidable (HasStatus s changeId [.approved, .applied]))
  | .markAppliedWithVerification changeId _ =>
      inferInstanceAs (Decidable (HasStatus s changeId [.approved, .applied]))
  | .markRolledBack changeId _ => inferInstanceAs (Decidable (HasStatus s changeId [.applied, .rolledBack]))
  | .propose .. | .submitForReview _ | .vote .. | .updateQualityGate .. | .proposeRollback .. | .resume .. | .fail _ =>
      inferInstanceAs (Decidable True)

instance (checks : QualityGateChecks) (t : State × Reports) (op : Op) : Decidable (KeepsGates checks t op) :=
  match op with
  | .updateQualityGate changeId checkName result =>
      inferInstanceAs (Decidable (∀ change ∈ t.1.changes.get? changeId, change.qualityGate.checks ≠ [] ∧
        (checks.checkTestCoverage = true → (change.qualityGate.report checkName result).passed = false)))
  | .resume i _ _ _ =>
      inferInstanceAs (Decidable (∀ changeId ∈ t.1.tasks[i]?.bind Task.writes?, Overwrites checks (t.2 changeId)))
  | .propose .. | .submitForReview _ | .vote .. | .markApplied .. | .markAppliedWithVerification ..
  | .proposeRollback .. | .markRolledBack .. | .fail _ => inferInstanceAs (Decidable True)

instance (checks : QualityGateChecks) (t : State × Reports) (op : Op) : Decidable (Keeps checks t op) :=
  inferInstanceAs (Decidable (KeepsLifecycle t.1 op ∧ KeepsGates checks t op))

/-! ## Writes to the graph -/

theorem get?_update (s : State) (changeId id : String) (patch : Change → Change) :
    (s.update changeId patch).changes.get? id =
      if changeId = id then (s.changes.get? id).map patch else s.changes.get? id := by
  unfold State.update
  cases h : s.changes.get? changeId with
  | none =>
      by_cases hid : changeId = id
      · subst hid
        simp [h]
      · simp [hid]
  | some change =>
      simp only [JsMap.get?_set]
      by_cases hid : changeId = id
      · subst hid
        simp [h]
      · simp [hid]

@[simp] theorem update_tasks (s : State) (changeId : String) (patch : Change → Change) :
    (s.update changeId patch).tasks = s.tasks := by
  unfold State.update
  split <;> rfl

/-- The statuses that the lifecycle says nothing about. -/
def Calm (status : ChangeStatus) : Prop := status ≠ .applied ∧ status ≠ .rolledBack

/-- A step that marks nothing. -/
def Unmarked (s s' : State) : Prop :=
  ∀ id change', s'.changes.get? id = some change' →
    Calm change'.status ∨ ∃ change, s.changes.get? id = some change ∧ change.status = change'.status

theorem Unmarked.refl (s : State) : Unmarked s s := fun _ change' h => .inr ⟨change', h, rfl⟩

theorem Unmarked.trans (h : Unmarked s s') (h' : Unmarked s' s'') : Unmarked s s'' := by
  intro id change'' hchange''
  rcases h' id change'' hchange'' with hcalm | ⟨change', hchange', hstatus'⟩
  · exact .inl hcalm
  · rcases h id change' hchange' with hcalm | ⟨change, hchange, hstatus⟩
    · exact .inl (hstatus' ▸ hcalm)
    · exact .inr ⟨change, hchange, hstatus.trans hstatus'⟩

theorem Unmarked.lifecycle (h : Unmarked s s') : Lifecycle s s' := by
  intro id change' hchange'
  rcases h id change' hchange' with hcalm | ⟨change, hchange, hstatus⟩
  · exact ⟨fun happlied => absurd happlied hcalm.1, fun hrolled => absurd hrolled hcalm.2⟩
  · exact ⟨fun happlied => ⟨change, hchange, .inr (hstatus.trans happlied)⟩,
      fun hrolled => ⟨change, hchange, .inr (hstatus.trans hrolled)⟩⟩

theorem unmarked_update (changeId : String) {patch : Change → Change}
    (h : ∀ change, s.changes.get? changeId = some change →
      Calm (patch change).status ∨ change.status = (patch change).status) :
    Unmarked s (s.update changeId patch) := by
  intro id change' hchange'
  rw [get?_update] at hchange'
  split at hchange'
  · rename_i hid
    subst hid
    obtain ⟨change, hchange, rfl⟩ := Option.map_eq_some_iff.mp hchange'
    exact (h change hchange).imp id fun hstatus => ⟨change, hchange, hstatus⟩
  · exact .inr ⟨change', hchange', rfl⟩

theorem unmarked_propose (id : String) (input : ChangeProposal) (rollbackOf : Option (String × String)) :
    Unmarked s (propose s id input rollbackOf) := by
  unfold propose
  split
  · exact Unmarked.refl s
  · intro id' change' hchange'
    simp only [JsMap.get?_set] at hchange'
    split at hchange'
    · cases hchange'
      exact .inl ⟨by simp, by simp⟩
    · exact .inr ⟨change', hchange', rfl⟩

/-! ## The lifecycle, step by step -/

theorem newStatus_calm (change : ChangeNode) (result : ConsensusResult) :
    Calm (Protocol.newStatus change result) ∨ change.status = Protocol.newStatus change result := by
  unfold Protocol.newStatus
  split
  · exact .inr rfl
  · left
    cases result.outcome <;> exact ⟨by simp [toChangeStatus], by simp [toChangeStatus]⟩

/-- A vote on a node writes the node, with a status that is calm or as before. -/
theorem consensus_step (p : Protocol) (changeId : String) (node : ChangeNode) (op : Consensus.Op) :
    ∃ node' : ChangeNode, (Calm node'.status ∨ node.status = node'.status) ∧
      (Consensus.step p changeId (JsMap.empty.set changeId (.change node)) op).get? changeId =
        some (.change node') := by
  have hget : (JsMap.empty.set changeId (GraphNode.change node)).get? changeId = some (.change node) :=
    JsMap.get?_set_self ..
  cases op with
  | initiateVote =>
      refine ⟨{ node with status := .proposed, votes := [] }, .inl ⟨by simp, by simp⟩, ?_⟩
      simp [Consensus.step, Protocol.initiateVote, hget, Except.toOption]
  | resolveNow =>
      rw [step_resolveNow p hget]
      exact ⟨{ node with status := Protocol.newStatus node _ }, newStatus_calm node _, JsMap.get?_set_self ..⟩
  | castVote voterId value rationale =>
      rcases step_castVote p hget voterId value rationale with ⟨-, hstep⟩ | ⟨-, vote, -, -, hstep⟩
      · rw [hstep]
        exact ⟨node, .inr rfl, hget⟩
      · rw [hstep]
        exact ⟨{ node with votes := putVote vote node.votes, status := Protocol.newStatus node _ },
          newStatus_calm node _, JsMap.get?_set_self ..⟩

theorem unmarked_vote (p : Protocol) (s : State) (changeId : String) (op : Consensus.Op) :
    Unmarked s (vote p s changeId op) := by
  unfold vote
  cases hchange : s.changes.get? changeId with
  | none => exact Unmarked.refl s
  | some change =>
      obtain ⟨node', hstatus, hnode'⟩ := consensus_step p changeId change.toChangeNode op
      simp only [hnode']
      refine unmarked_update changeId fun change' hchange' => ?_
      cases hchange.symm.trans hchange'
      exact hstatus

theorem unmarked_proposeRollback (s : State) (id changeId reason : String) :
    Unmarked s (proposeRollback s id changeId reason) := by
  unfold proposeRollback
  cases s.changes.get? changeId with
  | none => exact Unmarked.refl s
  | some original => exact unmarked_propose id _ _

theorem unmarked_gate (s : State) (changeId : String) (gate : Change → QualityGateResult) :
    Unmarked s (s.update changeId fun change => { change with qualityGate := gate change }) :=
  unmarked_update changeId fun _ _ => .inr rfl

theorem unmarked_resume (checks : QualityGateChecks) (s : State) (verification : QualityGateResult) (now id : String)
    (task : Task) : Unmarked s (resume checks s verification now id task) := by
  cases task with
  | added changeId rollbackOf =>
      have hgate := unmarked_gate s changeId fun _ => runQualityGate checks
      cases rollbackOf with
      | none => exact hgate
      | some rollback => exact hgate.trans (unmarked_update rollback.1 fun _ _ => .inr rfl)
  | gate changeId gate => exact unmarked_gate s changeId fun _ => gate
  | verified changeId =>
      simp only [resume]
      split
      · exact Unmarked.refl s
      · exact unmarked_proposeRollback s id changeId _

theorem lifecycle_update_iff {patch : Change → Change} {status : ChangeStatus} {allowed : List ChangeStatus}
    (hpatch : ∀ change, (patch change).status = status)
    (hallowed : (status = .applied ∧ allowed = [.approved, .applied]) ∨
      (status = .rolledBack ∧ allowed = [.applied, .rolledBack])) :
    Lifecycle s (s.update changeId patch) ↔ HasStatus s changeId allowed := by
  constructor
  · intro h change hchange
    have hafter : (s.update changeId patch).changes.get? changeId = some (patch change) := by
      rw [get?_update, if_pos rfl, show s.changes.get? changeId = some change from hchange, Option.map_some]
    obtain ⟨happlied, hrolled⟩ := h changeId (patch change) hafter
    rcases hallowed with ⟨rfl, rfl⟩ | ⟨rfl, rfl⟩
    · obtain ⟨before, hbefore, hstatus⟩ := happlied (hpatch change)
      cases hbefore.symm.trans hchange
      simpa using hstatus
    · obtain ⟨before, hbefore, hstatus⟩ := hrolled (hpatch change)
      cases hbefore.symm.trans hchange
      simpa using hstatus
  · intro h id change' hchange'
    rw [get?_update] at hchange'
    split at hchange'
    · rename_i hid
      subst hid
      obtain ⟨change, hchange, rfl⟩ := Option.map_eq_some_iff.mp hchange'
      have hmem := h change hchange
      rw [hpatch]
      rcases hallowed with ⟨rfl, rfl⟩ | ⟨rfl, rfl⟩
      · exact ⟨fun _ => ⟨change, hchange, by simpa using hmem⟩, by simp⟩
      · exact ⟨by simp, fun _ => ⟨change, hchange, by simpa using hmem⟩⟩
    · exact (Unmarked.refl s).lifecycle id change' hchange'

theorem lifecycle_step_iff (checks : QualityGateChecks) (p : Protocol) (s : State) (op : Op) :
    Lifecycle s (step checks p s op) ↔ KeepsLifecycle s op := by
  cases op with
  | propose id input => exact iff_of_true (unmarked_propose id input none).lifecycle trivial
  | submitForReview changeId =>
      refine iff_of_true (Unmarked.lifecycle ?_) trivial
      simp only [step, submitForReview]
      cases s.changes.get? changeId with
      | none => exact Unmarked.refl s
      | some change =>
          simp only
          split
          · exact Unmarked.refl s
          · exact unmarked_update changeId fun change _ => .inl ⟨by simp, by simp⟩
  | vote changeId op => exact iff_of_true (unmarked_vote p s changeId op).lifecycle trivial
  | updateQualityGate changeId checkName result =>
      exact iff_of_true (unmarked_gate s changeId fun change => change.qualityGate.report checkName result).lifecycle
        trivial
  | markApplied changeId appliedAt => exact lifecycle_update_iff (fun _ => rfl) (.inl ⟨rfl, rfl⟩)
  | markAppliedWithVerification changeId appliedAt =>
      have hmark : Lifecycle s (markApplied s changeId appliedAt) ↔ HasStatus s changeId [.approved, .applied] :=
        lifecycle_update_iff (fun _ => rfl) (.inl ⟨rfl, rfl⟩)
      simp only [step, markAppliedWithVerification]
      cases hchange : s.changes.get? changeId with
      | none =>
          refine iff_of_true (Unmarked.refl s).lifecycle fun change hmem => ?_
          rw [hchange] at hmem
          cases hmem
      | some change => exact hmark
  | proposeRollback id changeId reason => exact iff_of_true (unmarked_proposeRollback s id changeId reason).lifecycle trivial
  | markRolledBack changeId rolledBackAt => exact lifecycle_update_iff (fun _ => rfl) (.inr ⟨rfl, rfl⟩)
  | resume i verification now id =>
      refine iff_of_true (Unmarked.lifecycle ?_) trivial
      simp only [step]
      cases s.tasks[i]? with
      | none => exact Unmarked.refl s
      | some task => exact unmarked_resume checks { s with tasks := s.tasks.eraseIdx i } verification now id task
  | fail i => exact iff_of_true (Unmarked.refl s).lifecycle trivial

/-! ## The checks of a configuration -/

theorem names_configured (checks : QualityGateChecks) :
    checks.configured.filterMap Check.name? = (pendingChecks checks).map QualityCheck.name := by
  obtain ⟨tests, typecheck, lint, security, coverage⟩ := checks
  cases tests <;> cases typecheck <;> cases lint <;> cases security <;> cases coverage <;> rfl

theorem names_nodup (checks : QualityGateChecks) : ((pendingChecks checks).map QualityCheck.name).Nodup := by
  obtain ⟨tests, typecheck, lint, security, coverage⟩ := checks
  cases tests <;> cases typecheck <;> cases lint <;> cases security <;> cases coverage <;> decide

theorem pendingChecks_failed (checks : QualityGateChecks) : ∀ c ∈ pendingChecks checks, c.passed = false := by
  obtain ⟨tests, typecheck, lint, security, coverage⟩ := checks
  cases tests <;> cases typecheck <;> cases lint <;> cases security <;> cases coverage <;> decide

theorem coverage_mem (checks : QualityGateChecks) :
    Check.coverage ∈ checks.configured ↔ checks.checkTestCoverage = true := by
  obtain ⟨tests, typecheck, lint, security, coverage⟩ := checks
  cases tests <;> cases typecheck <;> cases lint <;> cases security <;> cases coverage <;> decide

theorem exists_pending {c : Check} {name : String} (hc : c ∈ checks.configured) (hname : c.name? = some name) :
    name ∈ (pendingChecks checks).map QualityCheck.name := by
  rw [← names_configured]
  exact List.mem_filterMap.mpr ⟨c, hc, hname⟩

theorem exists_configured {name : String} (h : name ∈ (pendingChecks checks).map QualityCheck.name) :
    ∃ c ∈ checks.configured, c.name? = some name := by
  rw [← names_configured] at h
  exact List.mem_filterMap.mp h

theorem name?_eq_none {c : Check} (h : c.name? = none) : c = .coverage := by
  cases c <;> simp [Check.name?] at h ⊢

/-! ## One gate -/

/-- What always holds of a gate. -/
structure GateShape (checks : QualityGateChecks) (gate : QualityGateResult)
    (reported : String → Option CheckResult) : Prop where
  names : gate.checks = [] ∨ gate.checks.map QualityCheck.name = (pendingChecks checks).map QualityCheck.name
  flag : gate.checks ≠ [] → gate.passed = gate.checks.all QualityCheck.passed
  entry : ∀ entry ∈ gate.checks, entry.passed = true → ∃ r, reported entry.name = some r ∧ r.passed = true

variable {gate : QualityGateResult} {reported : String → Option CheckResult}

theorem gateShape_pending (checks : QualityGateChecks) (reported : String → Option CheckResult) :
    GateShape checks (runQualityGate checks) reported where
  names := .inr rfl
  flag hne := by
    obtain ⟨c, hc⟩ := List.exists_mem_of_ne_nil _ hne
    have hall : (pendingChecks checks).all QualityCheck.passed = false := by
      rw [List.all_eq_false]
      exact ⟨c, hc, by simp [pendingChecks_failed checks c hc]⟩
    have hempty : (pendingChecks checks).isEmpty = false := by
      simpa [runQualityGate] using hne
    exact hempty.trans hall.symm
  entry c hc hpassed := by
    rw [pendingChecks_failed checks c hc] at hpassed
    cases hpassed

@[simp] theorem spread_name (c : QualityCheck) (result : CheckResult) : (c.spread result).name = c.name := rfl

@[simp] theorem report_names (gate : QualityGateResult) (name : String) (result : CheckResult) :
    (gate.report name result).checks.map QualityCheck.name = gate.checks.map QualityCheck.name := by
  simp only [QualityGateResult.report, List.map_map]
  refine List.map_congr_left fun c _ => ?_
  simp only [Function.comp_apply]
  split <;> rfl

theorem report_eq_nil (name : String) (result : CheckResult) :
    (gate.report name result).checks = [] ↔ gate.checks = [] := by
  simp [QualityGateResult.report]

theorem GateShape.report (h : GateShape checks gate reported) (name : String) (result : CheckResult) :
    GateShape checks (gate.report name result) (Function.update reported name (some result)) where
  names := by
    rw [report_eq_nil, report_names]
    exact h.names
  flag _ := rfl
  entry c' hc' hpassed := by
    obtain ⟨c, hc, rfl⟩ := List.mem_map.mp hc'
    by_cases hname : c.name = name
    · rw [if_pos hname] at hpassed ⊢
      exact ⟨result, by simp [hname], hpassed⟩
    · rw [if_neg hname] at hpassed ⊢
      obtain ⟨r, hr, hrpassed⟩ := h.entry c hc hpassed
      exact ⟨r, by rw [Function.update_of_ne hname, hr], hrpassed⟩

/-- The pending checks overwrite what the gate had. -/
theorem gateSound_pending (hconf : checks.configured ≠ []) :
    GateSound checks (runQualityGate checks) reported ↔ Overwrites checks reported := by
  constructor
  · intro h
    refine ⟨fun hnil => ?_, fun c hc r hr => ?_⟩
    · obtain ⟨c, hc⟩ := List.exists_mem_of_ne_nil _ hconf
      obtain ⟨name, r, hname, -⟩ := h.passed (by simp [runQualityGate, hnil]) c hc
      have hmem := exists_pending hc hname
      rw [hnil] at hmem
      cases hmem
    · obtain ⟨check, hcheck, hname⟩ := exists_configured (List.mem_map_of_mem hc)
      obtain ⟨entry, hentry, hentryname, hshows⟩ := h.latest check hcheck c.name r hname hr
      rwa [List.inj_on_of_nodup_map (names_nodup checks) hentry hc hentryname] at hshows
  · rintro ⟨hne, hshown⟩
    refine ⟨fun hpassed => ?_, fun check hcheck name r hname hr => ?_⟩
    · exact absurd (by simpa [runQualityGate] using hpassed) hne
    · obtain ⟨entry, hentry, rfl⟩ := List.mem_map.mp (exists_pending hcheck hname)
      exact ⟨entry, hentry, rfl, hshown entry hentry r hr⟩

/-- A report is recorded if the checks are listed, and the gate passes as it should unless the coverage is configured. -/
theorem gateSound_report (hconf : checks.configured ≠ []) (hshape : GateShape checks gate reported)
    (h : GateSound checks gate reported) (name : String) (result : CheckResult) :
    GateSound checks (gate.report name result) (Function.update reported name (some result)) ↔
      gate.checks ≠ [] ∧ (checks.checkTestCoverage = true → (gate.report name result).passed = false) := by
  have hshape' := hshape.report name result
  constructor
  · intro h'
    refine ⟨fun hnil => ?_, fun hcoverage => ?_⟩
    · have hnil' := (report_eq_nil name result).mpr hnil
      obtain ⟨c, hc⟩ := List.exists_mem_of_ne_nil _ hconf
      obtain ⟨n, r, hn, hr, -⟩ := h'.passed (by simp [QualityGateResult.report, hnil]) c hc
      obtain ⟨entry, hentry, -⟩ := h'.latest c hc n r hn hr
      rw [hnil'] at hentry
      cases hentry
    · cases hpassed : (gate.report name result).passed with
      | false => rfl
      | true =>
          obtain ⟨n, r, hn, -⟩ := h'.passed hpassed .coverage ((coverage_mem checks).mpr hcoverage)
          cases hn
  · rintro ⟨hne, hcoverage⟩
    have hnames : (gate.report name result).checks.map QualityCheck.name =
        (pendingChecks checks).map QualityCheck.name := by
      rw [report_names]
      exact hshape.names.resolve_left hne
    refine ⟨fun hpassed c hc => ?_, fun c hc n r hn hr => ?_⟩
    · cases hn : c.name? with
      | none =>
          rw [name?_eq_none hn] at hc
          rw [hcoverage ((coverage_mem checks).mp hc)] at hpassed
          cases hpassed
      | some n =>
          have hmem := exists_pending hc hn
          rw [← hnames] at hmem
          obtain ⟨entry, hentry, rfl⟩ := List.mem_map.mp hmem
          obtain ⟨r, hr, hrpassed⟩ := hshape'.entry entry hentry (List.all_eq_true.mp hpassed entry hentry)
          exact ⟨entry.name, r, rfl, hr, hrpassed⟩
    · by_cases hname : n = name
      · subst hname
        rw [Function.update_self] at hr
        cases hr
        have hmem := exists_pending hc hn
        rw [← hshape.names.resolve_left hne] at hmem
        obtain ⟨entry, hentry, hentryname⟩ := List.mem_map.mp hmem
        refine ⟨entry.spread result, List.mem_map.mpr ⟨entry, hentry, if_pos hentryname⟩, hentryname, rfl, ?_⟩
        intro d hd
        simp [QualityCheck.spread, show result.detail = some d from hd]
      · rw [Function.update_of_ne hname] at hr
        obtain ⟨entry, hentry, hentryname, hshows⟩ := h.latest c hc n r hn hr
        exact ⟨entry, List.mem_map.mpr ⟨entry, hentry, if_neg (hentryname ▸ hname)⟩, hentryname, hshows⟩

/-! ## All gates -/

/-- The tasks of the background are about changes that are there. -/
def Task.Known (checks : QualityGateChecks) (s : State) : Task → Prop
  | .added changeId _ => s.changes.has changeId = true
  | .gate changeId gate => s.changes.has changeId = true ∧ gate = runQualityGate checks
  | .verified _ => True

structure Gates (checks : QualityGateChecks) (t : State × Reports) : Prop where
  shape : ∀ id change, t.1.changes.get? id = some change → GateShape checks change.qualityGate (t.2 id)
  tasks : ∀ task ∈ t.1.tasks, task.Known checks t.1
  fresh : ∀ id, t.1.changes.get? id = none → ∀ name, t.2 id name = none

/-- A step that changes no gate; a new change has an empty one. -/
structure SameGates (s s' : State) : Prop where
  old : ∀ id change, s.changes.get? id = some change →
    ∃ change', s'.changes.get? id = some change' ∧ change'.qualityGate = change.qualityGate
  new : ∀ id change', s'.changes.get? id = some change' → s.changes.get? id = none →
    change'.qualityGate = { passed := false, checks := [] }

theorem SameGates.refl (s : State) : SameGates s s where
  old _ change h := ⟨change, h, rfl⟩
  new id change' h hnone := by
    rw [hnone] at h
    cases h

theorem sameGates_update (s : State) (changeId : String) {patch : Change → Change}
    (h : ∀ change, (patch change).qualityGate = change.qualityGate) : SameGates s (s.update changeId patch) where
  old id change hchange := by
    rw [get?_update]
    split
    · exact ⟨patch change, by rw [hchange, Option.map_some], h change⟩
    · exact ⟨change, hchange, rfl⟩
  new id change' hchange' hnone := by
    rw [get?_update, hnone] at hchange'
    split at hchange' <;> cases hchange'

theorem sameGates_propose (s : State) (id : String) (input : ChangeProposal) (rollbackOf : Option (String × String)) :
    SameGates s (propose s id input rollbackOf) := by
  unfold propose
  split
  · exact SameGates.refl s
  · rename_i hnew
    refine ⟨fun id' change hchange => ?_, fun id' change' hchange' hnone => ?_⟩
    · simp only [JsMap.get?_set]
      split
      · rename_i hid
        subst hid
        exact absurd (JsMap.has_iff.mpr ⟨change, hchange⟩) hnew
      · exact ⟨change, hchange, rfl⟩
    · simp only [JsMap.get?_set, hnone] at hchange'
      split at hchange' <;> cases hchange'
      rfl

section Reports

variable {reports : Reports}

theorem SameGates.has (h : SameGates s s') {id : String} (hid : s.changes.has id = true) :
    s'.changes.has id = true := by
  obtain ⟨change, hchange⟩ := JsMap.has_iff.mp hid
  obtain ⟨change', hchange', -⟩ := h.old id change hchange
  exact JsMap.has_iff.mpr ⟨change', hchange'⟩

theorem SameGates.known (h : SameGates s s') {task : Task} (htask : task.Known checks s) : task.Known checks s' := by
  cases task with
  | added changeId rollbackOf => exact h.has htask
  | gate changeId gate => exact ⟨h.has htask.1, htask.2⟩
  | verified changeId => trivial

theorem SameGates.gate_eq (h : SameGates s s') (hgates : Gates checks (s, reports)) {change' : Change}
    (hchange' : s'.changes.get? id = some change') :
    (∃ change, s.changes.get? id = some change ∧ change'.qualityGate = change.qualityGate) ∨
      (change'.qualityGate = { passed := false, checks := [] } ∧ ∀ name, reports id name = none) := by
  cases hchange : s.changes.get? id with
  | none => exact .inr ⟨h.new id change' hchange' hchange, hgates.fresh id hchange⟩
  | some change =>
      obtain ⟨after, hafter, hgate⟩ := h.old id change hchange
      cases hafter.symm.trans hchange'
      exact .inl ⟨change, rfl, hgate⟩

theorem Gates.same (hgates : Gates checks (s, reports)) (h : SameGates s s')
    (htasks : ∀ task ∈ s'.tasks, task ∈ s.tasks ∨ task.Known checks s') : Gates checks (s', reports) where
  shape id change' hchange' := by
    rcases h.gate_eq hgates hchange' with ⟨change, hchange, hgate⟩ | ⟨hgate, -⟩
    · rw [hgate]
      exact hgates.shape id change hchange
    · rw [hgate]
      exact ⟨.inl rfl, fun hne => absurd rfl hne, fun _ hmem => by cases hmem⟩
  tasks task htask := (htasks task htask).elim (fun hold => h.known (hgates.tasks task hold)) id
  fresh id hnone := by
    refine hgates.fresh id ?_
    cases hchange : s.changes.get? id with
    | none => rfl
    | some change =>
        obtain ⟨change', hchange', -⟩ := h.old id change hchange
        cases hnone.symm.trans hchange'

theorem GatesSound.same (hsound : GatesSound checks (s, reports)) (hgates : Gates checks (s, reports))
    (h : SameGates s s') : GatesSound checks (s', reports) := by
  intro id change' hchange'
  rcases h.gate_eq hgates hchange' with ⟨change, hchange, hgate⟩ | ⟨hgate, hnone⟩
  · rw [hgate]
    exact hsound id change hchange
  · rw [hgate]
    refine ⟨fun hpassed => (by cases hpassed), fun c _ name r _ hr => ?_⟩
    cases hr.symm.trans (hnone name)

theorem GatesSound.of_same (hsound : GatesSound checks (s', reports)) (h : SameGates s s') :
    GatesSound checks (s, reports) := by
  intro id change hchange
  obtain ⟨change', hchange', hgate⟩ := h.old id change hchange
  rw [← hgate]
  exact hsound id change' hchange'

/-- A gate is written, and at most a report on its own change is noted. -/
theorem Gates.write (hgates : Gates checks (s, reports)) {change : Change} {reports' : Reports} {g : QualityGateResult}
    (hchange : s.changes.get? changeId = some change) (hothers : ∀ id, id ≠ changeId → reports' id = reports id)
    (hshape : GateShape checks g (reports' changeId)) {patch : Change → Change}
    (hpatch : (patch change).qualityGate = g) : Gates checks (s.update changeId patch, reports') where
  shape id change' hchange' := by
    rw [get?_update] at hchange'
    split at hchange'
    · rename_i hid
      subst hid
      rw [hchange] at hchange'
      cases hchange'
      rw [hpatch]
      exact hshape
    · rename_i hid
      have hold : GateShape checks change'.qualityGate (reports id) := hgates.shape id change' hchange'
      rwa [← hothers id (Ne.symm hid)] at hold
  tasks task htask := by
    rw [update_tasks] at htask
    have hhas : ∀ id, s.changes.has id = true → (s.update changeId patch).changes.has id = true := by
      intro id hid
      obtain ⟨before, hbefore⟩ := JsMap.has_iff.mp hid
      rw [JsMap.has_iff, get?_update, hbefore]
      split
      · exact ⟨_, rfl⟩
      · exact ⟨_, rfl⟩
    have hknown := hgates.tasks task htask
    cases task with
    | added id rollbackOf => exact hhas id hknown
    | gate id gate => exact ⟨hhas id hknown.1, hknown.2⟩
    | verified id => trivial
  fresh id hnone := by
    rw [get?_update] at hnone
    split at hnone
    · rename_i hid
      subst hid
      rw [hchange] at hnone
      cases hnone
    · rename_i hid
      have hold : ∀ name, reports id name = none := hgates.fresh id hnone
      rwa [← hothers id (Ne.symm hid)] at hold

theorem gatesSound_write_iff (hsound : GatesSound checks (s, reports)) {change : Change} {reports' : Reports}
    {g : QualityGateResult} (hchange : s.changes.get? changeId = some change)
    (hothers : ∀ id, id ≠ changeId → reports' id = reports id) {patch : Change → Change}
    (hpatch : (patch change).qualityGate = g) :
    GatesSound checks (s.update changeId patch, reports') ↔ GateSound checks g (reports' changeId) := by
  constructor
  · intro h
    have hafter : (s.update changeId patch).changes.get? changeId = some (patch change) := by
      rw [get?_update, if_pos rfl, hchange, Option.map_some]
    rw [← hpatch]
    exact h changeId _ hafter
  · intro h id change' hchange'
    rw [get?_update] at hchange'
    split at hchange'
    · rename_i hid
      subst hid
      rw [hchange] at hchange'
      cases hchange'
      rw [hpatch]
      exact h
    · rename_i hid
      rw [show (s.update changeId patch, reports').2 id = reports id from hothers id (Ne.symm hid)]
      exact hsound id change' hchange'

end Reports

/-! ## One step -/

theorem sameGates_vote (p : Protocol) (s : State) (changeId : String) (op : Consensus.Op) :
    SameGates s (vote p s changeId op) := by
  unfold vote
  split
  · exact SameGates.refl s
  · split
    · exact sameGates_update s changeId fun _ => rfl
    · exact SameGates.refl s

theorem sameGates_proposeRollback (s : State) (id changeId reason : String) :
    SameGates s (proposeRollback s id changeId reason) := by
  unfold proposeRollback
  cases s.changes.get? changeId with
  | none => exact SameGates.refl s
  | some original => exact sameGates_propose s id _ _

theorem propose_tasks {s : State} {id : String} {input : ChangeProposal} {rollbackOf : Option (String × String)}
    {task : Task} (h : task ∈ (propose s id input rollbackOf).tasks) :
    task ∈ s.tasks ∨ task.Known checks (propose s id input rollbackOf) := by
  unfold propose at h ⊢
  split at h
  · rename_i hhas
    rw [if_pos hhas]
    exact .inl h
  · rename_i hnew
    rw [if_neg hnew]
    rcases List.mem_append.mp h with hold | hmem
    · exact .inl hold
    · rw [List.mem_singleton.mp hmem]
      exact .inr (JsMap.has_iff.mpr ⟨_, JsMap.get?_set_self ..⟩)

theorem proposeRollback_tasks {id reason : String} {task : Task} (h : task ∈ (proposeRollback s id changeId reason).tasks) :
    task ∈ s.tasks ∨ task.Known checks (proposeRollback s id changeId reason) := by
  unfold proposeRollback at h ⊢
  cases hchange : s.changes.get? changeId with
  | none =>
      rw [hchange] at h
      exact .inl h
  | some original =>
      rw [hchange] at h
      exact propose_tasks h

theorem step_same (checks : QualityGateChecks) (p : Protocol) (s : State) {op : Op}
    (h : ∀ changeId checkName result, op ≠ .updateQualityGate changeId checkName result)
    (hresume : ∀ i verification now id, op ≠ .resume i verification now id) :
    SameGates s (step checks p s op) ∧
      ∀ task ∈ (step checks p s op).tasks, task ∈ s.tasks ∨ task.Known checks (step checks p s op) := by
  cases op with
  | propose id input => exact ⟨sameGates_propose s id input none, fun _ => propose_tasks⟩
  | submitForReview changeId =>
      simp only [step, submitForReview]
      cases s.changes.get? changeId with
      | none => exact ⟨SameGates.refl s, fun _ => .inl⟩
      | some change =>
          simp only
          split
          · exact ⟨SameGates.refl s, fun _ => .inl⟩
          · refine ⟨sameGates_update s changeId fun _ => rfl, fun task htask => .inl ?_⟩
            change task ∈ (State.update s changeId _).tasks at htask
            rwa [update_tasks] at htask
  | vote changeId op =>
      refine ⟨sameGates_vote p s changeId op, fun task htask => .inl ?_⟩
      simp only [step, vote] at htask
      split at htask
      · exact htask
      · split at htask
        · simpa using htask
        · exact htask
  | updateQualityGate changeId checkName result => exact absurd rfl (h changeId checkName result)
  | markApplied changeId appliedAt =>
      exact ⟨sameGates_update s changeId fun _ => rfl, fun _ htask => .inl (by simpa [step, markApplied] using htask)⟩
  | markAppliedWithVerification changeId appliedAt =>
      simp only [step, markAppliedWithVerification]
      cases s.changes.get? changeId with
      | none => exact ⟨SameGates.refl s, fun _ => .inl⟩
      | some change =>
          have hsame : SameGates s (markApplied s changeId appliedAt) := sameGates_update s changeId fun _ => rfl
          refine ⟨⟨hsame.old, hsame.new⟩, fun task htask => ?_⟩
          rcases List.mem_append.mp htask with hold | hmem
          · exact .inl (by simpa [markApplied] using hold)
          · rw [List.mem_singleton.mp hmem]
            exact .inr trivial
  | proposeRollback id changeId reason =>
      exact ⟨sameGates_proposeRollback s id changeId reason, fun _ => proposeRollback_tasks⟩
  | markRolledBack changeId rolledBackAt =>
      exact ⟨sameGates_update s changeId fun _ => rfl, fun _ htask => .inl (by simpa [step, markRolledBack] using htask)⟩
  | resume i verification now id => exact absurd rfl (hresume i verification now id)
  | fail i =>
      have hsame := SameGates.refl s
      exact ⟨⟨hsame.old, hsame.new⟩, fun task htask => .inl ((List.eraseIdx_sublist s.tasks i).subset htask)⟩

theorem resume_gate (reports : Reports) (hconf : checks.configured ≠ []) (verification : QualityGateResult)
    (now id : String) (hgates : Gates checks (s, reports)) (hhas : s.changes.has changeId = true) :
    Gates checks (resume checks s verification now id (.gate changeId (runQualityGate checks)), reports) ∧
      (GatesSound checks (s, reports) →
        (GatesSound checks (resume checks s verification now id (.gate changeId (runQualityGate checks)), reports) ↔
          Overwrites checks (reports changeId))) := by
  obtain ⟨change, hchange⟩ := JsMap.has_iff.mp hhas
  have hpatch : ({ change with qualityGate := runQualityGate checks } : Change).qualityGate = runQualityGate checks :=
    rfl
  refine ⟨hgates.write hchange (fun _ _ => rfl) (gateShape_pending checks (reports changeId)) hpatch, fun hsound => ?_⟩
  exact (gatesSound_write_iff hsound hchange (fun _ _ => rfl) hpatch).trans (gateSound_pending hconf)

theorem resume_added (reports : Reports) (hconf : checks.configured ≠ []) (verification : QualityGateResult)
    (now id : String) (rollbackOf : Option (String × String)) (hgates : Gates checks (s, reports))
    (hhas : s.changes.has changeId = true) :
    Gates checks (resume checks s verification now id (.added changeId rollbackOf), reports) ∧
      (GatesSound checks (s, reports) →
        (GatesSound checks (resume checks s verification now id (.added changeId rollbackOf), reports) ↔
          Overwrites checks (reports changeId))) := by
  obtain ⟨hwritten, hiff⟩ := resume_gate reports hconf verification now id hgates hhas
  -- the rest of the task changes no gate
  have hsame : SameGates (resume checks s verification now id (.gate changeId (runQualityGate checks)))
      (resume checks s verification now id (.added changeId rollbackOf)) := by
    cases rollbackOf with
    | none =>
        have hrefl := SameGates.refl (resume checks s verification now id (.gate changeId (runQualityGate checks)))
        exact ⟨hrefl.old, hrefl.new⟩
    | some rollback =>
        have hlink : SameGates _ (resume checks s verification now id (.added changeId (some rollback))) :=
          sameGates_update (resume checks s verification now id (.added changeId none)) rollback.1 fun _ => rfl
        exact ⟨hlink.old, hlink.new⟩
  have htasks : ∀ task ∈ (resume checks s verification now id (.added changeId rollbackOf)).tasks,
      task ∈ s.tasks ∨ task = .gate changeId (runQualityGate checks) := by
    intro task htask
    cases rollbackOf with
    | none => simpa [resume] using htask
    | some rollback => simpa [resume] using htask
  refine ⟨hwritten.same hsame fun task htask => ?_, fun hsound => ?_⟩
  · rcases htasks task htask with hold | rfl
    · exact .inl (by simpa [resume] using hold)
    · obtain ⟨change, hchange⟩ := JsMap.has_iff.mp hhas
      have hafter : (resume checks s verification now id (.gate changeId (runQualityGate checks))).changes.has changeId =
          true := by
        rw [JsMap.has_iff, resume, get?_update, if_pos rfl, hchange]
        exact ⟨_, rfl⟩
      exact .inr ⟨hsame.has hafter, rfl⟩
  · rw [← hiff hsound]
    exact ⟨fun h => h.of_same hsame, fun h => h.same hwritten hsame⟩

theorem report_step (reports : Reports) (hconf : checks.configured ≠ []) (p : Protocol) (checkName : String)
    (result : CheckResult) (hgates : Gates checks (s, reports)) {change : Change}
    (hchange : s.changes.get? changeId = some change) :
    let t' := withHistory (step checks p) noteReport (s, reports) (.updateQualityGate changeId checkName result)
    Gates checks t' ∧
      (GatesSound checks (s, reports) → (GatesSound checks t' ↔ change.qualityGate.checks ≠ [] ∧
        (checks.checkTestCoverage = true → (change.qualityGate.report checkName result).passed = false))) := by
  have hnote : noteReport reports s (.updateQualityGate changeId checkName result) =
      Function.update reports changeId (Function.update (reports changeId) checkName (some result)) := by
    rw [noteReport, if_pos (JsMap.has_iff.mpr ⟨change, hchange⟩)]
  have hothers : ∀ id, id ≠ changeId →
      noteReport reports s (.updateQualityGate changeId checkName result) id = reports id := by
    intro id hid
    rw [hnote, Function.update_of_ne hid]
  have hown : noteReport reports s (.updateQualityGate changeId checkName result) changeId =
      Function.update (reports changeId) checkName (some result) := by
    rw [hnote, Function.update_self]
  have hshape := hgates.shape changeId change hchange
  have hpatch : ({ change with qualityGate := change.qualityGate.report checkName result } : Change).qualityGate =
      change.qualityGate.report checkName result := rfl
  refine ⟨hgates.write hchange hothers (hown ▸ hshape.report checkName result) hpatch, fun hsound => ?_⟩
  refine (gatesSound_write_iff hsound hchange hothers hpatch).trans ?_
  rw [hown]
  exact gateSound_report hconf hshape (hsound changeId change hchange) checkName result

theorem step_gates (hconf : checks.configured ≠ []) (p : Protocol) (t : State × Reports) (op : Op)
    (hgates : Gates checks t) :
    Gates checks (withHistory (step checks p) noteReport t op) ∧
      (GatesSound checks t → (GatesSound checks (withHistory (step checks p) noteReport t op) ↔
        KeepsGates checks t op)) := by
  obtain ⟨s, reports⟩ := t
  have hother (hreport : ∀ changeId checkName result, op ≠ .updateQualityGate changeId checkName result)
      (hresume : ∀ i verification now id, op ≠ .resume i verification now id) :
      Gates checks (step checks p s op, reports) ∧
        (GatesSound checks (s, reports) → GatesSound checks (step checks p s op, reports)) := by
    obtain ⟨hsame, htasks⟩ := step_same checks p s hreport hresume
    exact ⟨hgates.same hsame htasks, fun hsound => hsound.same hgates hsame⟩
  cases op with
  | updateQualityGate changeId checkName result =>
      cases hchange : s.changes.get? changeId with
      | none =>
          have hstep : withHistory (step checks p) noteReport (s, reports) (.updateQualityGate changeId checkName result) =
              (s, reports) := by
            simp [withHistory, step, updateQualityGate, State.update, noteReport, hchange, JsMap.has_eq_false.mpr hchange]
          rw [hstep]
          exact ⟨hgates, fun hsound => iff_of_true hsound (by simp [KeepsGates, hchange])⟩
      | some change =>
          obtain ⟨hafter, hiff⟩ := report_step reports hconf p checkName result hgates hchange
          refine ⟨hafter, fun hsound => (hiff hsound).trans ?_⟩
          simp [KeepsGates, hchange]
  | resume i verification now id =>
      simp only [withHistory, noteReport, step, KeepsGates]
      cases htask : s.tasks[i]? with
      | none => exact ⟨hgates, fun hsound => iff_of_true hsound (by simp)⟩
      | some task =>
          have hrest : ∀ task ∈ s.tasks.eraseIdx i, task ∈ s.tasks := fun task hmem =>
            (List.eraseIdx_sublist s.tasks i).subset hmem
          have hgates' : Gates checks ({ s with tasks := s.tasks.eraseIdx i }, reports) :=
            ⟨hgates.shape, fun task hmem => hgates.tasks task (hrest task hmem), hgates.fresh⟩
          have hknown := hgates.tasks task (List.mem_of_getElem? htask)
          simp only [Option.bind_some]
          cases task with
          | added changeId rollbackOf =>
              simp only [Task.writes?, Option.mem_def, Option.some.injEq, forall_eq']
              exact resume_added reports hconf verification now id rollbackOf hgates' hknown
          | gate changeId gate =>
              obtain ⟨hhas, rfl⟩ := hknown
              simp only [Task.writes?, Option.mem_def, Option.some.injEq, forall_eq']
              exact resume_gate reports hconf verification now id hgates' hhas
          | verified changeId =>
              have htasks : GatesSound checks (s, reports) →
                  GatesSound checks ({ s with tasks := s.tasks.eraseIdx i }, reports) := fun hsound => hsound
              simp only [resume]
              split
              · exact ⟨hgates', fun hsound => iff_of_true (htasks hsound) (by simp [Task.writes?])⟩
              · have hsame := sameGates_proposeRollback { s with tasks := s.tasks.eraseIdx i } id changeId
                  "Quality gate failed after apply"
                exact ⟨hgates'.same hsame fun _ => proposeRollback_tasks,
                  fun hsound => iff_of_true ((htasks hsound).same hgates' hsame) (by simp [Task.writes?])⟩
  | propose | submitForReview | vote | markApplied | markAppliedWithVerification | proposeRollback | markRolledBack
    | fail =>
      obtain ⟨hafter, hsound⟩ := hother (by simp) (by simp)
      exact ⟨hafter, fun h => iff_of_true (hsound h) trivial⟩

/-! ## Every run -/

/-- The state and the reports after a run. -/
def after (checks : QualityGateChecks) (p : Protocol) (ops : List Op) : State × Reports :=
  run (withHistory (step checks p) noteReport) ({}, fun _ _ => none) ops

theorem gates_start (checks : QualityGateChecks) : Gates checks ({}, fun _ _ => none) where
  shape := by simp
  tasks := by simp
  fresh _ _ _ := rfl

/-- In a run the lifecycle is kept and all gates are sound exactly if every step meets its condition. -/
theorem lifecycle_and_gates_iff (checks : QualityGateChecks) (p : Protocol) (ops : List Op)
    (hconf : checks.configured ≠ []) :
    ((∀ pre op, pre ++ [op] <+: ops → Lifecycle (after checks p pre).1 (after checks p (pre ++ [op])).1) ∧
        ∀ pre, pre <+: ops → GatesSound checks (after checks p pre)) ↔
      Under (withHistory (step checks p) noteReport) (Keeps checks) ({}, fun _ _ => none) ops := by
  unfold Keeps
  rw [under_and]
  refine and_congr ?_ ?_
  · rw [under_iff_forall_concat]
    refine forall_congr' fun pre => forall_congr' fun op => imp_congr_right fun _ => ?_
    rw [after, after, run_concat]
    exact lifecycle_step_iff checks p _ op
  · refine forall_prefix_iff_under (I := Gates checks) ?_ ?_ (gates_start checks) (fun _ _ h => nomatch h) ops
    · exact fun t op hgates => (step_gates hconf p t op hgates).1
    · exact fun t op hgates hsound => (step_gates hconf p t op hgates).2 hsound

def refactoring : ChangeProposal :=
  { title := "Refactor", description := "", files := [], proposedBy := "a" }

/-- A change that is proposed and marked as applied at once. -/
def bypass : List Op := [.propose "c" refactoring, .markApplied "c" "now"]

/-- The tests are reported while the first write of the gate is on its way to the file. -/
def lostReport : List Op :=
  [.propose "c" refactoring, .resume 0 { passed := true, checks := [] } "now" "r",
    .updateQualityGate "c" "tests" { passed := true }, .resume 0 { passed := true, checks := [] } "now" "r"]

theorem lifecycle_and_gates_reported :
    (∀ pre op, pre ++ [op] <+: lostReport.take 3 → Lifecycle (after {} {} pre).1 (after {} {} (pre ++ [op])).1) ∧
        ∀ pre, pre <+: lostReport.take 3 → GatesSound {} (after {} {} pre) :=
  (lifecycle_and_gates_iff {} {} (lostReport.take 3) (by decide)).mpr (by decide +kernel)

/-- The lifecycle is bypassed, and a report is lost. -/
theorem lifecycle_bypassed :
    ¬Lifecycle (after {} {} (bypass.take 1)).1 (after {} {} bypass).1 ∧ ¬GatesSound {} (after {} {} lostReport) := by
  constructor
  · have hmark : ¬KeepsLifecycle (after {} {} (bypass.take 1)).1 (.markApplied "c" "now") := by decide +kernel
    exact fun h => hmark ((lifecycle_step_iff {} {} _ _).mp h)
  · intro h
    have hlost : ∀ change ∈ (after {} {} lostReport).1.changes.get? "c", ∀ entry ∈ change.qualityGate.checks,
        entry.name = "tests" → ¬entry.Shows { passed := true } := by decide +kernel
    have hthere : (after {} {} lostReport).1.changes.has "c" = true := by decide +kernel
    obtain ⟨change, hchange⟩ := JsMap.has_iff.mp hthere
    have hreported : (after {} {} lostReport).2 "c" "tests" = some { passed := true } := by decide +kernel
    obtain ⟨entry, hentry, hname, hshows⟩ := (h "c" change hchange).latest .tests (by decide) "tests" _ rfl hreported
    exact hlost change hchange entry hentry hname hshows

end WrongStack.Changes
