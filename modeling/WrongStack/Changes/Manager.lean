import WrongStack.Consensus.Protocol

/-!
# The lifecycle of code changes

`ChangeManager` (`core/src/coordination/change-manager.ts`) over the changes of the knowledge graph. The graph is
written at once, what a method does after an `await` is a task of its own.
-/

namespace WrongStack.Changes

open Lib Consensus

/-! ## Data -/

inductive FileAction
  | create | modify | delete
  deriving DecidableEq

structure ChangeFile where
  path : String
  action : FileAction
  deriving DecidableEq

structure QualityCheck where
  name : String
  passed : Bool
  detail : Option String := none
  deriving DecidableEq

structure QualityGateResult where
  passed : Bool
  checks : List QualityCheck
  deriving DecidableEq

structure Change extends ChangeNode where
  title : String
  description : String
  files : List ChangeFile
  appliedAt : Option String := none
  rolledBackAt : Option String := none
  rollbackReason : Option String := none
  qualityGate : QualityGateResult := { passed := false, checks := [] }
  satisfiesGoals : List String := []
  deriving DecidableEq

structure ChangeProposal where
  title : String
  description : String
  files : List ChangeFile
  proposedBy : String
  satisfiesGoals : List String := []

structure QualityGateChecks where
  runTests : Bool := true
  runTypecheck : Bool := true
  runLint : Bool := false
  runSecurityScan : Bool := true
  checkTestCoverage : Bool := false

/-- What an agent reports on a check; the detail can be missing, or undefined. -/
structure CheckResult where
  passed : Bool
  detail : Option (Option String) := none
  deriving DecidableEq

/-! ## The quality gate -/

/-- The checks that `_runQualityGate` lists: all pending. -/
def pendingChecks (checks : QualityGateChecks) : List QualityCheck :=
  (if checks.runTests then [{ name := "tests", passed := false, detail := "Tests must be run by a verify agent" }]
    else []) ++
  (if checks.runTypecheck then [{ name := "typecheck", passed := false, detail := "TypeScript must compile" }]
    else []) ++
  (if checks.runSecurityScan then [{ name := "security", passed := false, detail := "Security scan must pass" }]
    else []) ++
  (if checks.runLint then [{ name := "lint", passed := false, detail := "Lint check" }] else [])

def runQualityGate (checks : QualityGateChecks) : QualityGateResult where
  passed := (pendingChecks checks).isEmpty
  checks := pendingChecks checks

/-- `{ ...c, ...result }` -/
def QualityCheck.spread (c : QualityCheck) (result : CheckResult) : QualityCheck :=
  { c with passed := result.passed, detail := result.detail.getD c.detail }

def QualityGateResult.report (gate : QualityGateResult) (checkName : String) (result : CheckResult) :
    QualityGateResult :=
  let checks := gate.checks.map fun c => if c.name = checkName then c.spread result else c
  { passed := checks.all QualityCheck.passed, checks := checks }

/-! ## State -/

/-- What is left to do when an `await` is over. -/
inductive Task
  /-- `propose` after `graph.add`; then `proposeRollback`, if that has called it. -/
  | added (changeId : String) (rollbackOf : Option (String × String))
  /-- The `then` of the quality gate. -/
  | gate (changeId : String) (gate : QualityGateResult)
  /-- `markAppliedWithVerification` after `verify`. -/
  | verified (changeId : String)

structure State where
  changes : JsMap String Change := .empty
  tasks : List Task := []

variable (checks : QualityGateChecks) (p : Protocol)

/-- `graph.update` -/
def State.update (s : State) (changeId : String) (patch : Change → Change) : State :=
  match s.changes.get? changeId with
  | none => s
  | some change => { s with changes := s.changes.set changeId (patch change) }

/-! ## Methods -/

/-- `propose` up to its first await. `randomUUID` gives no id twice. -/
def propose (s : State) (id : String) (input : ChangeProposal) (rollbackOf : Option (String × String)) : State :=
  if s.changes.has id then s
  else
    let change : Change :=
      { proposedBy := input.proposedBy
        title := input.title
        description := input.description
        files := input.files
        satisfiesGoals := input.satisfiesGoals }
    { s with changes := s.changes.set id change, tasks := s.tasks ++ [.added id rollbackOf] }

def submitForReview (s : State) (changeId : String) : Except String State :=
  match s.changes.get? changeId with
  | none => .error s!"ChangeManager: no change found \"{changeId}\""
  | some change =>
      if change.status ≠ .proposed then
        .error s!"ChangeManager: change \"{changeId}\" is not in 'proposed' state"
      else .ok (s.update changeId fun change => { change with status := .proposed, votes := [] })

/-- A call of the consensus protocol, which sees the same node. -/
def vote (s : State) (changeId : String) (op : Consensus.Op) : State :=
  match s.changes.get? changeId with
  | none => s
  | some change =>
      match (Consensus.step p changeId (JsMap.empty.set changeId (.change change.toChangeNode)) op).get? changeId with
      | some (.change node) => s.update changeId fun change => { change with toChangeNode := node }
      | _ => s

def markApplied (s : State) (changeId : String) (appliedAt : String) : State :=
  s.update changeId fun change => { change with status := .applied, appliedAt := some appliedAt }

def markAppliedWithVerification (s : State) (changeId : String) (appliedAt : String) : Except String State :=
  match s.changes.get? changeId with
  | none => .error s!"ChangeManager: unknown change \"{changeId}\""
  | some _ =>
      let s := markApplied s changeId appliedAt
      .ok { s with tasks := s.tasks ++ [.verified changeId] }

def reverse : FileAction → FileAction
  | .create => .delete
  | .delete => .create
  | .modify => .modify

def proposeRollback (s : State) (id : String) (appliedChangeId : String) (reason : String) : State :=
  match s.changes.get? appliedChangeId with
  | none => s
  | some original =>
      let appliedAt := original.appliedAt.getD "undefined"
      propose s id
        { title := s!"Rollback: {original.title}"
          description := s!"Rollback of \"{original.title}\" applied at {appliedAt}. Reason: {reason}"
          files := original.files.map fun f => { f with action := reverse f.action }
          proposedBy := "change-manager" }
        (some (appliedChangeId, reason))

def markRolledBack (s : State) (changeId : String) (rolledBackAt : String) : State :=
  s.update changeId fun change => { change with status := .rolledBack, rolledBackAt := some rolledBackAt }

def updateQualityGate (s : State) (changeId : String) (checkName : String) (result : CheckResult) : State :=
  s.update changeId fun change => { change with qualityGate := change.qualityGate.report checkName result }

/-- A task goes on. `verification`, `now` and `id` are what it gets from outside. -/
def resume (s : State) (verification : QualityGateResult) (now id : String) : Task → State
  | .added changeId rollbackOf =>
      let gate := runQualityGate checks
      let s := s.update changeId fun change => { change with qualityGate := gate }
      let s := { s with tasks := s.tasks ++ [.gate changeId gate] }
      match rollbackOf with
      | none => s
      | some (original, reason) => s.update original fun change =>
          { change with rolledBackAt := some now, rollbackReason := some reason }
  | .gate changeId gate => s.update changeId fun change => { change with qualityGate := gate }
  | .verified changeId =>
      if verification.passed then s else proposeRollback s id changeId "Quality gate failed after apply"

/-! ## Steps -/

inductive Op
  | propose (id : String) (input : ChangeProposal)
  | submitForReview (changeId : String)
  | vote (changeId : String) (op : Consensus.Op)
  | updateQualityGate (changeId checkName : String) (result : CheckResult)
  | markApplied (changeId appliedAt : String)
  | markAppliedWithVerification (changeId appliedAt : String)
  | proposeRollback (id appliedChangeId reason : String)
  | markRolledBack (changeId rolledBackAt : String)
  | resume (i : Nat) (verification : QualityGateResult) (now id : String)
  /-- The `await` of a task throws. -/
  | fail (i : Nat)

def step (s : State) : Op → State
  | .propose id input => propose s id input none
  | .submitForReview changeId => (submitForReview s changeId).toOption.getD s
  | .vote changeId op => vote p s changeId op
  | .updateQualityGate changeId checkName result => updateQualityGate s changeId checkName result
  | .markApplied changeId appliedAt => markApplied s changeId appliedAt
  | .markAppliedWithVerification changeId appliedAt =>
      (markAppliedWithVerification s changeId appliedAt).toOption.getD s
  | .proposeRollback id appliedChangeId reason => proposeRollback s id appliedChangeId reason
  | .markRolledBack changeId rolledBackAt => markRolledBack s changeId rolledBackAt
  | .resume i verification now id =>
      match s.tasks[i]? with
      | none => s
      | some task => resume checks { s with tasks := s.tasks.eraseIdx i } verification now id task
  | .fail i => { s with tasks := s.tasks.eraseIdx i }

end WrongStack.Changes
