import Mathlib.Data.Finset.SDiff
import WrongStack.Sdd.TaskTracker

/-!
# The worktree manager

What `WorktreeManager` (`core/src/worktree/worktree-manager.ts`) does to the base branch and to the
main checkout. A method suspends at every git command; `advance` takes it from one command to the
next, given what came of the command. What happens inside a worktree touches neither the base nor the
main checkout, so all that is kept of it is whether its squash changes the base.
-/

namespace WrongStack.Worktree

open Lib

abbrev Sha := Nat

/-- A squash commit on the base branch and the task whose `merge` made it. -/
structure Commit where
  sha : Sha
  taskId : Sdd.TaskId
  deriving DecidableEq

/-- The base branch and the index of the main checkout. `logs` has, for every commit ever made, what
`git log` lists from it, newest first; commits older than the run are not listed. -/
structure Repo where
  logs : JsMap Sha (List Commit) := .empty
  tip : Sha := 0
  staged : List Sdd.TaskId := []
  nextSha : Sha := 1

namespace Repo

variable (r : Repo)

def log (sha : Sha) : List Commit := (r.logs.get? sha).getD []

def stage (taskId : Sdd.TaskId) (changes : Bool) : Repo :=
  if changes then { r with staged := r.staged ++ [taskId] } else r

/-- `git commit`, run by the `merge` of `taskId`. It takes all that is staged, by whomever; with
nothing staged it prints `nothing to commit`. -/
def commit (taskId : Sdd.TaskId) : Repo :=
  if r.staged.isEmpty then r
  else
    { logs := r.logs.set r.nextSha ({ sha := r.nextSha, taskId } :: r.log r.tip)
      tip := r.nextSha
      staged := []
      nextSha := r.nextSha + 1 }

/-- `git reset --hard` -/
def reset (sha : Sha) : Repo := { r with tip := sha, staged := [] }

end Repo

/-- What a verifier answers. -/
inductive Verdict
  | ok
  | rejected (reason : Option String)
  | threw (err : String)
  deriving DecidableEq

/-- What comes of the call that a method is suspended at: a git command, the conflict resolver or
the verifier. Each stage reads the fields it asks for. -/
structure Answer where
  throws : Bool := false
  /-- the command exits with 0, or the commit has nothing to commit -/
  succeeds : Bool := true
  /-- the paths that `git merge --squash` or `git diff --diff-filter=U` names as conflicted -/
  conflictFiles : List String := []
  conflict : Bool := false
  /-- what is staged differs from the base -/
  changes : Bool := true
  resolved : Bool := false
  markers : Bool := false
  verdict : Verdict := .ok
  deriving DecidableEq

/-- The command at which `merge` is suspended. -/
inductive MergeStage
  | checkout
  | squash
  | commit
  | unmergedFiles (fromOutput : List String)
  | resolve (conflictFiles : List String)
  | addResolved (conflictFiles : List String)
  | hasConflictMarkers (conflictFiles : List String)
  | commitResolved (conflictFiles : List String)
  | resetHead (conflictFiles : List String)
  deriving DecidableEq

inductive MergeResult
  | ok (resolved : Bool)
  | notOk (conflictFiles : List String)
  deriving DecidableEq

/-- A rejection here stays inside `merge`. -/
def MergeStage.catches : MergeStage → Bool
  | .resolve _ => true
  | _ => false

/-- `merge` with `squash`, and `tryResolveConflict` in it when `resolve` is given. -/
def MergeStage.advance (resolve : Bool) (taskId : Sdd.TaskId) (r : Repo) (a : Answer) :
    MergeStage → Repo × (MergeStage ⊕ MergeResult)
  | .checkout => (r, if a.succeeds then .inl .squash else .inr (.notOk []))
  | .squash =>
      if a.conflict then (r, .inl (.unmergedFiles a.conflictFiles))
      else (r.stage taskId a.changes, .inl .commit)
  | .commit => if a.succeeds then (r.commit taskId, .inr (.ok false)) else (r, .inr (.notOk []))
  | .unmergedFiles fromOutput =>
      let conflictFiles := (fromOutput ++ a.conflictFiles).eraseDups
      (r, .inl (if resolve then .resolve conflictFiles else .resetHead conflictFiles))
  -- a resolver that throws has not resolved
  | .resolve files =>
      (r, .inl (if a.resolved && !a.throws then .addResolved files else .resetHead files))
  | .addResolved files => (r.stage taskId a.changes, .inl (.hasConflictMarkers files))
  | .hasConflictMarkers files =>
      (r, .inl (if a.markers then .resetHead files else .commitResolved files))
  | .commitResolved files =>
      if a.succeeds then (r.commit taskId, .inr (.ok true)) else (r, .inl (.resetHead files))
  -- the work is safe on the branch
  | .resetHead files => (r.reset r.tip, .inr (.notOk files))

end WrongStack.Worktree

/-!
# Integrating a worktree into the base

`integrateWorktree` (`core/src/sdd/sdd-parallel-run.ts`), which squash-merges the work of one task,
re-verifies a merge that the conflict resolver made and enters the commit into `mergedCommits`. The
calls of several tasks run at once: each is a `Stage`, and they share a `Base`.
-/

namespace WrongStack.Worktree

open Lib

/-- Whether the run has a `conflictResolver` and a `verifyTask`. -/
structure Options where
  conflictResolver : Bool
  verifyTask : Bool
  deriving DecidableEq

/-- What the calls share. `mergedCommits` is the ledger that `rollback` reverts. -/
structure Base where
  repo : Repo := {}
  mergedCommits : List Commit := []

inductive Outcome
  | ok
  | regressed (reason : String)
  | conflict (conflictFiles : List String)
  deriving DecidableEq

/-- The command at which a call is suspended, and the variables that are still needed. -/
inductive Stage
  | commitAll
  | baseShaBefore
  | merging (baseShaBefore : Option Sha) (m : MergeStage)
  | reverify (baseSha : Sha)
  | revertCheckout (baseSha : Sha) (regressed : String)
  | revertReset (baseSha : Sha) (regressed : String)
  | baseShaAfter (baseShaBefore : Option Sha)
  | release (outcome : Outcome)
  deriving DecidableEq

/-- The reason for which a re-verification undoes the merge. -/
def Verdict.regressed : Verdict → Option String
  | .ok => none
  | .rejected reason => some (reason.getD "verification failed after conflict resolution")
  | .threw err => some s!"verification error after conflict resolution: {err}"

/-- The stage after a `merge` that has returned. -/
def afterMerge (o : Options) (baseShaBefore : Option Sha) : MergeResult → Stage
  | .notOk conflictFiles => .release (.conflict conflictFiles)
  | .ok resolved =>
      match baseShaBefore with
      | some baseSha =>
          if resolved && o.verifyTask then .reverify baseSha else .baseShaAfter baseShaBefore
      | none => .baseShaAfter none

/-- `mergedCommits.push`, when the tip has moved. -/
def Base.record (b : Base) (taskId : Sdd.TaskId) (before after : Option Sha) : Base :=
  match after with
  | some sha =>
      if after = before then b
      else { b with mergedCommits := b.mergedCommits ++ [{ sha, taskId }] }
  | none => b

def Stage.advance (o : Options) (taskId : Sdd.TaskId) (b : Base) (a : Answer) :
    Stage → Base × (Stage ⊕ Outcome)
  -- a rejected revert or release of a merge that failed is swallowed
  | .revertCheckout baseSha reason =>
      (b, .inl (if a.succeeds && !a.throws then .revertReset baseSha reason
        else .release (.regressed reason)))
  | .revertReset baseSha reason =>
      (if a.succeeds && !a.throws then { b with repo := b.repo.reset baseSha } else b,
        .inl (.release (.regressed reason)))
  | .release outcome =>
      (b, .inr (if a.throws && outcome = .ok then .conflict [] else outcome))
  | .reverify baseSha =>
      (b, .inl (match a.verdict.regressed with
        | some reason => .revertCheckout baseSha reason
        | none => .baseShaAfter (some baseSha)))
  -- any other rejection ends in the `catch` of `integrateWorktree`
  | .commitAll => (b, if a.throws then .inr (.conflict []) else .inl .baseShaBefore)
  | .baseShaBefore =>
      (b, if a.throws then .inr (.conflict [])
        else .inl (.merging (if a.succeeds then some b.repo.tip else none) .checkout))
  | .merging before m =>
      if a.throws && !m.catches then (b, .inr (.conflict []))
      else
        match m.advance o.conflictResolver taskId b.repo a with
        | (repo, .inl m) => ({ b with repo }, .inl (.merging before m))
        | (repo, .inr result) => ({ b with repo }, .inl (afterMerge o before result))
  | .baseShaAfter before =>
      if a.throws then (b, .inr (.conflict []))
      else (b.record taskId before (if a.succeeds then some b.repo.tip else none), .inl (.release .ok))

/-! ## Concurrent calls -/

structure Integrations where
  base : Base := {}
  running : JsMap Sdd.TaskId Stage := .empty

inductive Op
  /-- `executeOne` of the task calls `integrateWorktree` -/
  | integrate (taskId : Sdd.TaskId)
  /-- the call of the task goes on -/
  | answer (taskId : Sdd.TaskId) (a : Answer)
  deriving DecidableEq

def step (o : Options) (s : Integrations) : Op → Integrations
  | .integrate taskId =>
      if s.running.has taskId then s
      else { s with running := s.running.set taskId .commitAll }
  | .answer taskId a =>
      match s.running.get? taskId with
      | none => s
      | some stage =>
          match stage.advance o taskId s.base a with
          | (base, .inl stage) => { base, running := s.running.set taskId stage }
          | (base, .inr _) => { base, running := s.running.delete taskId }

end WrongStack.Worktree

/-!
# What the commands do to contents

`commitAll`, `merge`, `revertBaseTo` and `release` of `WorktreeManager`
(`core/src/worktree/worktree-manager.ts`) and `integrateWorktree` (`core/src/sdd/sdd-parallel-run.ts`),
each from its call to its return, with what the base branch, the main checkout and a worktree contain. A
content is the set of the changes that it has. Merges are run one at a time, so a call runs each of its
commands at most once, and `Answers` has what comes of them.
-/

namespace WrongStack.Worktree

variable {κ : Type} [DecidableEq κ]

/-- `unmerged` is whether the index has conflicts. -/
structure Checkout (κ : Type) where
  index : Finset κ
  files : Finset κ
  unmerged : Bool := false
  deriving DecidableEq

inductive WorktreeStatus
  | allocating | active | committing | merging | merged | needsReview | failed
  deriving DecidableEq

/-- A handle, with the repository around it: the tip of the base branch, the main checkout, what the
branch of the worktree was forked from, its tip and its checkout. -/
structure Site (κ : Type) where
  tip : Finset κ
  main : Checkout κ
  fork : Finset κ
  branch : Finset κ
  worktree : Checkout κ
  status : WorktreeStatus := .active
  removed : Bool := false
  branchDeleted : Bool := false

/-- What comes of the commands, `true` for one that succeeds, and of the callbacks. -/
structure Answers (κ : Type) where
  add : Bool := true
  /-- not refused by a hook, or for another reason than that there is nothing to commit -/
  commit : Bool := true
  baseHead : Bool := true
  checkout : Bool := true
  /-- what a merge that fails leaves in the main checkout -/
  mergeFails : Option (Checkout κ) := none
  fromOutput : List String := []
  fromIndex : List String := []
  /-- the resolver's answer, `false` when it throws, and the files it leaves -/
  resolved : Bool := false
  edited : Finset κ := ∅
  addResolved : Bool := true
  markers : Bool := false
  commitMerge : Bool := true
  reset : Bool := true
  verdict : Verdict := .ok
  revertCheckout : Bool := true
  revertReset : Bool := true
  removeWorktree : Bool := true
  deleteBranch : Bool := true

inductive CommitResult
  | committed
  | nothingToCommit
  | failed
  deriving DecidableEq

/-- `git add -A` -/
def Checkout.addAll (c : Checkout κ) (succeeds : Bool) : Checkout κ :=
  if succeeds then { c with index := c.files, unmerged := false } else c

/-- `git commit` on the branch with this tip -/
def Checkout.commit (c : Checkout κ) (tip : Finset κ) (succeeds : Bool) : CommitResult :=
  if c.unmerged || !succeeds then .failed
  else if c.index = tip then .nothingToCommit
  else .committed

namespace Site

variable (s : Site κ) (a : Answers κ)

/-- The index and the files of the main checkout are those of the tip. -/
def clean : Checkout κ := { index := s.tip, files := s.tip }

def commitAll : Site κ :=
  let worktree := s.worktree.addAll a.add
  let s := { s with worktree, status := .committing }
  -- `git diff --cached --quiet`
  if worktree.index = s.branch && !worktree.unmerged then s
  else
    match worktree.commit s.branch a.commit with
    | .committed => { s with branch := worktree.index }
    | _ => { s with status := .failed }

/-- Whether the conflict is resolved and committed. -/
def tryResolveConflict : Site κ × Bool :=
  let s := { s with main := { s.main with files := a.edited } }
  if !a.resolved then (s, false)
  else
    let s := { s with main := s.main.addAll a.addResolved }
    if a.markers then (s, false)
    else
      match s.main.commit s.tip a.commitMerge with
      | .failed => (s, false)
      | _ => ({ s with tip := s.main.index, status := .merged }, true)

/-- `merge` with `squash`. -/
def merge (resolve : Bool) : Site κ × MergeResult :=
  if !a.checkout then ({ s with status := .failed }, .notOk [])
  else
    match a.mergeFails with
    | some left =>
        let s := { s with main := left, status := .merging }
        let conflictFiles := (a.fromOutput ++ a.fromIndex).eraseDups
        let (s, finalized) := if resolve then s.tryResolveConflict a else (s, false)
        if finalized then (s, .ok true)
        else
          -- the work is safe on the branch
          ({ s with main := if a.reset then s.clean else s.main, status := .needsReview },
            .notOk conflictFiles)
    | none =>
        let staged := s.tip ∪ (s.branch \ s.fork)
        let s := { s with main := { index := staged, files := staged }, status := .merging }
        match s.main.commit s.tip a.commitMerge with
        | .failed => ({ s with status := .failed }, .notOk [])
        | _ => ({ s with tip := staged, status := .merged }, .ok false)

/-- `revertBaseTo` a tip of the base branch. -/
def revertBaseTo (tip : Finset κ) : Site κ :=
  if a.revertCheckout && a.revertReset then { s with tip, main := { index := tip, files := tip } } else s

/-- `release` with `keep: false`. -/
def release : Site κ :=
  if s.status = .needsReview ∨ s.status = .failed then s
  else { s with removed := a.removeWorktree, branchDeleted := a.deleteBranch }

def integrateWorktree (o : Options) : Site κ × Outcome :=
  match (s.commitAll a).merge a o.conflictResolver with
  | (merged, .ok resolved) =>
      match if resolved && o.verifyTask && a.baseHead then a.verdict.regressed else none with
      | some reason => ((merged.revertBaseTo a s.tip).release a, .regressed reason)
      | none => (merged.release a, .ok)
  | (merged, .notOk conflictFiles) => (merged.release a, .conflict conflictFiles)

end Site

end WrongStack.Worktree
