import Mathlib.Data.Finset.Insert
import WrongStack.Worktree.Manager

/-!
# What becomes of the work of a task
-/

namespace WrongStack.Worktree

variable {κ : Type} [DecidableEq κ]

theorem Checkout.commit_eq_failed (c : Checkout κ) (tip : Finset κ) (succeeds : Bool) :
    c.commit tip succeeds = .failed ↔ c.unmerged = true ∨ succeeds = false := by
  unfold Checkout.commit
  split
  · rename_i h
    simpa using h
  · rename_i h
    simp only [Bool.or_eq_true, Bool.not_eq_eq_eq_not, Bool.not_true] at h
    split <;> simpa using h

namespace Site

variable {s : Site κ} {a : Answers κ} {o : Options} {left : Checkout κ}

/-- The changes in the worktree that the branch was not forked with. -/
def work (s : Site κ) : Finset κ := s.worktree.files \ s.fork

/-- The change is still in the worktree or on its branch. -/
def Holds (s : Site κ) (c : κ) : Prop :=
  s.removed = false ∧ c ∈ s.worktree.files ∨ s.branchDeleted = false ∧ c ∈ s.branch

/-- The main checkout is clean, and the worktree is there. -/
structure Ready (s : Site κ) : Prop where
  clean : s.main = s.clean
  present : s.removed = false

/-! ## The commit in the worktree -/

/-- What the branch has when the worktree has been committed, as far as the commands let it. -/
def committed (s : Site κ) (a : Answers κ) : Finset κ :=
  if a.commit && (a.add || !s.worktree.unmerged) then
    if a.add then s.worktree.files else s.worktree.index
  else s.branch

theorem branch_commitAll (s : Site κ) (a : Answers κ) : (s.commitAll a).branch = s.committed a := by
  have hindex : (s.worktree.addAll a.add).index = if a.add then s.worktree.files else s.worktree.index := by
    unfold Checkout.addAll
    split <;> rfl
  have hunmerged : (!(s.worktree.addAll a.add).unmerged) = (a.add || !s.worktree.unmerged) := by
    unfold Checkout.addAll
    cases a.add <;> rfl
  simp only [commitAll, committed, ← hindex, ← hunmerged]
  generalize s.worktree.addAll a.add = worktree
  cases hu : worktree.unmerged
  · cases hc : a.commit
    · simp [Checkout.commit, hu]
      split <;> rfl
    · by_cases hi : worktree.index = s.branch
      · simp [hi]
      · simp [Checkout.commit, hu, hi]
  · simp [Checkout.commit, hu]

theorem commitAll_keeps (s : Site κ) (a : Answers κ) : (s.commitAll a).tip = s.tip ∧
    (s.commitAll a).main = s.main ∧ (s.commitAll a).fork = s.fork ∧
    (s.commitAll a).worktree.files = s.worktree.files ∧ (s.commitAll a).removed = s.removed := by
  have hfiles : (s.worktree.addAll a.add).files = s.worktree.files := by
    unfold Checkout.addAll
    split <;> rfl
  simp only [commitAll]
  split
  · exact ⟨rfl, rfl, rfl, hfiles, rfl⟩
  · split <;> exact ⟨rfl, rfl, rfl, hfiles, rfl⟩

/-! ## The merge -/

/-- The resolver says that it has resolved the conflict, no marker is left and its commit goes through. -/
def Resolves (a : Answers κ) (left : Checkout κ) (resolve : Bool) : Prop :=
  resolve = true ∧ a.resolved = true ∧ a.markers = false ∧ a.commitMerge = true ∧
    (a.addResolved = true ∨ left.unmerged = false)

/-- What the resolver has committed then. -/
def resolution (a : Answers κ) (left : Checkout κ) : Finset κ :=
  if a.addResolved then a.edited else left.index

/-- What is left in the main checkout for the reset to clean up. -/
def leftover (a : Answers κ) (left : Checkout κ) (resolve : Bool) : Checkout κ :=
  if !resolve then left
  else if a.resolved && a.addResolved then { index := a.edited, files := a.edited }
  else { left with files := a.edited }

theorem tryResolveConflict_spec (s : Site κ) (a : Answers κ) :
    (Resolves a s.main true ∧ (s.tryResolveConflict a).2 = true ∧
      (s.tryResolveConflict a).1 = { s with
        tip := resolution a s.main
        main := leftover a s.main true
        status := .merged }) ∨
    ¬ Resolves a s.main true ∧ (s.tryResolveConflict a).2 = false ∧
      (s.tryResolveConflict a).1 = { s with main := leftover a s.main true } := by
  cases hr : a.resolved with
  | false =>
      have heq : s.tryResolveConflict a = ({ s with main := { s.main with files := a.edited } }, false) := by
        simp [tryResolveConflict, hr]
      refine .inr ⟨by simp [Resolves, hr], by rw [heq], ?_⟩
      rw [heq]
      simp [leftover, hr]
  | true =>
      -- what `git add -A` has staged of the files that the resolver left
      have hadd : ({ s.main with files := a.edited } : Checkout κ).addAll a.addResolved =
          leftover a s.main true := by
        cases ha : a.addResolved <;> simp [Checkout.addAll, leftover, hr, ha]
      have hindex : (leftover a s.main true).index = resolution a s.main := by
        cases ha : a.addResolved <;> simp [leftover, resolution, hr, ha]
      have hunmerged : (leftover a s.main true).unmerged = false ↔
          a.addResolved = true ∨ s.main.unmerged = false := by
        cases ha : a.addResolved <;> simp [leftover, hr, ha]
      cases hm : a.markers with
      | true =>
          have heq : s.tryResolveConflict a = ({ s with main := leftover a s.main true }, false) := by
            simp only [tryResolveConflict, hr, hm, hadd]
            rfl
          exact .inr ⟨by simp [Resolves, hm], by rw [heq], by rw [heq]⟩
      | false =>
          have hfails := (leftover a s.main true).commit_eq_failed s.tip a.commitMerge
          cases hc : (leftover a s.main true).commit s.tip a.commitMerge with
          | failed =>
              have heq : s.tryResolveConflict a = ({ s with main := leftover a s.main true }, false) := by
                simp only [tryResolveConflict, hr, hm, hadd, hc]
                rfl
              refine .inr ⟨fun h => ?_, by rw [heq], by rw [heq]⟩
              obtain ⟨-, -, -, hcommit, hmerged⟩ := h
              rcases hfails.mp hc with hu | hno
              · rw [hunmerged.mpr hmerged] at hu
                cases hu
              · rw [hcommit] at hno
                cases hno
          | _ =>
              have heq : s.tryResolveConflict a = ({ s with
                  tip := resolution a s.main
                  main := leftover a s.main true
                  status := .merged }, true) := by
                simp only [tryResolveConflict, hr, hm, hadd, hc, hindex]
                rfl
              have hthrough := mt hfails.mpr (by rw [hc]; simp)
              simp only [not_or, Bool.not_eq_true, Bool.not_eq_false] at hthrough
              exact .inl ⟨⟨rfl, hr, hm, hthrough.2, hunmerged.mp hthrough.1⟩, by rw [heq], by rw [heq]⟩

theorem merge_cases (s : Site κ) (a : Answers κ) (resolve : Bool) :
    (a.checkout = false ∧ s.merge a resolve = ({ s with status := .failed }, .notOk [])) ∨
    a.checkout = true ∧
      ((a.mergeFails = none ∧ a.commitMerge = true ∧
          (s.merge a resolve).1.tip = s.tip ∪ (s.branch \ s.fork) ∧ (s.merge a resolve).2 = .ok false) ∨
        (a.mergeFails = none ∧ a.commitMerge = false ∧
          s.merge a resolve = ({ s with
            main := { index := s.tip ∪ (s.branch \ s.fork), files := s.tip ∪ (s.branch \ s.fork) }
            status := .failed }, .notOk [])) ∨
        ∃ left, a.mergeFails = some left ∧
          ((Resolves a left resolve ∧ (s.merge a resolve).1.tip = resolution a left ∧
              (s.merge a resolve).2 = .ok true) ∨
            ¬ Resolves a left resolve ∧ ∃ files, s.merge a resolve = ({ s with
              main := if a.reset then s.clean else leftover a left resolve
              status := .needsReview }, .notOk files))) := by
  cases hco : a.checkout with
  | false => exact .inl ⟨rfl, by simp [merge, hco]⟩
  | true =>
      refine .inr ⟨rfl, ?_⟩
      cases hm : a.mergeFails with
      | none =>
          cases hc : a.commitMerge with
          | false =>
              refine .inr (.inl ⟨rfl, rfl, ?_⟩)
              simp [merge, hco, hm, hc, Checkout.commit]
          | true =>
              refine .inl ⟨rfl, rfl, ?_⟩
              by_cases hi : s.tip ∪ (s.branch \ s.fork) = s.tip
              · simp [merge, hco, hm, hc, Checkout.commit, hi]
              · simp [merge, hco, hm, hc, Checkout.commit, hi]
      | some left =>
          refine .inr (.inr ⟨left, rfl, ?_⟩)
          cases resolve with
          | false =>
              refine .inr ⟨by simp [Resolves], (a.fromOutput ++ a.fromIndex).eraseDups, ?_⟩
              simp only [merge, hco, hm, leftover]
              rfl
          | true =>
              rcases tryResolveConflict_spec { s with main := left, status := .merging } a with
                ⟨hres, htrue, heq⟩ | ⟨hres, hfalse, heq⟩
              · refine .inl ⟨hres, ?_⟩
                simp only [merge, hco, hm, Bool.not_true, Bool.false_eq_true, if_false, if_true, htrue, heq]
                exact ⟨trivial, trivial⟩
              · refine .inr ⟨hres, (a.fromOutput ++ a.fromIndex).eraseDups, ?_⟩
                simp only [merge, hco, hm, Bool.not_true, Bool.false_eq_true, if_false, if_true, hfalse, heq]
                rfl

omit [DecidableEq κ] in
theorem tip_release (s : Site κ) (a : Answers κ) : (s.release a).tip = s.tip := by
  unfold release
  split <;> rfl

/-! ## Integrations -/

/-- When the integration returns `ok`, the base has all of the work. -/
def TakesWork (s : Site κ) (a : Answers κ) (o : Options) : Prop :=
  (s.integrateWorktree a o).2 = .ok → s.work ⊆ (s.integrateWorktree a o).1.tip

/-- When a merge returns that it is not `ok`, the base is as before, its checkout clean, and the work is
still in the worktree or on the branch. -/
def FailsSafely (s : Site κ) (a : Answers κ) (resolve : Bool) : Prop :=
  ∀ files, (s.merge a resolve).2 = .notOk files → (s.merge a resolve).1.tip = s.tip ∧
    (s.merge a resolve).1.main = s.clean ∧ ∀ c ∈ s.work, (s.merge a resolve).1.Holds c

/-- What is committed in the worktree, or by the resolver, has all of the work that the base lacks. -/
structure KeepsWork (s : Site κ) (a : Answers κ) (o : Options) : Prop where
  merged : a.checkout = true → a.mergeFails = none → a.commitMerge = true →
    s.work ⊆ s.tip ∪ (s.committed a \ s.fork)
  resolved : ∀ left, a.checkout = true → a.mergeFails = some left → Resolves a left o.conflictResolver →
    (o.verifyTask = true → a.baseHead = true → a.verdict.regressed = none) →
    s.work ⊆ resolution a left

/-- The squash commit is refused only when there is nothing to commit, and the reset succeeds when there
is something to reset. -/
structure CleansUp (s : Site κ) (a : Answers κ) (resolve : Bool) : Prop where
  refused : a.checkout = true → a.mergeFails = none → a.commitMerge = false → s.branch \ s.fork ⊆ s.tip
  reset : ∀ left, a.checkout = true → a.mergeFails = some left → ¬ Resolves a left resolve →
    a.reset = true ∨ leftover a left resolve = s.clean

/-- The reason for which a resolved merge is reverted. -/
def reverted (a : Answers κ) (o : Options) (resolved : Bool) : Option String :=
  if resolved && o.verifyTask && a.baseHead then a.verdict.regressed else none

/-- A merge that is `ok` makes the integration so, unless it is reverted. -/
theorem integrateWorktree_ok {resolved : Bool}
    (h : ((s.commitAll a).merge a o.conflictResolver).2 = .ok resolved) :
    (reverted a o resolved = none ∧ (s.integrateWorktree a o).2 = .ok ∧
      (s.integrateWorktree a o).1.tip = ((s.commitAll a).merge a o.conflictResolver).1.tip) ∨
    reverted a o resolved ≠ none ∧ (s.integrateWorktree a o).2 ≠ .ok := by
  unfold integrateWorktree reverted
  generalize (s.commitAll a).merge a o.conflictResolver = p at h ⊢
  obtain ⟨merged, result⟩ := p
  obtain rfl := h
  simp only
  generalize (if (resolved && o.verifyTask && a.baseHead) = true then a.verdict.regressed else none) = verdict
  cases verdict with
  | none => exact .inl ⟨rfl, rfl, tip_release merged a⟩
  | some reason => exact .inr ⟨by simp, by simp⟩

theorem integrateWorktree_notOk {files : List String}
    (h : ((s.commitAll a).merge a o.conflictResolver).2 = .notOk files) :
    (s.integrateWorktree a o).2 ≠ .ok := by
  unfold integrateWorktree
  generalize (s.commitAll a).merge a o.conflictResolver = p at h ⊢
  obtain ⟨merged, result⟩ := p
  obtain rfl := h
  simp

theorem takesWork_iff (s : Site κ) (a : Answers κ) (o : Options) : s.TakesWork a o ↔ s.KeepsWork a o := by
  obtain ⟨htip, -, hfork, -, -⟩ := commitAll_keeps s a
  rcases merge_cases (s.commitAll a) a o.conflictResolver with ⟨hco, heq⟩ | ⟨hco, hcases⟩
  · refine iff_of_true ?_ ⟨fun h => ?_, fun _ h => ?_⟩
    · simp [TakesWork, integrateWorktree, heq]
    · exact absurd (h.symm.trans hco) (by simp)
    · exact absurd (h.symm.trans hco) (by simp)
  · rcases hcases with ⟨hm, hc, hnew, hok⟩ | ⟨hm, hc, heq⟩ | ⟨left, hm, ⟨hres, hnew, hok⟩ | ⟨hres, files, heq⟩⟩
    · -- merged without a conflict
      rw [branch_commitAll, hfork, htip] at hnew
      have hgo := integrateWorktree_ok hok
      simp only [reverted, Bool.false_and, Bool.false_eq_true, if_false, hnew] at hgo
      obtain ⟨-, hend, hwork⟩ := hgo.resolve_right fun h => h.1 rfl
      rw [TakesWork, hwork]
      refine ⟨fun h => ⟨fun _ _ _ => h hend, fun left _ hl => ?_⟩, fun h _ => h.merged hco hm hc⟩
      exact absurd (hm.symm.trans hl) (by simp)
    · -- the commit is refused
      refine iff_of_true (fun h => ?_) ⟨fun _ _ h => ?_, fun left _ hl => ?_⟩
      · exact absurd h (integrateWorktree_notOk (by rw [heq]))
      · exact absurd (hc.symm.trans h) (by simp)
      · exact absurd (hm.symm.trans hl) (by simp)
    · -- the conflict is resolved
      have hverdict : reverted a o true = none ↔
          (o.verifyTask = true → a.baseHead = true → a.verdict.regressed = none) := by
        simp only [reverted, Bool.true_and, Bool.and_eq_true, ite_eq_right_iff, and_imp]
      rcases integrateWorktree_ok hok with ⟨hnone, hend, hwork⟩ | ⟨hsome, hend⟩
      · rw [TakesWork, hwork, hnew]
        refine ⟨fun h => ⟨fun _ hn => ?_, fun left' _ hl _ _ => ?_⟩, fun h _ => ?_⟩
        · exact absurd (hm.symm.trans hn) (by simp)
        · obtain rfl := Option.some.inj (hm.symm.trans hl)
          exact h hend
        · exact h.resolved left hco hm hres (hverdict.mp hnone)
      · refine iff_of_true (fun h => absurd h hend) ⟨fun _ hn => ?_, fun left' _ hl _ hv => ?_⟩
        · exact absurd (hm.symm.trans hn) (by simp)
        · exact absurd (hverdict.mpr hv) hsome
    · -- the conflict remains
      refine iff_of_true (fun h => ?_) ⟨fun _ hn => ?_, fun left' _ hl hres' => ?_⟩
      · exact absurd h (integrateWorktree_notOk (by rw [heq]))
      · exact absurd (hm.symm.trans hn) (by simp)
      · obtain rfl := Option.some.inj (hm.symm.trans hl)
        exact absurd hres' hres

theorem failsSafely_iff (h : s.Ready) (a : Answers κ) (resolve : Bool) :
    s.FailsSafely a resolve ↔ s.CleansUp a resolve := by
  have hholds : ∀ c ∈ s.work, s.Holds c := fun c hc => .inl ⟨h.present, (Finset.mem_sdiff.mp hc).1⟩
  rcases merge_cases s a resolve with ⟨hco, heq⟩ | ⟨hco, hcases⟩
  · refine iff_of_true (fun files _ => ?_) ⟨fun h => ?_, fun _ h => ?_⟩
    · rw [heq]
      exact ⟨rfl, h.clean, hholds⟩
    · exact absurd (h.symm.trans hco) (by simp)
    · exact absurd (h.symm.trans hco) (by simp)
  · rcases hcases with ⟨hm, hc, -, hok⟩ | ⟨hm, hc, heq⟩ | ⟨left, hm, ⟨hres, -, hok⟩ | ⟨hres, files, heq⟩⟩
    · refine iff_of_true (fun files hf => ?_) ⟨fun _ _ h => ?_, fun left _ hl => ?_⟩
      · exact absurd (hok.symm.trans hf) (by simp)
      · exact absurd (hc.symm.trans h) (by simp)
      · exact absurd (hm.symm.trans hl) (by simp)
    · rw [FailsSafely, heq]
      constructor
      · intro hsafe
        obtain ⟨-, hmain, -⟩ := hsafe [] rfl
        refine ⟨fun _ _ _ => ?_, fun left _ hl => ?_⟩
        · have hindex : s.tip ∪ s.branch \ s.fork = s.tip := congrArg Checkout.index hmain
          exact Finset.union_eq_left.mp hindex
        · exact absurd (hm.symm.trans hl) (by simp)
      · intro hup files _
        have hindex : s.tip ∪ s.branch \ s.fork = s.tip := Finset.union_eq_left.mpr (hup.refused hco hm hc)
        refine ⟨rfl, ?_, hholds⟩
        simp only [hindex]
        rfl
    · refine iff_of_true (fun files hf => ?_) ⟨fun _ hn => ?_, fun left' _ hl hres' => ?_⟩
      · exact absurd (hok.symm.trans hf) (by simp)
      · exact absurd (hm.symm.trans hn) (by simp)
      · obtain rfl := Option.some.inj (hm.symm.trans hl)
        exact absurd hres hres'
    · rw [FailsSafely, heq]
      constructor
      · intro hsafe
        obtain ⟨-, hmain, -⟩ := hsafe files rfl
        refine ⟨fun _ hn => ?_, fun left' _ hl _ => ?_⟩
        · exact absurd (hm.symm.trans hn) (by simp)
        · obtain rfl := Option.some.inj (hm.symm.trans hl)
          cases hr : a.reset with
          | true => exact .inl rfl
          | false =>
              simp only [hr] at hmain
              exact .inr hmain
      · intro hup files' _
        refine ⟨rfl, ?_, hholds⟩
        rcases hup.reset left hco hm hres with hr | hclean
        · simp only [hr, if_true]
        · simp only [hclean, ite_self]

end Site

end WrongStack.Worktree
