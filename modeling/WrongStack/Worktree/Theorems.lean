import WrongStack.Worktree.Lemmas.Contents

/-!
# The ledger of calls that do not overlap

A call is in its critical section from the moment it has read the tip of the base until it is about
to release its worktree. `Expect` says what the shared state looks like at each stage when no other
call is in its critical section: the base is as the call found it, or has the call's own commit on
top.
-/

namespace WrongStack.Worktree

open Lib

variable {o : Options} {b : Base} {r : Repo} {s : Integrations} {t t' : Sdd.TaskId} {a : Answer}

def Stage.critical : Stage → Bool
  | .commitAll | .baseShaBefore | .release _ => false
  | _ => true

/-! ## The repository -/

/-- Shas are not used twice. -/
def Repo.Fresh (r : Repo) : Prop := r.tip < r.nextSha

/-- The only thing that was put on top of `sha` is a commit of `t`. -/
def Repo.Landed (r : Repo) (t : Sdd.TaskId) (sha : Sha) : Prop :=
  r.tip = sha ∨ sha < r.tip ∧ r.log r.tip = { sha := r.tip, taskId := t } :: r.log sha

theorem Repo.stage_base (r : Repo) (t : Sdd.TaskId) (changes : Bool) :
    (r.stage t changes).tip = r.tip ∧ (r.stage t changes).nextSha = r.nextSha ∧
      (r.stage t changes).log = r.log := by
  cases changes <;> exact ⟨rfl, rfl, rfl⟩

theorem Repo.commit_cases (r : Repo) (t : Sdd.TaskId) :
    r.commit t = r ∨
      (r.commit t).tip = r.nextSha ∧ (r.commit t).nextSha = r.nextSha + 1 ∧
        (r.commit t).log r.nextSha = { sha := r.nextSha, taskId := t } :: r.log r.tip ∧
        ∀ sha, sha ≠ r.nextSha → (r.commit t).log sha = r.log sha := by
  unfold Repo.commit
  split
  · exact .inl rfl
  · refine .inr ⟨rfl, rfl, ?_, ?_⟩
    · simp [Repo.log]
    · intro sha hne
      simp [Repo.log, JsMap.get?_set, Ne.symm hne]

theorem Repo.Fresh.commit (h : r.Fresh) (t : Sdd.TaskId) :
    (r.commit t).Fresh ∧ (r.commit t).Landed t r.tip ∧ (r.commit t).log r.tip = r.log r.tip := by
  rcases r.commit_cases t with heq | ⟨htip, hnext, hnew, hold⟩
  · rw [heq]
    exact ⟨h, .inl rfl, rfl⟩
  · have hlog := hold r.tip h.ne
    refine ⟨?_, .inr ⟨?_, ?_⟩, hlog⟩
    · unfold Repo.Fresh
      rw [htip, hnext]
      exact Nat.lt_succ_self _
    · rw [htip]
      exact h
    · rw [htip, hnew, hlog]

/-! ## One call -/

/-- Every entry of the ledger is on the branch, in the order of the branch, and the other way
round. -/
def Base.Exact (b : Base) : Prop := b.mergedCommits = (b.repo.log b.repo.tip).reverse

/-- The ledger is that of the base below the commit of `t`. -/
def Base.Pending (b : Base) (t : Sdd.TaskId) (sha : Sha) : Prop :=
  b.repo.Landed t sha ∧ b.mergedCommits = (b.repo.log sha).reverse

def Expect (b : Base) (t : Sdd.TaskId) : Stage → Prop
  | .merging before _ => before = some b.repo.tip ∧ b.Exact
  | .reverify sha | .revertCheckout sha _ | .revertReset sha _ => b.Pending t sha
  | .baseShaAfter before => ∃ sha, before = some sha ∧ b.Pending t sha
  | .commitAll | .baseShaBefore | .release _ => b.Exact

/-- What a step of the call leaves behind: the next stage finds what it expects, and a call that has
returned leaves the ledger exact. -/
def Leaves (b : Base) (t : Sdd.TaskId) : Stage ⊕ Outcome → Prop
  | .inl stage => Expect b t stage
  | .inr _ => b.Exact

/-- Every git command succeeds. -/
def Answer.gitSucceeds (a : Answer) : Bool := a.succeeds && !a.throws

theorem record_repo (before after : Option Sha) : (b.record t before after).repo = b.repo := by
  unfold Base.record
  split
  · split <;> rfl
  · rfl

theorem expect_afterMerge {res : MergeResult} {sha : Sha}
    (hres : (∃ files, res = .notOk files) → b.Exact) (h : b.Pending t sha) :
    Expect b t (afterMerge o (some sha) res) := by
  cases res with
  | notOk files => exact hres ⟨files, rfl⟩
  | ok resolved =>
      simp only [afterMerge]
      split
      · exact h
      · exact ⟨sha, rfl, h⟩

/-- A `merge` command leaves the base as it was, or finishes the merge with a commit of the task. -/
theorem merge_advance (resolve : Bool) (hf : r.Fresh) (ha : a.gitSucceeds = true) (m : MergeStage) :
    (m.advance resolve t r a).1.Fresh ∧
      ((m.advance resolve t r a).1.tip = r.tip ∧
          (m.advance resolve t r a).1.log r.tip = r.log r.tip ∨
        (∃ resolved, (m.advance resolve t r a).2 = .inr (.ok resolved)) ∧
          (m.advance resolve t r a).1 = r.commit t) := by
  simp only [Answer.gitSucceeds, Bool.and_eq_true, Bool.not_eq_true'] at ha
  have hstage := r.stage_base t a.changes
  have hstaged : (r.stage t a.changes).Fresh := by
    unfold Repo.Fresh
    rw [hstage.1, hstage.2.1]
    exact hf
  cases m with
  | checkout | unmergedFiles | resolve | hasConflictMarkers => exact ⟨hf, .inl ⟨rfl, rfl⟩⟩
  | squash =>
      simp only [MergeStage.advance]
      split
      · exact ⟨hf, .inl ⟨rfl, rfl⟩⟩
      · exact ⟨hstaged, .inl ⟨hstage.1, by rw [hstage.2.2]⟩⟩
  | addResolved files => exact ⟨hstaged, .inl ⟨hstage.1, by simp only [MergeStage.advance, hstage.2.2]⟩⟩
  | commit | commitResolved =>
      simp only [MergeStage.advance, ha.1, ↓reduceIte]
      exact ⟨(hf.commit t).1, .inr ⟨⟨_, rfl⟩, trivial⟩⟩
  | resetHead files => exact ⟨hf, .inl ⟨rfl, rfl⟩⟩

theorem Expect.advance {stage : Stage} (h : Expect b t stage) (hf : b.repo.Fresh)
    (ha : a.gitSucceeds = true) :
    (stage.advance o t b a).1.repo.Fresh ∧
      Leaves (stage.advance o t b a).1 t (stage.advance o t b a).2 := by
  have hab := ha
  simp only [Answer.gitSucceeds, Bool.and_eq_true, Bool.not_eq_true'] at hab
  obtain ⟨hsucceeds, hthrows⟩ := hab
  cases stage with
  | commitAll =>
      simp only [Stage.advance, hthrows, Bool.false_eq_true, ↓reduceIte]
      exact ⟨hf, h⟩
  | baseShaBefore =>
      simp only [Stage.advance, hthrows, Bool.false_eq_true, ↓reduceIte, hsucceeds]
      exact ⟨hf, rfl, h⟩
  | merging before m =>
      obtain ⟨rfl, hexact⟩ := h
      simp only [Stage.advance, hthrows, Bool.false_and, Bool.false_eq_true, ↓reduceIte]
      have hm := merge_advance (t := t) o.conflictResolver hf ha m
      generalize m.advance o.conflictResolver t b.repo a = out at hm
      obtain ⟨repo, next⟩ := out
      obtain ⟨hfresh, hrepo⟩ := hm
      rcases hrepo with ⟨htip, hlog⟩ | ⟨⟨resolved, hok⟩, hcommit⟩
      · -- the tip has not moved
        simp only at htip hlog
        have hexact' : ({ b with repo } : Base).Exact := by
          unfold Base.Exact
          rw [htip, hlog]
          exact hexact
        have hpending : ({ b with repo } : Base).Pending t b.repo.tip :=
          ⟨.inl htip, by rw [hlog]; exact hexact⟩
        cases next with
        | inl m => exact ⟨hfresh, congrArg some htip.symm, hexact'⟩
        | inr res => exact ⟨hfresh, expect_afterMerge (fun _ => hexact') hpending⟩
      · simp only at hok hcommit
        subst hok hcommit
        obtain ⟨hfresh, hlanded, hlog⟩ := hf.commit t
        exact ⟨hfresh, expect_afterMerge (by rintro ⟨_, hcase⟩; cases hcase)
          ⟨hlanded, by rw [hlog]; exact hexact⟩⟩
  | reverify sha =>
      simp only [Stage.advance]
      refine ⟨hf, ?_⟩
      cases a.verdict.regressed with
      | none => exact ⟨sha, rfl, h⟩
      | some reason => exact h
  | revertCheckout sha reason =>
      simp only [Stage.advance, hsucceeds, hthrows, Bool.not_false, Bool.and_self, ↓reduceIte]
      exact ⟨hf, h⟩
  | revertReset sha reason =>
      simp only [Stage.advance, hsucceeds, hthrows, Bool.not_false, Bool.and_self, ↓reduceIte]
      refine ⟨?_, h.2⟩
      rcases h.1 with htip | ⟨hlt, -⟩
      · change sha < b.repo.nextSha
        rw [← htip]
        exact hf
      · exact hlt.trans hf
  | baseShaAfter before =>
      obtain ⟨sha, rfl, hlanded, hledger⟩ := h
      simp only [Stage.advance, hthrows, Bool.false_eq_true, ↓reduceIte, hsucceeds, Base.record,
        Option.some.injEq]
      rcases hlanded with htip | ⟨hlt, hlog⟩
      · rw [if_pos htip]
        refine ⟨hf, ?_⟩
        change b.mergedCommits = (b.repo.log b.repo.tip).reverse
        rw [htip]
        exact hledger
      · rw [if_neg hlt.ne']
        refine ⟨hf, ?_⟩
        change b.mergedCommits ++ _ = (b.repo.log b.repo.tip).reverse
        rw [hlog, List.reverse_cons, hledger]
  | release outcome =>
      simp only [Stage.advance]
      exact ⟨hf, h⟩

/-- Outside its critical section a call does not touch what is shared. -/
theorem advance_of_not_critical {stage : Stage} (h : stage.critical = false) :
    (stage.advance o t b a).1 = b := by
  cases stage with
  | commitAll | baseShaBefore | release => rfl
  | merging | reverify | revertCheckout | revertReset | baseShaAfter => cases h

/-- Whatever a step takes off the base is a commit of the task that takes it. -/
theorem Expect.removes {stage : Stage} (h : Expect b t stage) (hf : b.repo.Fresh)
    (ha : a.gitSucceeds = true) (c : Commit) (hc : c ∈ b.repo.log b.repo.tip)
    (hnot : c ∉ (stage.advance o t b a).1.repo.log (stage.advance o t b a).1.repo.tip) :
    c.taskId = t := by
  cases stage with
  | commitAll | baseShaBefore | release | reverify => exact absurd hc hnot
  | baseShaAfter before =>
      refine absurd hc ?_
      simp only [Stage.advance] at hnot
      split at hnot
      · exact hnot
      · rw [record_repo] at hnot
        exact hnot
  | revertCheckout sha reason => exact absurd hc hnot
  | revertReset sha reason =>
      simp only [Stage.advance] at hnot
      split at hnot
      · simp only [Repo.reset] at hnot
        rcases h.1 with htip | ⟨-, hlog⟩
        · rw [htip] at hc
          exact absurd hc hnot
        · rw [hlog] at hc
          rcases List.mem_cons.mp hc with rfl | hc
          · rfl
          · exact absurd hc hnot
      · exact absurd hc hnot
  | merging before m =>
      obtain ⟨rfl, -⟩ := h
      simp only [Answer.gitSucceeds, Bool.and_eq_true, Bool.not_eq_true'] at ha
      have hm := merge_advance (t := t) (a := a) o.conflictResolver hf
        (by simp [Answer.gitSucceeds, ha]) m
      simp only [Stage.advance, ha.2, Bool.false_and, Bool.false_eq_true, ↓reduceIte] at hnot
      generalize m.advance o.conflictResolver t b.repo a = out at hm hnot
      obtain ⟨repo, next⟩ := out
      have hnot' : c ∉ repo.log repo.tip := by cases next <;> exact hnot
      rcases hm.2 with ⟨htip, hlog⟩ | ⟨-, hcommit⟩
      · simp only at htip hlog
        rw [htip, hlog] at hnot'
        exact absurd hc hnot'
      · simp only at hcommit
        subst hcommit
        obtain ⟨-, hlanded, hlog⟩ := hf.commit t
        rcases hlanded with htip | ⟨-, htop⟩
        · rw [htip, hlog] at hnot'
          exact absurd hc hnot'
        · rw [htop, hlog] at hnot'
          exact absurd (List.mem_cons_of_mem _ hc) hnot'

end WrongStack.Worktree

/-!
# Whose commits a call makes

A command of the call of a task adds no commit to the base but one of that task.
-/

namespace WrongStack.Worktree

open Lib

variable {r r' r₁ : Repo} {t t' : Sdd.TaskId} {a : Answer} {N : Nat}

/-- Between `r` and `r'` nobody but `t` has committed. -/
structure Repo.Adds (t : Sdd.TaskId) (r r' : Repo) : Prop where
  nextSha : r.nextSha ≤ r'.nextSha
  log : ∀ sha, ∀ c ∈ r'.log sha, (∃ sha', c ∈ r.log sha') ∨ c.taskId = t ∧ c.sha < r'.nextSha

/-- The commits of `t` are all older than `N`. -/
def Repo.NoneSince (r : Repo) (t : Sdd.TaskId) (N : Nat) : Prop :=
  ∀ sha, ∀ c ∈ r.log sha, c.taskId = t → c.sha < N

/-- No commit is as new as the next one will be. -/
def Repo.Counted (r : Repo) : Prop := ∀ sha, ∀ c ∈ r.log sha, c.sha < r.nextSha

theorem Repo.Adds.refl (r : Repo) : Repo.Adds t r r := ⟨le_refl _, fun sha _ h => .inl ⟨sha, h⟩⟩

theorem Repo.Adds.counted (h : Repo.Adds t r r') (hc : r.Counted) : r'.Counted := fun sha c hm =>
  (h.log sha c hm).elim (fun ⟨sha', h'⟩ => (hc sha' c h').trans_le h.nextSha) And.right

theorem Repo.Adds.noneSince (h : Repo.Adds t' r r') (hne : t' ≠ t) (hn : r.NoneSince t N) :
    r'.NoneSince t N := fun sha c hm ht =>
  (h.log sha c hm).elim (fun ⟨sha', h'⟩ => hn sha' c h' ht) fun h => absurd (h.1.symm.trans ht) hne

theorem Repo.adds_stage (r : Repo) (t : Sdd.TaskId) (changes : Bool) :
    Repo.Adds t r (r.stage t changes) := by
  obtain ⟨-, hn, hl⟩ := r.stage_base t changes
  exact ⟨hn.ge, fun sha c hm => .inl ⟨sha, hl ▸ hm⟩⟩

theorem Repo.adds_reset (r : Repo) (sha : Sha) : Repo.Adds t r (r.reset sha) :=
  ⟨le_refl _, fun sha _ h => .inl ⟨sha, h⟩⟩

theorem Repo.adds_commit (r : Repo) (t : Sdd.TaskId) : Repo.Adds t r (r.commit t) := by
  rcases r.commit_cases t with heq | ⟨-, hnext, hnew, hold⟩
  · rw [heq]
    exact .refl r
  · refine ⟨hnext ▸ Nat.le_succ _, fun sha c hm => ?_⟩
    by_cases hs : sha = r.nextSha
    · rw [hs, hnew] at hm
      rcases List.mem_cons.mp hm with rfl | hm
      · exact .inr ⟨rfl, hnext ▸ Nat.lt_succ_self _⟩
      · exact .inl ⟨_, hm⟩
    · exact .inl ⟨sha, hold sha hs ▸ hm⟩

theorem adds_merge (resolve : Bool) (m : MergeStage) :
    Repo.Adds t r (m.advance resolve t r a).1 := by
  cases m <;> simp only [MergeStage.advance]
  case squash =>
    split
    · exact .refl r
    · exact r.adds_stage t a.changes
  case commit =>
    split
    · exact r.adds_commit t
    · exact .refl r
  case addResolved => exact r.adds_stage t a.changes
  case commitResolved =>
    split
    · exact r.adds_commit t
    · exact .refl r
  case resetHead => exact r.adds_reset r.tip
  all_goals exact .refl r

theorem adds_integrate (o : Options) (b : Base) (stage : Stage) :
    Repo.Adds t b.repo (stage.advance o t b a).1.repo := by
  cases stage with
  | merging before m =>
      simp only [Stage.advance]
      split
      · exact .refl _
      · have h := adds_merge (r := b.repo) (t := t) (a := a) o.conflictResolver m
        split <;>
          · rename_i heq
            rw [heq] at h
            exact h
  | revertReset sha reason =>
      simp only [Stage.advance]
      split
      · exact b.repo.adds_reset sha
      · exact .refl _
  | baseShaAfter before =>
      simp only [Stage.advance]
      split
      · exact .refl _
      · rw [record_repo]
        exact .refl _
  | _ => exact .refl _

end WrongStack.Worktree

/-!
# The commit ledger over whole runs

Runs interleave the calls of `integrateWorktree` of any tasks command by command, with any answers of
git, of the conflict resolver and of the verifier.
-/

namespace WrongStack.Worktree

open Lib

variable {o : Options} {s : Integrations}

/-- No call is between reading the tip of the base and having recorded its commit. -/
def Quiet (s : Integrations) : Prop :=
  ∀ t stage, s.running.get? t = some stage → stage.critical = false

/-- All git commands succeed: those the call of the operation runs, but for a merge that conflicts. -/
def GitSucceeds : Op → Prop
  | .integrate _ => True
  | .answer _ a => a.gitSucceeds = true

/-- A call reads the tip of the base only when no other call is in its critical section. -/
def Serialised (s : Integrations) : Op → Prop
  | .integrate _ => True
  | .answer t _ => s.running.get? t = some .baseShaBefore → Quiet s

/-- When no call is halfway, the ledger lists the commits of the base, each under the task that made
it, once and in landing order. -/
def LedgerExact (s : Integrations) : Prop := Quiet s → s.base.Exact

/-- The operation takes no commit off the base but those of its own task. -/
def RemovesOwn (o : Options) (s : Integrations) (op : Op) : Prop :=
  ∀ c ∈ s.base.repo.log s.base.repo.tip,
    c ∉ (step o s op).base.repo.log (step o s op).base.repo.tip → ∃ a, op = .answer c.taskId a

instance (op : Op) : Decidable (GitSucceeds op) := by
  cases op <;> unfold GitSucceeds <;> infer_instance

theorem quiet_iff : Quiet s ↔ ∀ p ∈ s.running.entries, p.2.critical = false := by
  constructor
  · rintro h ⟨t, stage⟩ hp
    exact h t stage (JsMap.mem_entries_iff.mp hp)
  · intro h t stage hstage
    exact h (t, stage) (JsMap.mem_entries_iff.mpr hstage)

instance : Decidable (Quiet s) := decidable_of_iff _ quiet_iff.symm

instance (op : Op) : Decidable (Serialised s op) := by
  cases op <;> unfold Serialised <;> infer_instance

instance : Decidable (LedgerExact s) :=
  inferInstanceAs (Decidable (Quiet s → s.base.mergedCommits = _))

/-! ## The invariant -/

/-- At most one call is in its critical section, and the shared state is what it expects. -/
structure Serial (s : Integrations) : Prop where
  fresh : s.base.repo.Fresh
  exact : LedgerExact s
  expect : ∀ t stage, s.running.get? t = some stage → stage.critical = true → Expect s.base t stage
  exclusive : ∀ t t' stage stage', s.running.get? t = some stage → s.running.get? t' = some stage' →
    stage.critical = true → stage'.critical = true → t = t'

/-- No call but that of `t` is in its critical section. -/
def Alone (s : Integrations) (t : Sdd.TaskId) : Prop :=
  ∀ t' stage, t' ≠ t → s.running.get? t' = some stage → stage.critical = false

theorem serial_init : Serial {} where
  fresh := Nat.one_pos
  exact := fun _ => rfl
  expect := fun _ _ h => by cases h
  exclusive := fun _ _ _ _ h => by cases h

/-- A state in which only the call of `t` can be in its critical section. -/
theorem Serial.of_alone {t : Sdd.TaskId} (hfresh : s.base.repo.Fresh) (halone : Alone s t)
    (hnone : s.running.get? t = none → s.base.Exact)
    (hsome : ∀ stage, s.running.get? t = some stage → Expect s.base t stage) : Serial s where
  fresh := hfresh
  exact := by
    intro hquiet
    cases hget : s.running.get? t with
    | none => exact hnone hget
    | some stage =>
        have hexpect := hsome stage hget
        have hcritical := hquiet t stage hget
        cases stage with
        | commitAll | baseShaBefore | release => exact hexpect
        | merging | reverify | revertCheckout | revertReset | baseShaAfter => cases hcritical
  expect := by
    intro t' stage hget hcritical
    by_cases ht : t' = t
    · subst ht
      exact hsome stage hget
    · rw [halone t' stage ht hget] at hcritical
      cases hcritical
  exclusive := by
    intro t₁ t₂ stage₁ stage₂ h₁ h₂ hc₁ hc₂
    have hown : ∀ t' stage, s.running.get? t' = some stage → stage.critical = true → t' = t := by
      intro t' stage hget hcritical
      by_contra ht
      rw [halone t' stage ht hget] at hcritical
      cases hcritical
    exact (hown t₁ stage₁ h₁ hc₁).trans (hown t₂ stage₂ h₂ hc₂).symm

/-- A call that goes on outside its critical section and stays there. -/
theorem Serial.of_outside {running : JsMap Sdd.TaskId Stage} {t : Sdd.TaskId} (h : Serial s)
    (hbefore : ∀ stage, s.running.get? t = some stage → stage.critical = false)
    (hafter : ∀ stage, running.get? t = some stage → stage.critical = false)
    (hother : ∀ t', t' ≠ t → running.get? t' = s.running.get? t') : Serial { s with running } := by
  have hsame : ∀ t' stage, running.get? t' = some stage → stage.critical = true →
      s.running.get? t' = some stage := by
    intro t' stage hget hcritical
    by_cases ht : t' = t
    · subst ht
      rw [hafter stage hget] at hcritical
      cases hcritical
    · rw [← hother t' ht]
      exact hget
  refine ⟨h.fresh, ?_, ?_, ?_⟩
  · intro hquiet
    refine h.exact fun t' stage hget => ?_
    by_cases ht : t' = t
    · subst ht
      exact hbefore stage hget
    · exact hquiet t' stage ((hother t' ht).trans hget)
  · exact fun t' stage hget hc => h.expect t' stage (hsame t' stage hget hc) hc
  · exact fun t₁ t₂ stage₁ stage₂ h₁ h₂ hc₁ hc₂ =>
      h.exclusive t₁ t₂ stage₁ stage₂ (hsame t₁ stage₁ h₁ hc₁) (hsame t₂ stage₂ h₂ hc₂) hc₁ hc₂

/-- The call of `t` goes on while no other is in its critical section. -/
theorem Serial.goOn {t : Sdd.TaskId} {stage : Stage} {a : Answer} (h : Serial s) (halone : Alone s t)
    (hget : s.running.get? t = some stage) (hexpect : Expect s.base t stage)
    (ha : a.gitSucceeds = true) : Serial (step o s (.answer t a)) := by
  obtain ⟨hfresh, hleaves⟩ := hexpect.advance (o := o) h.fresh ha
  simp only [step, hget]
  generalize stage.advance o t s.base a = out at hfresh hleaves
  obtain ⟨base, next⟩ := out
  cases next with
  | inl next =>
      refine Serial.of_alone (t := t) hfresh ?_ ?_ ?_
      · intro t' stage' ht hget'
        rw [JsMap.get?_set, if_neg (Ne.symm ht)] at hget'
        exact halone t' stage' ht hget'
      · intro hnone
        rw [JsMap.get?_set_self] at hnone
        cases hnone
      · intro stage' hget'
        rw [JsMap.get?_set_self] at hget'
        cases hget'
        exact hleaves
  | inr outcome =>
      refine Serial.of_alone (t := t) hfresh ?_ (fun _ => hleaves) ?_
      · intro t' stage' ht hget'
        rw [JsMap.get?_delete, if_neg (Ne.symm ht)] at hget'
        exact halone t' stage' ht hget'
      · intro stage' hget'
        rw [JsMap.get?_delete, if_pos rfl] at hget'
        cases hget'

theorem Serial.alone {t : Sdd.TaskId} {stage : Stage} (h : Serial s)
    (hget : s.running.get? t = some stage) (hcritical : stage.critical = true) : Alone s t := by
  intro t' stage' ht hget'
  by_contra hc
  rw [Bool.not_eq_false] at hc
  exact ht (h.exclusive t' t stage' stage hget' hget hc hcritical)

theorem Serial.step (h : Serial s) (op : Op) (hgit : GitSucceeds op) (hser : Serialised s op) :
    Serial (step o s op) := by
  cases op with
  | integrate t =>
      simp only [Worktree.step]
      split
      · exact h
      · rename_i hhas
        rw [Bool.not_eq_true] at hhas
        refine h.of_outside (t := t) ?_ ?_ ?_
        · intro stage hget
          rw [JsMap.has_eq_false.mp hhas] at hget
          cases hget
        · intro stage hget
          rw [JsMap.get?_set_self] at hget
          cases hget
          rfl
        · exact fun t' ht => by rw [JsMap.get?_set, if_neg (Ne.symm ht)]
  | answer t a =>
      cases hget : s.running.get? t with
      | none =>
          simp only [Worktree.step, hget]
          exact h
      | some stage =>
          have houtside : ∀ stage', s.running.get? t = some stage' → stage'.critical = stage.critical := by
            intro stage' hget'
            rw [hget] at hget'
            cases hget'
            rfl
          cases stage with
          | commitAll =>
              have ha : a.throws = false := by
                simp only [GitSucceeds, Answer.gitSucceeds, Bool.and_eq_true, Bool.not_eq_true'] at hgit
                exact hgit.2
              simp only [Worktree.step, hget, Stage.advance, ha, Bool.false_eq_true, ↓reduceIte]
              refine h.of_outside (t := t) houtside ?_ ?_
              · intro stage hget'
                rw [JsMap.get?_set_self] at hget'
                cases hget'
                rfl
              · exact fun t' ht => by rw [JsMap.get?_set, if_neg (Ne.symm ht)]
          | release outcome =>
              simp only [Worktree.step, hget, Stage.advance]
              refine h.of_outside (t := t) houtside ?_ ?_
              · intro stage hget'
                rw [JsMap.get?_delete, if_pos rfl] at hget'
                cases hget'
              · exact fun t' ht => by rw [JsMap.get?_delete, if_neg (Ne.symm ht)]
          | baseShaBefore =>
              have hquiet := hser hget
              exact h.goOn (fun t' stage' _ hget' => hquiet t' stage' hget') hget (h.exact hquiet) hgit
          | merging | reverify | revertCheckout | revertReset | baseShaAfter =>
              exact h.goOn (h.alone hget rfl) hget (h.expect t _ hget rfl) hgit

theorem Serial.removesOwn (h : Serial s) (op : Op) (hgit : GitSucceeds op) : RemovesOwn o s op := by
  intro c hc hnot
  cases op with
  | integrate t =>
      refine absurd hc ?_
      simp only [Worktree.step] at hnot
      split at hnot <;> exact hnot
  | answer t a =>
      cases hget : s.running.get? t with
      | none =>
          simp only [Worktree.step, hget] at hnot
          exact absurd hc hnot
      | some stage =>
          have hnot' : c ∉ (stage.advance o t s.base a).1.repo.log
              (stage.advance o t s.base a).1.repo.tip := by
            simp only [Worktree.step, hget] at hnot
            generalize stage.advance o t s.base a = out at hnot
            obtain ⟨base, next⟩ := out
            cases next <;> exact hnot
          cases hcritical : stage.critical with
          | false =>
              rw [advance_of_not_critical hcritical] at hnot'
              exact absurd hc hnot'
          | true =>
              rw [(h.expect t stage hget hcritical).removes h.fresh hgit c hc hnot']
              exact ⟨a, rfl⟩

/-! ## Runs -/

/-- What the ledger promises of a run. -/
def LedgerKept (o : Options) (ops : List Op) : Prop :=
  (∀ pre, pre <+: ops → LedgerExact (run (step o) {} pre)) ∧
    ∀ pre op, pre ++ [op] <+: ops → RemovesOwn o (run (step o) {} pre) op

/-- As long as no call reads the tip of the base while another is halfway, the ledger is that of the
base, and no call takes off a commit of another. -/
theorem ledger_kept (o : Options) (ops : List Op) (hgit : ∀ op ∈ ops, GitSucceeds op)
    (hser : Under (step o) Serialised {} ops) : LedgerKept o ops := by
  have hserial : ∀ pre, pre <+: ops → Serial (run (step o) {} pre) := by
    intro pre hpre
    obtain ⟨post, rfl⟩ := hpre
    refine run_invariant_under (C := fun s op => GitSucceeds op ∧ Serialised s op)
      (fun s op hs hop => hs.step op hop.1 hop.2) serial_init ?_
    rw [under_iff_forall_concat]
    intro pre' op hpre'
    have hpre'' := hpre'.trans (List.prefix_append pre post)
    exact ⟨hgit op (hpre''.subset (by simp)), under_iff_forall_concat.mp hser pre' op hpre''⟩
  refine ⟨fun pre hpre => (hserial pre hpre).exact, fun pre op hpre => ?_⟩
  exact (hserial pre ((List.prefix_append pre [op]).trans hpre)).removesOwn op
    (hgit op (hpre.subset (by simp)))

/-- The commands of a call that merges without a conflict, from `commitAll` to the release. -/
def cleanCall (t : Sdd.TaskId) : List Op :=
  .integrate t :: List.replicate 7 (.answer t {})

/-- Two tasks, one after the other. -/
theorem ledger_kept_two :
    (∀ op ∈ cleanCall 1 ++ cleanCall 2, GitSucceeds op) ∧
      Under (step ⟨true, true⟩) Serialised {} (cleanCall 1 ++ cleanCall 2) ∧
      LedgerKept ⟨true, true⟩ (cleanCall 1 ++ cleanCall 2) :=
  ⟨by decide, by decide, ledger_kept _ _ (by decide) (by decide)⟩

/-- The second task merges between the commit of the first and its look at the tip. -/
def racingMerge : List Op :=
  (.integrate 1 :: List.replicate 5 (.answer 1 {})) ++ (.integrate 2 :: List.replicate 5 (.answer 2 {})) ++
    [.answer 1 {}, .answer 2 {}]

/-- The second task merges while the first, whose conflict was resolved, is verified again. -/
def racingRevert : List Op :=
  (.integrate 1 :: List.replicate 3 (.answer 1 {})) ++
    [.answer 1 { conflict := true }, .answer 1 {}, .answer 1 { resolved := true }] ++
    List.replicate 3 (.answer 1 {}) ++ cleanCall 2 ++
    [.answer 1 { verdict := .rejected none }, .answer 1 {}, .answer 1 {}]

/-- Two tasks that finish together: both record the second commit, and the first is on the base but
not in the ledger; or the first takes the second's commit off the base. -/
theorem ledger_race :
    (¬ ∀ ops, (∀ op ∈ ops, GitSucceeds op) →
      ∀ pre, pre <+: ops → LedgerExact (run (step ⟨true, true⟩) {} pre)) ∧
    ¬ ∀ ops, (∀ op ∈ ops, GitSucceeds op) →
      ∀ pre op, pre ++ [op] <+: ops → RemovesOwn ⟨true, true⟩ (run (step ⟨true, true⟩) {} pre) op := by
  constructor
  · intro h
    have hexact := h racingMerge (by decide) racingMerge List.prefix_rfl
    revert hexact
    decide
  · intro h
    have hown := h racingRevert (by decide) racingRevert.dropLast (.answer 1 {}) (by decide)
    obtain ⟨a, ha⟩ := hown { sha := 2, taskId := 2 } (by decide) (by decide)
    cases ha

/-! ## Contents -/

/-- A task has written a file that the base lacks. -/
def oneChange : Site Nat where
  tip := ∅
  main := { index := ∅, files := ∅ }
  fork := ∅
  branch := ∅
  worktree := { index := ∅, files := {1} }

end WrongStack.Worktree
