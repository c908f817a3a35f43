import Mathlib.Data.Int.Order.Basic
import Mathlib.Logic.Function.Basic
import WrongStack.Lib.Run

/-!
# The file lock

`withFileLock` (`core/src/utils/atomic-write.ts`): any number of calls on one path, each in a process of its
own, with one step for every file-system call. The directory stays, and the calls fail only because the lock
file is there, or is not. All clocks and modification times are those of one clock.
-/

namespace WrongStack.FileLock

open Lib

structure FileLockOptions where
  timeoutMs : Int := 5000
  staleMs : Int := 30000

structure LockFile where
  /-- Tells the files apart that have been at the path. -/
  creator : Nat
  mtimeMs : Int
  deriving DecidableEq

/-- What a call awaits. A holder keeps the time at which it made its lock file. -/
inductive Stage
  | idle
  | openLock (started : Int)
  | writeFile (since : Int)
  | fn (since : Int)
  | close (since : Int)
  | unlinkOwn (since : Int)
  | statLock (started : Int)
  /-- `stat` has found the file; nothing is awaited. -/
  | judge (started : Int) (seen : LockFile)
  | unlinkStale (started : Int) (seen : LockFile)
  | sleeping (started : Int)
  | returned
  | timedOut
  | crashed
  deriving DecidableEq

/-- When a live holder has acquired the lock. -/
def Stage.since? : Stage → Option Int
  | writeFile since | fn since | close since | unlinkOwn since => some since
  | _ => none

structure World where
  lock : Option LockFile := none
  now : Int
  procs : Nat → Stage := fun _ => .idle

inductive Op
  | call (p : Nat)
  /-- What the call awaits is done. -/
  | step (p : Nat)
  | crash (p : Nat)
  | advance (ms : Nat)

namespace World

variable (o : FileLockOptions) (w : World)

def become (p : Nat) (stage : Stage) : World := { w with procs := Function.update w.procs p stage }

def resume (p : Nat) : World :=
  match w.procs p with
  | .openLock started =>
      match w.lock with
      | none => { w with lock := some ⟨p, w.now⟩ }.become p (.writeFile w.now)
      | some _ => w.become p (.statLock started)
  | .writeFile since =>
      let touch (file : LockFile) := if file.creator = p then { file with mtimeMs := w.now } else file
      { w with lock := w.lock.map touch }.become p (.fn since)
  | .fn since => w.become p (.close since)
  | .close since => w.become p (.unlinkOwn since)
  | .unlinkOwn _ => { w with lock := none }.become p .returned
  | .statLock started =>
      match w.lock with
      | none => w.become p (.openLock started)
      | some file => w.become p (.judge started file)
  | .judge started seen =>
      if o.staleMs < w.now - seen.mtimeMs then w.become p (.unlinkStale started seen)
      else if o.timeoutMs ≤ w.now - started then w.become p .timedOut
      else w.become p (.sleeping started)
  | .unlinkStale started _ => { w with lock := none }.become p (.openLock started)
  | .sleeping started => w.become p (.openLock started)
  | .idle | .returned | .timedOut | .crashed => w

def step : Op → World
  | .call p =>
      match w.procs p with
      | .idle => w.become p (.openLock w.now)
      | _ => w
  | .step p => w.resume o p
  | .crash p => w.become p .crashed
  | .advance ms => { w with now := w.now + ms }

end World

end WrongStack.FileLock

/-!
# Mutual exclusion

A live holder is the creator of the lock file that is at the path, so there is at most one. This lasts as
long as nobody removes another lock file than the one that was found stale.
-/

namespace WrongStack.FileLock

open Lib

variable {o : FileLockOptions} {w : World} {op : Op} {p q : Nat} {stage : Stage} {file seen : LockFile}
  {since : Int}

/-! ## What holds between the steps -/

/-- The call has made its lock file. -/
def Stage.hasCreated : Stage → Bool
  | writeFile _ | fn _ | close _ | unlinkOwn _ | returned | crashed => true
  | _ => false

/-- The file that the call has found. -/
def Stage.seen? : Stage → Option LockFile
  | judge _ seen | unlinkStale _ seen => some seen
  | _ => none

/-- The file that the call is about to remove. -/
def Stage.breaks? : Stage → Option LockFile
  | unlinkStale _ seen => some seen
  | _ => none

def Holds (w : World) (p : Nat) (since : Int) : Prop := (w.procs p).since? = some since

structure Sound (w : World) : Prop where
  clock : ∀ p since, Holds w p since → since ≤ w.now
  holder : ∀ p since, Holds w p since → ∃ file, w.lock = some file ∧ file.creator = p ∧ since ≤ file.mtimeMs
  file : ∀ file, w.lock = some file → (∃ since, Holds w file.creator since) ∨ w.procs file.creator = .crashed
  seen : ∀ p seen, (w.procs p).seen? = some seen → (w.procs seen.creator).hasCreated = true ∧
    ∀ since, Holds w seen.creator since → since ≤ seen.mtimeMs
  breaks : ∀ p seen, (w.procs p).breaks? = some seen → (w.procs seen.creator).since? = none

theorem sound_init (now : Int) : Sound { now } := by
  refine ⟨?_, ?_, ?_, ?_, ?_⟩ <;> simp [Holds, Stage.since?, Stage.seen?, Stage.breaks?]

theorem Sound.unique (h : Sound w) {since' : Int} (hp : Holds w p since) (hq : Holds w q since') : p = q := by
  obtain ⟨file, hfile, hcreator, -⟩ := h.holder p since hp
  obtain ⟨file', hfile', hcreator', -⟩ := h.holder q since' hq
  obtain rfl := Option.some.inj (hfile.symm.trans hfile')
  exact hcreator.symm.trans hcreator'

theorem Stage.hasCreated_of_since? (h : stage.since? = some since) : stage.hasCreated = true := by
  cases stage <;> simp_all [Stage.since?, Stage.hasCreated]

theorem Stage.seen?_of_breaks? (h : stage.breaks? = some seen) : stage.seen? = some seen := by
  cases stage <;> simp_all [Stage.seen?, Stage.breaks?]

@[simp] theorem become_procs (w : World) (p q : Nat) (stage : Stage) :
    (w.become p stage).procs q = if q = p then stage else w.procs q := Function.update_apply ..

@[simp] theorem become_lock (w : World) (p : Nat) (stage : Stage) : (w.become p stage).lock = w.lock := rfl

@[simp] theorem become_now (w : World) (p : Nat) (stage : Stage) : (w.become p stage).now = w.now := rfl

/-! ## Steps -/

/-- A call goes on without making or removing a lock file. -/
theorem Sound.become (h : Sound w) (hsince : stage.since? = (w.procs p).since?)
    (hcreated : (w.procs p).hasCreated = true → stage.hasCreated = true)
    (hcrashed : w.procs p = .crashed → stage = .crashed)
    (hseen : ∀ seen, stage.seen? = some seen → (w.procs seen.creator).hasCreated = true ∧
      ∀ since, Holds w seen.creator since → since ≤ seen.mtimeMs)
    (hbreaks : ∀ seen, stage.breaks? = some seen → (w.procs seen.creator).since? = none) :
    Sound (w.become p stage) := by
  have hsame : ∀ q, ((w.become p stage).procs q).since? = (w.procs q).since? := by
    intro q
    rw [become_procs]
    split
    · rename_i hq
      rw [hq, hsince]
    · rfl
  have hholds : ∀ q since, Holds (w.become p stage) q since ↔ Holds w q since := by
    intro q since
    rw [Holds, Holds, hsame]
  have hkeep : ∀ q, (w.procs q).hasCreated = true → ((w.become p stage).procs q).hasCreated = true := by
    intro q hq
    rw [become_procs]
    split
    · rename_i heq
      exact hcreated (heq ▸ hq)
    · exact hq
  refine ⟨fun q since hq => ?_, fun q since hq => ?_, fun file hfile => ?_, fun q seen hq => ?_, fun q seen hq => ?_⟩
  · exact h.clock q since ((hholds q since).mp hq)
  · exact h.holder q since ((hholds q since).mp hq)
  · rcases h.file file hfile with ⟨since, hlive⟩ | hdead
    · exact .inl ⟨since, (hholds _ since).mpr hlive⟩
    · right
      rw [become_procs]
      split
      · rename_i heq
        exact hcrashed (heq ▸ hdead)
      · exact hdead
  · have hfound : (w.procs seen.creator).hasCreated = true ∧
        ∀ since, Holds w seen.creator since → since ≤ seen.mtimeMs := by
      rw [become_procs] at hq
      split at hq
      · exact hseen seen hq
      · exact h.seen q seen hq
    exact ⟨hkeep _ hfound.1, fun since hlive => hfound.2 since ((hholds _ since).mp hlive)⟩
  · rw [hsame]
    rw [become_procs] at hq
    split at hq
    · exact hbreaks seen hq
    · exact h.breaks q seen hq

theorem Stage.breaks?_of_seen? (h : stage.seen? = none) : stage.breaks? = none := by
  cases stage <;> simp_all [Stage.seen?, Stage.breaks?]

/-- A call goes on to a stage where it has found nothing. -/
theorem Sound.goes_on (h : Sound w) (hsince : stage.since? = (w.procs p).since?)
    (hcreated : (w.procs p).hasCreated = true → stage.hasCreated = true)
    (hcrashed : w.procs p = .crashed → stage = .crashed) (hseen : stage.seen? = none) :
    Sound (w.become p stage) := by
  have hbreaks := Stage.breaks?_of_seen? hseen
  exact h.become hsince hcreated hcrashed (by simp [hseen]) (by simp [hbreaks])

theorem Sound.acquires (h : Sound w) {started : Int} (hp : w.procs p = .openLock started) (hlock : w.lock = none) :
    Sound ({ w with lock := some ⟨p, w.now⟩ }.become p (.writeFile w.now)) := by
  have hfree : ∀ q since, ¬ Holds w q since := by
    intro q since hq
    obtain ⟨file, hfile, -⟩ := h.holder q since hq
    rw [hlock] at hfile
    cases hfile
  have hother : ∀ seen : LockFile, (w.procs seen.creator).hasCreated = true → seen.creator ≠ p := by
    intro seen hcreated heq
    rw [heq, hp] at hcreated
    cases hcreated
  have hholds : ∀ q since, Holds ({ w with lock := some ⟨p, w.now⟩ }.become p (.writeFile w.now)) q since →
      q = p ∧ since = w.now := by
    intro q since hq
    unfold Holds at hq
    rw [become_procs] at hq
    split at hq
    · rename_i heq
      exact ⟨heq, (Option.some.inj hq).symm⟩
    · exact absurd hq (hfree q since)
  refine ⟨fun q since hq => ?_, fun q since hq => ?_, fun file hfile => ?_, fun q seen hq => ?_, fun q seen hq => ?_⟩
  · exact (hholds q since hq).2.le
  · obtain ⟨rfl, rfl⟩ := hholds q since hq
    exact ⟨_, rfl, rfl, le_refl _⟩
  · obtain rfl := Option.some.inj hfile
    left
    exact ⟨w.now, by simp [Holds, Stage.since?]⟩
  · rw [become_procs] at hq
    split at hq
    · cases hq
    · obtain ⟨hcreated, -⟩ := h.seen q seen hq
      have hne := hother seen hcreated
      refine ⟨by simpa [hne] using hcreated, fun since hlive => ?_⟩
      exact absurd (hholds _ since hlive).1 hne
  · rw [become_procs] at hq
    split at hq
    · cases hq
    · have hne := hother seen (h.seen q seen (Stage.seen?_of_breaks? hq)).1
      simpa [hne] using h.breaks q seen hq

theorem Sound.writes (h : Sound w) (touch : LockFile → LockFile)
    (htouch : ∀ file, touch file = file ∨ touch file = { file with mtimeMs := w.now }) :
    Sound { w with lock := w.lock.map touch } := by
  have hcreator : ∀ file, (touch file).creator = file.creator := by
    intro file
    rcases htouch file with heq | heq <;> rw [heq]
  refine ⟨h.clock, fun q since hq => ?_, fun file hfile => ?_, h.seen, h.breaks⟩
  · obtain ⟨file, hfile, rfl, hle⟩ := h.holder q since hq
    refine ⟨touch file, by rw [hfile]; rfl, hcreator file, ?_⟩
    rcases htouch file with heq | heq <;> rw [heq]
    · exact hle
    · exact h.clock _ since hq
  · obtain ⟨file', hfile', rfl⟩ := Option.map_eq_some_iff.mp hfile
    rw [hcreator]
    exact h.file file' hfile'

/-- The lock file is removed, and nobody but the one who removes it may hold the lock. -/
theorem Sound.removes (h : Sound w) (halone : ∀ q since, Holds w q since → q = p)
    (hsince : stage.since? = none) (hcreated : (w.procs p).hasCreated = true → stage.hasCreated = true)
    (hseen : stage.seen? = none) : Sound ({ w with lock := none }.become p stage) := by
  have hholds : ∀ q since, ¬ Holds ({ w with lock := none }.become p stage) q since := by
    intro q since hq
    unfold Holds at hq
    rw [become_procs] at hq
    split at hq
    · rw [hsince] at hq
      cases hq
    · rename_i hne
      exact hne (halone q since hq)
  have hnone : ∀ q, ((({ w with lock := none } : World).become p stage).procs q).since? = none := by
    intro q
    cases heq : ((({ w with lock := none } : World).become p stage).procs q).since? with
    | none => rfl
    | some since => exact absurd heq (hholds q since)
  refine ⟨fun q since hq => absurd hq (hholds q since), fun q since hq => absurd hq (hholds q since), ?_,
    fun q seen hq => ⟨?_, fun since hq => absurd hq (hholds _ since)⟩, fun q seen hq => hnone _⟩
  · intro file hfile
    cases hfile
  · rw [become_procs] at hq ⊢
    split at hq
    · rw [hseen] at hq
      cases hq
    · have hold := (h.seen q seen hq).1
      split
      · rename_i heq
        exact hcreated (heq ▸ hold)
      · exact hold

theorem Sound.crashes (h : Sound w) (p : Nat) : Sound (w.become p .crashed) := by
  have hholds : ∀ q since, Holds (w.become p .crashed) q since → Holds w q since := by
    intro q since hq
    unfold Holds at hq ⊢
    rw [become_procs] at hq
    split at hq
    · cases hq
    · exact hq
  refine ⟨fun q since hq => h.clock q since (hholds q since hq), fun q since hq => h.holder q since (hholds q since hq),
    fun file hfile => ?_, fun q seen hq => ?_, fun q seen hq => ?_⟩
  · unfold Holds
    rw [become_procs]
    split
    · exact .inr rfl
    · exact h.file file hfile
  · rw [become_procs] at hq
    split at hq
    · cases hq
    · obtain ⟨hcreated, hle⟩ := h.seen q seen hq
      refine ⟨?_, fun since hlive => hle since (hholds _ since hlive)⟩
      rw [become_procs]
      split
      · rfl
      · exact hcreated
  · rw [become_procs] at hq
    split at hq
    · cases hq
    · rw [become_procs]
      split
      · rfl
      · exact h.breaks q seen hq

/-! ## Runs -/

/-- Each live holder has held the lock for less than `staleMs`. -/
def Quick (o : FileLockOptions) (w : World) : Prop := ∀ p since, Holds w p since → w.now - since < o.staleMs

/-- A call that removes a stale lock file removes the one that it has found, or one of a crashed process. -/
def BreaksSeen (w : World) : Op → Prop
  | .step p => ∀ seen, (w.procs p).breaks? = some seen → ∀ file, w.lock = some file →
      file.creator = seen.creator ∨ w.procs file.creator = .crashed
  | _ => True

theorem Sound.crashed_of_breaks (h : Sound w) (hbreaks : (w.procs p).breaks? = some seen)
    (hc : BreaksSeen w (.step p)) (hfile : w.lock = some file) : w.procs file.creator = .crashed := by
  rcases hc seen hbreaks file hfile with heq | hcrashed
  · refine (h.file file hfile).resolve_left ?_
    rintro ⟨since, hlive⟩
    rw [Holds, heq, h.breaks p seen hbreaks] at hlive
    cases hlive
  · exact hcrashed

theorem Sound.resume (h : Sound w) (hquick : Quick o w) (hc : BreaksSeen w (.step p)) : Sound (w.resume o p) := by
  unfold World.resume
  split
  · rename_i started hp
    split
    · rename_i hlock
      exact h.acquires hp hlock
    · exact h.goes_on (by simp [hp, Stage.since?]) (by simp [hp, Stage.hasCreated]) (by simp [hp]) rfl
  · rename_i since hp
    refine (h.writes _ fun file => ?_).goes_on (by simp [hp, Stage.since?]) (fun _ => rfl) (by simp [hp]) rfl
    split
    · exact .inr rfl
    · exact .inl rfl
  · rename_i since hp
    exact h.goes_on (by simp [hp, Stage.since?]) (fun _ => rfl) (by simp [hp]) rfl
  · rename_i since hp
    exact h.goes_on (by simp [hp, Stage.since?]) (fun _ => rfl) (by simp [hp]) rfl
  · rename_i since hp
    have hlive : Holds w p since := by rw [Holds, hp]; rfl
    exact h.removes (fun q since' hq => h.unique hq hlive) rfl (fun _ => rfl) rfl
  · rename_i started hp
    split
    · exact h.goes_on (by simp [hp, Stage.since?]) (by simp [hp, Stage.hasCreated]) (by simp [hp]) rfl
    · rename_i file hfile
      refine h.become (by simp [hp, Stage.since?]) (by simp [hp, Stage.hasCreated]) (by simp [hp]) ?_
        (by simp [Stage.breaks?])
      rintro seen ⟨⟩
      refine ⟨?_, fun since hlive => ?_⟩
      · rcases h.file file hfile with ⟨since, hlive⟩ | hdead
        · exact Stage.hasCreated_of_since? hlive
        · rw [hdead]
          rfl
      · obtain ⟨file', hfile', -, hle⟩ := h.holder _ since hlive
        obtain rfl := Option.some.inj (hfile.symm.trans hfile')
        exact hle
  · rename_i started seen hp
    have hfound := h.seen p seen (by rw [hp]; rfl)
    split
    · rename_i hstale
      refine h.become (by simp [hp, Stage.since?]) (by simp [hp, Stage.hasCreated]) (by simp [hp]) ?_ ?_
      · rintro seen' ⟨⟩
        exact hfound
      · rintro seen' ⟨⟩
        cases heq : (w.procs seen.creator).since? with
        | none => rfl
        | some since =>
            have hle := hfound.2 since heq
            have hlt := hquick seen.creator since heq
            omega
    · split
      · exact h.goes_on (by simp [hp, Stage.since?]) (by simp [hp, Stage.hasCreated]) (by simp [hp]) rfl
      · exact h.goes_on (by simp [hp, Stage.since?]) (by simp [hp, Stage.hasCreated]) (by simp [hp]) rfl
  · rename_i started seen hp
    refine h.removes (fun q since hq => ?_) rfl (by simp [hp, Stage.hasCreated]) rfl
    obtain ⟨file, hfile, rfl, -⟩ := h.holder q since hq
    rw [Holds, h.crashed_of_breaks (p := p) (by rw [hp]; rfl) hc hfile] at hq
    cases hq
  · rename_i started hp
    exact h.goes_on (by simp [hp, Stage.since?]) (by simp [hp, Stage.hasCreated]) (by simp [hp]) rfl
  · exact h
  · exact h
  · exact h
  · exact h

theorem Sound.step (op : Op) (h : Sound w) (hquick : Quick o w) (hc : BreaksSeen w op) : Sound (w.step o op) := by
  cases op with
  | call p =>
      unfold World.step
      simp only
      split
      · rename_i hp
        exact h.goes_on (by simp [hp, Stage.since?]) (by simp [hp, Stage.hasCreated]) (by simp [hp]) rfl
      · exact h
  | step p => exact h.resume hquick hc
  | crash p => exact h.crashes p
  | advance ms =>
      refine ⟨fun q since hq => ?_, h.holder, h.file, h.seen, h.breaks⟩
      have hle : since ≤ w.now := h.clock q since hq
      have hnow : (w.step o (.advance ms)).now = w.now + ms := rfl
      omega

/-- A lock file is removed by a holder, or by a call that has found a stale one. -/
theorem resume_removes (hfile : w.lock = some file) (hnone : (w.resume o p).lock = none) :
    (∃ since, Holds w p since) ∨ ∃ seen, (w.procs p).breaks? = some seen := by
  unfold Holds
  unfold World.resume at hnone
  cases hp : w.procs p with
  | writeFile since | fn since | close since | unlinkOwn since => exact .inl ⟨since, rfl⟩
  | unlinkStale started seen => exact .inr ⟨seen, rfl⟩
  | judge started seen =>
      simp only [hp] at hnone
      split at hnone
      · simp [hfile] at hnone
      · split at hnone <;> simp [hfile] at hnone
  | _ => simp [hp, hfile] at hnone

/-- A run: at most one live holder, and no lock file is removed but by its creator or after its crash. -/
structure Exclusive (o : FileLockOptions) (w : World) (ops : List Op) : Prop where
  one : ∀ pre, pre <+: ops → ∀ p q since since', Holds (run (World.step o) w pre) p since →
    Holds (run (World.step o) w pre) q since' → p = q
  own : ∀ pre op, pre ++ [op] <+: ops → ∀ file, (run (World.step o) w pre).lock = some file →
    (run (World.step o) w (pre ++ [op])).lock = none →
      op = .step file.creator ∨ (run (World.step o) w pre).procs file.creator = .crashed

theorem Sound.removed (h : Sound w) (hc : BreaksSeen w op) (hfile : w.lock = some file)
    (hnone : (w.step o op).lock = none) : op = .step file.creator ∨ w.procs file.creator = .crashed := by
  unfold World.step at hnone
  cases op with
  | call p =>
      simp only at hnone
      split at hnone <;> simp [hfile] at hnone
  | step p =>
      rcases resume_removes hfile hnone with ⟨since, hlive⟩ | ⟨seen, hbreaks⟩
      · obtain ⟨file', hfile', rfl, -⟩ := h.holder p since hlive
        obtain rfl := Option.some.inj (hfile.symm.trans hfile')
        exact .inl rfl
      · exact .inr (h.crashed_of_breaks hbreaks hc hfile)
  | crash p => simp [hfile] at hnone
  | advance ms => simp [hfile] at hnone

/-- As long as each live holder is quick, and a stale lock file is removed only while it is still there. -/
theorem exclusive (o : FileLockOptions) (now : Int) (ops : List Op)
    (h : Under (World.step o) (fun w op => Quick o w ∧ BreaksSeen w op) { now } ops) : Exclusive o { now } ops := by
  have hsound : ∀ pre, pre <+: ops → Sound (run (World.step o) { now } pre) := by
    rintro pre ⟨post, rfl⟩
    exact run_invariant_under (fun w op hw hc => hw.step op hc.1 hc.2) (sound_init now) ((under_append ..).mp h).1
  refine ⟨fun pre hpre p q since since' hp hq => (hsound pre hpre).unique hp hq, fun pre op hpre file hfile hnone => ?_⟩
  rw [run_concat] at hnone
  have hc := under_iff_forall_concat.mp h pre op hpre
  exact (hsound pre ((List.prefix_append ..).trans hpre)).removed hc.2 hfile hnone

/-- A crashed holder, whose lock file the next call removes. -/
def broken : List Op :=
  [.call 0, .step 0, .crash 0, .advance 30001, .call 1, .step 1, .step 1, .step 1, .step 1, .step 1]

theorem quick_of_two (hzero : (w.procs 0).since?.all (fun since => decide (w.now - since < o.staleMs)) = true)
    (hone : (w.procs 1).since?.all (fun since => decide (w.now - since < o.staleMs)) = true)
    (hidle : ∀ p, w.procs (p + 2) = .idle) : Quick o w := by
  intro p since hq
  unfold Holds at hq
  obtain _ | _ | p := p
  · simpa [hq] using hzero
  · simpa [hq] using hone
  · simp [hidle, Stage.since?] at hq

theorem breaksSeen_of_none (h : (w.procs p).breaks? = none) : BreaksSeen w (.step p) := by
  intro seen hbreaks
  rw [h] at hbreaks
  cases hbreaks

theorem exclusive_broken : Exclusive {} { now := 0 } broken := by
  refine exclusive {} 0 broken ⟨⟨quick_of_two rfl rfl fun _ => rfl, trivial⟩,
    ⟨quick_of_two rfl rfl fun _ => rfl, breaksSeen_of_none rfl⟩, ⟨quick_of_two rfl rfl fun _ => rfl, trivial⟩,
    ⟨quick_of_two rfl rfl fun _ => rfl, trivial⟩, ⟨quick_of_two rfl rfl fun _ => rfl, trivial⟩,
    ⟨quick_of_two rfl rfl fun _ => rfl, breaksSeen_of_none rfl⟩,
    ⟨quick_of_two rfl rfl fun _ => rfl, breaksSeen_of_none rfl⟩,
    ⟨quick_of_two rfl rfl fun _ => rfl, breaksSeen_of_none rfl⟩,
    ⟨quick_of_two rfl rfl fun _ => rfl, fun seen _ file hfile => .inr ?_⟩,
    ⟨quick_of_two rfl rfl fun _ => rfl, breaksSeen_of_none rfl⟩, trivial⟩
  obtain rfl := Option.some.inj hfile
  rfl

/-- Two calls that have found the same stale lock file: the second one removes the lock file of the first. -/
theorem two_holders : ¬ Exclusive {} { now := 0 }
    [.call 0, .step 0, .crash 0, .advance 30001, .call 1, .step 1, .step 1, .step 1, .call 2, .step 2, .step 2,
      .step 2, .step 1, .step 1, .step 2, .step 2] := by
  intro h
  have hsame := h.one _ (List.prefix_refl _) 1 2 30001 30001 rfl rfl
  exact absurd hsame (by decide)

end WrongStack.FileLock
