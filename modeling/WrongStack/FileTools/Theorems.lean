import WrongStack.FileTools.Tools
import WrongStack.Utils.Lemmas.LineEnds

/-!
# What the log knows of the files

Only `write` and `edit` record what they find, and the record is in the log from the next checkpoint on. Of the
changes after a checkpoint, the rewinder sees those that were recorded before the next one.
-/

namespace WrongStack.FileTools

open Lib Utils Session Change

variable {c : Context} {r : Rewinder} {w : Workspace} {k : Int} {op : Op} {ops : List Op} {p absPath : AbsPath}

/-- The file whose change the call records. -/
def Workspace.records (c : Context) (w : Workspace) : Op → Option AbsPath
  | .write input => if input.path.isEmpty then none else c.safeResolve input.path
  | .edit input =>
      match w.editTarget c input with
      | .ok (absPath, original) => if ((edited input original).toOption.bind id).isSome then some absPath else none
      | .error _ => none
  | _ => none

/-- What the last recorded call on a file has found there, up to the next checkpoint. -/
def lastFound (c : Context) (p : AbsPath) : Workspace → List Op → Option (Option JsString)
  | _, [] => none
  | _, .checkpoint _ _ :: _ => none
  | w, op :: ops => (lastFound c p (w.step c op) ops).or (if w.records c op = some p then some (w.fs p) else none)

def nextCheckpoint : List Op → Option Int
  | [] => none
  | .checkpoint promptIndex _ :: _ => some promptIndex
  | _ :: ops => nextCheckpoint ops

def Op.isCheckpoint : Op → Bool
  | .checkpoint _ _ => true
  | _ => false

/-! ## One call -/

/-- The entry of a call that has found `before` at `absPath`. -/
structure Entry (absPath : AbsPath) (before : Option JsString) (file : FileSnapshot) : Prop where
  normal : Path.Normal absPath
  path : file.path = Path.text absPath
  before : file.before = before
  action : TrueAction file

/-- What a call other than a checkpoint does to the log and the pending changes. -/
structure Calls (c : Context) (w w' : Workspace) (recorded : Option AbsPath) : Prop where
  events : w'.events = w.events
  pending : (recorded = none ∧ w'.pendingFileSnapshots = w.pendingFileSnapshots) ∨ ∃ absPath file,
    recorded = some absPath ∧ Entry absPath (w.fs absPath) file ∧
      w'.pendingFileSnapshots = w.pendingFileSnapshots ++ [file]

theorem Calls.refl (w : Workspace) : Calls c w w none := ⟨rfl, .inl ⟨rfl, rfl⟩⟩

theorem normal_of_safeResolve {input : JsString} (h : c.safeResolve input = some absPath) : Path.Normal absPath := by
  unfold Context.safeResolve at h
  simp only at h
  split at h
  · obtain rfl := Option.some.inj h
    exact Path.normal_resolve c.normal input
  · cases h

theorem calls_write (input : WriteInput) :
    Calls c w (w.step c (.write input)) (w.records c (.write input)) := by
  simp only [Workspace.step, Workspace.write, Workspace.records]
  split
  · exact .refl w
  · cases hsafe : c.safeResolve input.path with
    | none => exact .refl w
    | some absPath =>
        refine ⟨rfl, .inr ⟨absPath, _, rfl, ⟨normal_of_safeResolve hsafe, rfl, rfl, ?_⟩, rfl⟩⟩
        cases hold : w.fs absPath <;> simp [TrueAction]

theorem editTarget_ok {input : EditInput} {original : JsString} (h : w.editTarget c input = .ok (absPath, original)) :
    Path.Normal absPath ∧ w.fs absPath = some original := by
  unfold Workspace.editTarget at h
  split at h
  · cases h
  · split at h
    · cases h
    · split at h
      · cases h
      · rename_i absPath' hsafe
        split at h
        · cases h
        · rename_i original' hold
          split at h
          · cases h
          · obtain ⟨rfl, rfl⟩ := Prod.mk.inj (Except.ok.inj h)
            exact ⟨normal_of_safeResolve hsafe, hold⟩

theorem calls_edit (input : EditInput) :
    Calls c w (w.step c (.edit input)) (w.records c (.edit input)) := by
  simp only [Workspace.step, Workspace.edit, Workspace.records]
  cases htarget : w.editTarget c input with
  | error e => exact .refl w
  | ok target =>
      obtain ⟨absPath, original⟩ := target
      obtain ⟨hnormal, hold⟩ := editTarget_ok htarget
      cases hedited : edited input original with
      | error e => simpa [hedited, bind, Except.bind, Except.toOption] using Calls.refl w
      | ok text =>
          cases text with
          | none => simpa [hedited, bind, Except.bind, pure, Except.pure, Except.toOption] using Calls.refl w
          | some newFile =>
              simp only [hedited, bind, Except.bind, pure, Except.pure, Except.toOption, Option.bind, id, Option.getD_some,
                Option.isSome_some, ↓reduceIte]
              exact ⟨rfl, .inr ⟨absPath, _, rfl, ⟨hnormal, rfl, hold.symm, by simp [TrueAction]⟩, rfl⟩⟩

/-- `replace` tells nobody. -/
theorem replaceIn_log (input : ReplaceInput) (find : JsString → List Match) (files : List AbsPath) (w : Workspace) :
    (files.foldl (fun w absPath => w.replaceIn c input find absPath) w).events = w.events ∧
      (files.foldl (fun w absPath => w.replaceIn c input find absPath) w).pendingFileSnapshots =
        w.pendingFileSnapshots := by
  induction files generalizing w with
  | nil => exact ⟨rfl, rfl⟩
  | cons absPath files ih =>
      have hone : (w.replaceIn c input find absPath).events = w.events ∧
          (w.replaceIn c input find absPath).pendingFileSnapshots = w.pendingFileSnapshots := by
        simp only [Workspace.replaceIn]
        split
        · exact ⟨rfl, rfl⟩
        · split
          · exact ⟨rfl, rfl⟩
          · split <;> exact ⟨rfl, rfl⟩
      obtain ⟨hevents, hpending⟩ := ih (w.replaceIn c input find absPath)
      exact ⟨hevents.trans hone.1, hpending.trans hone.2⟩

theorem calls_replace (input : ReplaceInput) : Calls c w (w.step c (.replace input)) none := by
  simp only [Workspace.step, Workspace.replace]
  split
  · exact .refl w
  · split
    · exact .refl w
    · split
      · exact .refl w
      · rename_i find _
        cases w.resolveFiles c input with
        | error e => exact .refl w
        | ok files =>
            obtain ⟨hevents, hpending⟩ := replaceIn_log (c := c) input find files w
            exact ⟨hevents, .inl ⟨rfl, hpending⟩⟩

theorem calls_step (hop : op.isCheckpoint = false) : Calls c w (w.step c op) (w.records c op) := by
  cases op with
  | write input => exact calls_write input
  | edit input => exact calls_edit input
  | replace input => exact calls_replace input
  | patch output =>
      simp only [Workspace.step, Workspace.patch]
      split
      · exact .refl w
      · exact ⟨rfl, .inl ⟨rfl, rfl⟩⟩
  | checkpoint => cases hop

/-! ## A run -/

theorem events_run (c : Context) (ops : List Op) (w : Workspace) :
    ∃ tail, (run (Workspace.step c) w ops).events = w.events ++ tail := by
  induction ops generalizing w with
  | nil => exact ⟨[], (List.append_nil _).symm⟩
  | cons op ops ih =>
      obtain ⟨tail, htail⟩ := ih (w.step c op)
      rw [run_cons, htail]
      cases hop : op.isCheckpoint with
      | false => exact ⟨tail, by rw [(calls_step hop).events]⟩
      | true =>
          cases op with
          | checkpoint promptIndex promptPreview =>
              simp only [Workspace.step, Workspace.writeCheckpoint, List.append_assoc]
              exact ⟨_, rfl⟩
          | _ => cases hop

theorem lastBefore_singleton (file : FileSnapshot) (before : Option JsString) (h : Entry absPath before file) :
    lastBefore [r.change file] p = if absPath = p then some before else none := by
  have hkey : (r.change file).key = absPath := by
    rw [Rewinder.change, Rewinder.absPath, h.path, Path.resolve_text r.cwd h.normal]
  have hbefore : (r.change file).before = before := h.before
  rw [lastBefore, List.reverse_singleton, firstBefore_cons, hkey, hbefore]
  rfl

theorem changes_singleton (j : Int) (files : List FileSnapshot) : r.changes [⟨j, files⟩] = files.map r.change := by
  simp [Rewinder.changes, filesOf]

/-- The rewinder undoes the recorded changes up to the next checkpoint, if that one is no earlier than `k`. -/
theorem undone_run (c : Context) (r : Rewinder) (k : Int) (ops : List Op) (w : Workspace)
    (h : ∀ file ∈ w.pendingFileSnapshots, TrueAction file) : ∃ tail,
    (run (Workspace.step c) w ops).events = w.events ++ tail ∧
      (∀ file ∈ filesOf (snapshotsToCheckpoint k tail), TrueAction file) ∧
      ∀ p, lastBefore (r.changes (snapshotsToCheckpoint k tail)) p =
        if (nextCheckpoint ops).any (k ≤ ·) then
          (lastFound c p w ops).or (lastBefore (w.pendingFileSnapshots.map r.change) p)
        else none := by
  induction ops generalizing w with
  | nil => exact ⟨[], (List.append_nil _).symm, by simp [snapshotsToCheckpoint, filesOf], fun _ => rfl⟩
  | cons op ops ih =>
      cases hop : op.isCheckpoint with
      | true =>
          cases op with
          | checkpoint promptIndex promptPreview =>
              obtain ⟨tail, htail⟩ := events_run c ops (w.step c (.checkpoint promptIndex promptPreview))
              rw [run_cons, htail]
              simp only [Workspace.step, Workspace.writeCheckpoint, List.append_assoc]
              refine ⟨_, rfl, ?_⟩
              cases hpending : w.pendingFileSnapshots with
              | nil => simp [snapshotsToCheckpoint, filesOf, nextCheckpoint, lastFound, Rewinder.changes, lastBefore,
                  firstBefore]
              | cons file files =>
                  by_cases hk : k ≤ promptIndex
                  · have hsnapshots : snapshotsToCheckpoint k ((if (file :: files).isEmpty = true then []
                        else [SessionEvent.fileSnapshot promptIndex (file :: files)]) ++
                        ([.checkpoint promptIndex promptPreview] ++ tail)) = [⟨promptIndex, file :: files⟩] := by
                      simp [snapshotsToCheckpoint, hk]
                    rw [hsnapshots, changes_singleton]
                    refine ⟨fun f hf => h f ?_, fun p => by simp [nextCheckpoint, hk, lastFound]⟩
                    rw [hpending]
                    simpa [filesOf] using hf
                  · have hsnapshots : snapshotsToCheckpoint k ((if (file :: files).isEmpty = true then []
                        else [SessionEvent.fileSnapshot promptIndex (file :: files)]) ++
                        ([.checkpoint promptIndex promptPreview] ++ tail)) = [] := by
                      simp [snapshotsToCheckpoint, hk]
                    rw [hsnapshots]
                    exact ⟨by simp [filesOf], fun p => by simp [nextCheckpoint, hk, Rewinder.changes, filesOf, lastBefore,
                      firstBefore]⟩
          | _ => cases hop
      | false =>
          have hcalls := calls_step (c := c) (w := w) hop
          have hnext : nextCheckpoint (op :: ops) = nextCheckpoint ops := by cases op <;> first | rfl | cases hop
          have hfound : ∀ p, lastFound c p w (op :: ops) = (lastFound c p (w.step c op) ops).or
              (if w.records c op = some p then some (w.fs p) else none) := by
            intro p
            cases op <;> first | rfl | cases hop
          have hpending : (∀ file ∈ (w.step c op).pendingFileSnapshots, TrueAction file) ∧
              ∀ p, lastBefore ((w.step c op).pendingFileSnapshots.map r.change) p =
                (if w.records c op = some p then some (w.fs p) else none).or
                  (lastBefore (w.pendingFileSnapshots.map r.change) p) := by
            rcases hcalls.pending with ⟨hnone, hsame⟩ | ⟨absPath, file, hsome, hentry, hnew⟩
            · rw [hsame]
              exact ⟨h, fun p => by simp [hnone]⟩
            · rw [hnew]
              refine ⟨fun f hf => ?_, fun p => ?_⟩
              · rcases List.mem_append.mp hf with hold | hlast
                · exact h f hold
                · obtain rfl := List.mem_singleton.mp hlast
                  exact hentry.action
              · rw [List.map_append, List.map_singleton, lastBefore_append, lastBefore_singleton file _ hentry, hsome]
                by_cases heq : absPath = p
                · simp [heq]
                · simp [heq]
          obtain ⟨tail, htail, haction, hlast⟩ := ih (w.step c op) hpending.1
          refine ⟨tail, by rw [run_cons, htail, hcalls.events], haction, fun p => ?_⟩
          rw [hlast p, hnext, hfound, hpending.2 p, Option.or_assoc]

end WrongStack.FileTools

/-!
# What a rewind undoes
-/

namespace WrongStack.FileTools

open Lib Utils Session

/-- The call recorded last before the next checkpoint has found the file as it was at checkpoint `k`. Without such a
call, with the next checkpoint still to come, and where the rewinder does not go, the file itself is as it was. -/
def Recovers (c : Context) (r : Rewinder) (k : Int) (w : Workspace) (ops : List Op) (p : AbsPath) : Prop :=
  (if escapes r.root p || !(nextCheckpoint ops).any (k ≤ ·) then none else lastFound c p w ops).getD
    ((run (Workspace.step c) w ops).fs p) = w.fs p

/-- A rewind to checkpoint `k` at the end of a session leaves the files `paths` as they were at that checkpoint, exactly
if each of them is one that the log recovers. -/
theorem rewind_undoes_iff (c : Context) (r : Rewinder) (paths : Set AbsPath) (w : Workspace) (k : Int)
    (preview : JsString) (ops : List Op) (h : ∀ e ∈ w.events, isCheckpoint k e = false) :
    ∃ fs' result,
      r.rewindToCheckpoint (run (Workspace.step c) (w.writeCheckpoint k preview) ops).events
        (run (Workspace.step c) (w.writeCheckpoint k preview) ops).fs k = .ok (fs', result) ∧
      (SameFiles paths fs' w.fs ↔ ∀ p ∈ paths, Recovers c r k (w.writeCheckpoint k preview) ops p) := by
  obtain ⟨tail, htail, haction, hlast⟩ := undone_run c r k ops (w.writeCheckpoint k preview) (by
    simp [Workspace.writeCheckpoint])
  obtain ⟨log, hlog, hbefore⟩ : ∃ log, (w.writeCheckpoint k preview).events = log ++ [.checkpoint k preview] ∧
      ∀ e ∈ log, isCheckpoint k e = false := by
    refine ⟨_, rfl, fun e he => ?_⟩
    rcases List.mem_append.mp he with hold | hnew
    · exact h e hold
    · split at hnew
      · cases hnew
      · obtain rfl := List.mem_singleton.mp hnew
        rfl
  have hfind : (log ++ [SessionEvent.checkpoint k preview] ++ tail).findIdx? (isCheckpoint k) = some log.length := by
    rw [List.append_assoc, List.findIdx?_append, List.findIdx?_eq_none_iff.mpr hbefore]
    simp [List.findIdx?_cons, isCheckpoint]
  have hdrop : (log ++ [SessionEvent.checkpoint k preview] ++ tail).drop (log.length + 1) = tail :=
    List.drop_left' (by simp)
  rw [htail, hlog]
  refine ⟨_, _, by rw [Rewinder.rewindToCheckpoint, hfind], ?_⟩
  refine forall₂_congr fun p _ => ?_
  rw [hdrop, Recovers]
  simp only [Rewinder.finish]
  rw [Rewinder.revertSnapshots_fs haction, hlast p]
  have hfs : (w.writeCheckpoint k preview).fs = w.fs := rfl
  have hpending : Change.lastBefore ((w.writeCheckpoint k preview).pendingFileSnapshots.map r.change) p = none := rfl
  rw [hfs, hpending, Option.or_none]
  cases escapes r.root p with
  | true => rfl
  | false => cases (nextCheckpoint ops).any (k ≤ ·) <;> rfl

/-! ## One file -/

def project : Context where
  workingDir := [js "p"]
  projectRoot := [js "p"]
  wstackGlobalRoot := [js "home"]
  normal := by
    intro s hs
    obtain rfl := List.mem_singleton.mp hs
    decide

def rewinder : Rewinder := { projectRoot := js "/p", cwd := [js "p"] }

def oneFile : Workspace := { fs := Function.update (fun _ => none) [js "p", js "a"] (some (js "x")) }

theorem rewind_undoes_write :
    ∃ fs' result,
      rewinder.rewindToCheckpoint
        (run (Workspace.step project) (oneFile.writeCheckpoint 0 [])
          [.write { path := js "a", content := js "y" }, .checkpoint 1 []]).events
        (run (Workspace.step project) (oneFile.writeCheckpoint 0 [])
          [.write { path := js "a", content := js "y" }, .checkpoint 1 []]).fs 0 = .ok (fs', result) ∧
      SameFiles { [js "p", js "a"] } fs' oneFile.fs := by
  obtain ⟨fs', result, hrewind, hiff⟩ := rewind_undoes_iff project rewinder { [js "p", js "a"] } oneFile 0 []
    [.write { path := js "a", content := js "y" }, .checkpoint 1 []] (by simp [oneFile])
  refine ⟨fs', result, hrewind, hiff.mpr fun p hp => ?_⟩
  obtain rfl : p = [js "p", js "a"] := hp
  unfold Recovers
  decide +kernel

/-- `x` becomes `y` in the only file. -/
def replaceX : ReplaceInput where
  pattern := js "x"
  compiled := some fun s => if s = js "x" then [{ index := 0, length := 1 }] else []
  replacement := js "y"
  files := js "a"
  dryRun := false

/-- A change by `replace` stays, and so does one by `write` that no checkpoint has followed. -/
theorem rewind_leaves :
    (∃ fs' result,
      rewinder.rewindToCheckpoint
        (run (Workspace.step project) (oneFile.writeCheckpoint 0 []) [.replace replaceX, .checkpoint 1 []]).events
        (run (Workspace.step project) (oneFile.writeCheckpoint 0 []) [.replace replaceX, .checkpoint 1 []]).fs 0 =
          .ok (fs', result) ∧ ¬ SameFiles { [js "p", js "a"] } fs' oneFile.fs) ∧
    ∃ fs' result,
      rewinder.rewindToCheckpoint
        (run (Workspace.step project) (oneFile.writeCheckpoint 0 [])
          [.write { path := js "a", content := js "y" }]).events
        (run (Workspace.step project) (oneFile.writeCheckpoint 0 [])
          [.write { path := js "a", content := js "y" }]).fs 0 = .ok (fs', result) ∧
      ¬ SameFiles { [js "p", js "a"] } fs' oneFile.fs := by
  refine ⟨⟨_, _, rfl, fun h => ?_⟩, ⟨_, _, rfl, fun h => ?_⟩⟩
  · have hfile := h [js "p", js "a"] rfl
    revert hfile
    decide +kernel
  · have hfile := h [js "p", js "a"] rfl
    revert hfile
    decide +kernel

end WrongStack.FileTools

/-!
# What an edit changes
-/

namespace WrongStack.FileTools

open Lib Utils Session

variable {c : Context} {w w' : Workspace} {absPath : AbsPath} {input : EditInput} {original : JsString}

/-- The occurrences of the old text, from left to right, are replaced by the characters of the new one, and
all else is as it was. -/
structure EditsVerbatim (w w' : Workspace) (absPath : AbsPath) (original : JsString) (input : EditInput) :
    Prop where
  text : w'.fs absPath = some (replaceTokens (normalizeToLf input.oldString)
    (toStyle input.newString (detectNewlineStyle original)) 0 (lineTokens original))
  others : ∀ p, p ≠ absPath → w'.fs p = w.fs p
  unique : input.replaceAll = false →
    occurrences (normalizeToLf input.oldString) (normalizeToLf original) = 1
  replacements : input.replacements original =
    replacedCount (normalizeToLf input.oldString) 0 (normalizeToLf original)

/-- The characters outside the occurrences have the style of the file, no two occurrences overlap that are
all to be replaced, and one that is replaced alone has a new text whose dollar patterns stand for
themselves. -/
structure Editable (original : JsString) (input : EditInput) : Prop where
  styled : ∀ t ∈ keptTokens (normalizeToLf input.oldString) 0 (lineTokens original),
    toStyle t (detectNewlineStyle original) = t
  disjoint : input.replaceAll = true →
    ¬ Overlap (normalizeToLf input.oldString) (normalizeToLf original)
  literal : input.replaceAll = false → ∀ pre post,
    normalizeToLf original = pre ++ normalizeToLf input.oldString ++ post →
    expandReplacement (normalizeToLf input.oldString) pre post (normalizeToLf input.newString) =
      normalizeToLf input.newString

/-- What an accepted edit has replaced the occurrences by. -/
theorem edited_spec (hold : normalizeToLf input.oldString ≠ []) {newFile : JsString}
    (h : edited input original = .ok (some newFile)) :
    0 < replacedCount (normalizeToLf input.oldString) 0 (normalizeToLf original) ∧
    (input.replaceAll = false → occurrences (normalizeToLf input.oldString) (normalizeToLf original) = 1) ∧
    ∃ r, 13 ∉ r ∧ (normalizeToLf input.newString = [] → r = []) ∧
      newFile = (replaceEvery (normalizeToLf input.oldString) r 0 (normalizeToLf original)).flatMap
        (styleUnit (detectNewlineStyle original)) ∧
      (r = normalizeToLf input.newString ↔ (input.replaceAll = false → ∀ pre post,
        normalizeToLf original = pre ++ normalizeToLf input.oldString ++ post →
        expandReplacement (normalizeToLf input.oldString) pre post (normalizeToLf input.newString) =
          normalizeToLf input.newString)) := by
  have hfile := cr_not_mem_normalizeToLf original
  have hneedle := cr_not_mem_normalizeToLf input.oldString
  have hnew := cr_not_mem_normalizeToLf input.newString
  simp only [edited] at h
  generalize normalizeToLf original = fileLf at h hfile ⊢
  generalize normalizeToLf input.oldString = oldLf at h hold hneedle ⊢
  generalize normalizeToLf input.newString = newLf at h hnew ⊢
  split at h
  · cases h
  · split at h
    · cases h
    · rename_i hcount
      have hpos := Nat.pos_of_ne_zero hcount
      split at h
      · cases h
      · rename_i hone
        refine ⟨replacedCount_pos hpos, ?_⟩
        cases hall : input.replaceAll with
        | true =>
            rw [hall] at h
            refine ⟨fun hf => absurd hf (by simp), newLf, hnew, id, ?_, iff_of_true rfl fun hf => absurd hf (by simp)⟩
            rw [← toStyle_of_lf (replaceEvery_no_cr hfile hnew)]
            exact (Option.some.inj (Except.ok.inj h)).symm
        | false =>
            rw [hall] at h hone
            have hunique : occurrences oldLf fileLf = 1 := by
              simp only [Bool.not_false, Bool.and_true, decide_eq_true_eq] at hone
              omega
            obtain ⟨-, pre, post, htext, hfirst⟩ := replaceFirst_of_one hold hunique []
            have hparts : 13 ∉ pre ∧ 13 ∉ post := by
              rw [htext] at hfile
              simp only [List.mem_append, not_or] at hfile
              exact ⟨hfile.1.1, hfile.2⟩
            have hr := expandReplacement_no_cr hneedle hparts.1 hparts.2 hnew
            rw [List.nil_append, List.nil_append] at hfirst
            refine ⟨fun _ => hunique, expandReplacement oldLf pre post newLf, hr, fun hnil => ?_, ?_, ?_⟩
            · rw [hnil]
              rfl
            · rw [← toStyle_of_lf (replaceEvery_no_cr hfile hr), ← hfirst]
              exact (Option.some.inj (Except.ok.inj h)).symm
            · refine ⟨fun heq _ pre' post' htext' => ?_, fun hlit => hlit rfl pre post htext⟩
              rw [htext] at hunique htext'
              obtain ⟨rfl, rfl⟩ := one_place hold hunique htext'
              exact heq

/-- An accepted edit that has something to do writes the file. -/
theorem edit_writes (htarget : w.editTarget c input = .ok (absPath, original)) (hedit : w.edit c input = .ok w')
    (hnew : normalizeToLf input.oldString ≠ normalizeToLf input.newString) :
    normalizeToLf input.oldString ≠ [] ∧ ∃ newFile, edited input original = .ok (some newFile) ∧
      w'.fs = Function.update w.fs absPath (some newFile) := by
  constructor
  · unfold Workspace.editTarget at htarget
    split at htarget
    · cases htarget
    · split at htarget
      · cases htarget
      · rename_i hold
        intro hnil
        rw [← map_lfUnit_lineTokens, List.map_eq_nil_iff] at hnil
        have hflat := flatten_lineTokens input.oldString
        rw [hnil] at hflat
        rw [← hflat] at hold
        exact hold rfl
  · simp only [Workspace.edit, htarget, bind, Except.bind] at hedit
    cases hedited : edited input original with
    | error e =>
        rw [hedited] at hedit
        cases hedit
    | ok text =>
        rw [hedited] at hedit
        cases text with
        | none =>
            exfalso
            simp only [edited, if_neg hnew] at hedited
            split at hedited
            · cases hedited
            · split at hedited <;> cases hedited
        | some newFile =>
            obtain rfl := Except.ok.inj hedit
            exact ⟨newFile, rfl, rfl⟩

/-- An accepted edit changes only its matches, and these into the new text, exactly when the text is
editable. -/
theorem edit_iff (htarget : w.editTarget c input = .ok (absPath, original)) (hedit : w.edit c input = .ok w')
    (hnew : normalizeToLf input.oldString ≠ normalizeToLf input.newString) :
    EditsVerbatim w w' absPath original input ↔ Editable original input := by
  obtain ⟨hold, newFile, hedited, hfs⟩ := edit_writes htarget hedit hnew
  obtain ⟨hpos, hunique, r, hr, hnil, rfl, hlit⟩ := edited_spec hold hedited
  obtain ⟨hle, hoverlap⟩ := occurrences_eq_replacedCount hold (normalizeToLf original)
  have htokens := lineTokens_lineTokens original
  have htoken : ∀ t ∈ keptTokens (normalizeToLf input.oldString) 0 (lineTokens original),
      toStyle t (detectNewlineStyle original) = styleUnit (detectNewlineStyle original) (lfUnit t) :=
    fun t ht => toStyle_token (keptTokens_lineTokens htokens t ht) _
  have hcount : input.replacements original =
      replacedCount (normalizeToLf input.oldString) 0 (normalizeToLf original) ↔ (input.replaceAll = true →
        ¬ Overlap (normalizeToLf input.oldString) (normalizeToLf original)) := by
    rw [EditInput.replacements, if_neg hnew]
    cases hall : input.replaceAll with
    | true => simpa using hoverlap
    | false =>
        have hone := hunique hall
        refine iff_of_true ?_ fun hf => absurd hf (by simp)
        change 1 = _
        omega
  have hnorm := map_lfUnit_lineTokens original
  rw [← hnorm] at hfs hpos
  constructor
  · intro h
    have htext := h.text
    rw [hfs, Function.update_self, Option.some_inj, toStyle_eq] at htext
    have hxs : 13 ∉ replaceEvery (normalizeToLf input.oldString) r 0 (normalizeToLf original) :=
      replaceEvery_no_cr (cr_not_mem_normalizeToLf original) hr
    rw [← hnorm] at hxs
    have hstyled := styled_of_replaced htokens hxs (cr_not_mem_normalizeToLf input.newString)
      (fun hn => by rw [hnil hn]) htext
    refine ⟨fun t ht => (htoken t ht).trans (hstyled t ht), hcount.mp h.replacements, hlit.mp ?_⟩
    -- the styled texts are equal, so the normal forms are
    rw [← flatMap_replaceEvery hstyled] at htext
    have hnew' : 13 ∉ replaceEvery (normalizeToLf input.oldString) (normalizeToLf input.newString) 0
        (normalizeToLf original) :=
      replaceEvery_no_cr (cr_not_mem_normalizeToLf original) (cr_not_mem_normalizeToLf input.newString)
    rw [← hnorm] at hnew'
    exact replaceEvery_injective hpos (flatMap_styleUnit_injective _ hxs hnew' htext)
  · intro h
    have hstyled : ∀ t ∈ keptTokens (normalizeToLf input.oldString) 0 (lineTokens original),
        styleUnit (detectNewlineStyle original) (lfUnit t) = t := fun t ht =>
      (htoken t ht).symm.trans (h.styled t ht)
    refine ⟨?_, fun p hp => ?_, hunique, hcount.mpr h.disjoint⟩
    · rw [hfs, Function.update_self, toStyle_eq, hlit.mpr h.literal, flatMap_replaceEvery hstyled]
    · rw [hfs, Function.update_of_ne hp]

/-- `x` becomes the given text. -/
def editX (newString : String) : EditInput :=
  { path := js "a", oldString := js "x", newString := js newString }

theorem edit_iff_plain :
    oneFile.editTarget project (editX "y") = .ok ([js "p", js "a"], js "x") ∧
    ∃ w', oneFile.edit project (editX "y") = .ok w' ∧
      (EditsVerbatim oneFile w' [js "p", js "a"] (js "x") (editX "y") ↔ Editable (js "x") (editX "y")) :=
  ⟨by decide +kernel, _, rfl, edit_iff (c := project) (by decide +kernel) rfl (by decide +kernel)⟩

/-- A new text of two dollar signs leaves one. -/
theorem edit_expands :
    ¬ ∀ (c : Context) (w w' : Workspace) (absPath : AbsPath) (input : EditInput) (original : JsString),
      w.editTarget c input = .ok (absPath, original) → w.edit c input = .ok w' →
      normalizeToLf input.oldString ≠ normalizeToLf input.newString →
      EditsVerbatim w w' absPath original input := by
  intro h
  have hedit := h project oneFile _ [js "p", js "a"] (editX "$$") (js "x") (by decide +kernel) rfl (by decide +kernel)
  have htext := hedit.text
  revert htext
  decide +kernel

end WrongStack.FileTools
