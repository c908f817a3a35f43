import Mathlib.Data.Set.Defs
import WrongStack.Session.Writer
import WrongStack.Utils.Path
import WrongStack.Lib.Journal

/-!
# The session rewinder

`DefaultSessionRewinder` (`core/src/storage/session-rewinder.ts`) on the events of a session log. A
file system maps absolute paths to contents; writing a file creates the directories it needs.
-/

namespace WrongStack.Session

open Lib Utils

abbrev FileSystem := AbsPath → Option JsString

structure Rewinder where
  projectRoot : JsString
  /-- `process.cwd()` -/
  cwd : AbsPath

structure Snapshot where
  promptIndex : Int
  files : List FileSnapshot

structure RewindResultExtended where
  revertedFiles : List JsString := []
  errors : List JsString := []
  toPromptIndex : Int := 0
  removedEvents : Nat := 0
  deriving DecidableEq

structure SessionError where
  message : JsString
  code : JsString
  checkpointIndex : Int
  deriving DecidableEq

/-! ## Reverting files -/

structure Reverting where
  fs : FileSystem
  revertedFiles : List JsString := []
  errors : List JsString := []

/-- The guard of `revertSnapshots` on a resolved path. -/
def escapes (root absPath : AbsPath) : Bool :=
  let rel := Path.relative root absPath
  (js "..").isPrefixOf rel || Path.isAbsolute rel

namespace Rewinder

variable (r : Rewinder)

def root : AbsPath := Path.resolve r.cwd r.projectRoot

def absPath (file : FileSnapshot) : AbsPath := Path.resolve r.cwd file.path

/-- `atomicWrite(file.path, file.before)`, if there is a content to write. -/
def restore (file : FileSnapshot) (x : Reverting) : Reverting :=
  match file.before with
  | some content =>
      { x with
        fs := Function.update x.fs (r.absPath file) (some content)
        revertedFiles := x.revertedFiles ++ [file.path] }
  | none => x

def revertFile (x : Reverting) (file : FileSnapshot) : Reverting :=
  if escapes r.root (r.absPath file) then
    { x with
      errors := x.errors ++ [file.path ++ js ": path resolves outside project root — skipping"] }
  else
    match file.action with
    | .deleted => r.restore file x
    | .created =>
        match x.fs (r.absPath file) with
        | some _ =>
            { x with
              fs := Function.update x.fs (r.absPath file) none
              revertedFiles := x.revertedFiles ++ [file.path] }
        | none =>
            { x with
              errors := x.errors ++ [file.path ++ js ": ENOENT: no such file or directory, unlink '" ++
                file.path ++ js "'"] }
    | .modified => r.restore file x

def revertSnapshots (snapshots : List Snapshot) (fs : FileSystem) : Reverting :=
  snapshots.foldl (fun x snapshot => snapshot.files.foldl r.revertFile x) { fs }

/-! ## Entry points -/

/-- The result of reverting, and the files after it. -/
def finish (snapshots : List Snapshot) (fs : FileSystem) (toPromptIndex : Int) (removedEvents : Nat) :
    FileSystem × RewindResultExtended :=
  let x := r.revertSnapshots snapshots fs
  (x.fs, { revertedFiles := x.revertedFiles, errors := x.errors, toPromptIndex, removedEvents })

end Rewinder

def isCheckpoint (index : Int) : SessionEvent → Bool
  | .checkpoint promptIndex _ => promptIndex = index
  | _ => false

/-- The snapshots up to the next checkpoint, without those of earlier prompts. -/
def snapshotsToCheckpoint (checkpointIndex : Int) : List SessionEvent → List Snapshot
  | [] => []
  | .checkpoint _ _ :: _ => []
  | .fileSnapshot promptIndex files :: events =>
      if checkpointIndex ≤ promptIndex then
        ⟨promptIndex, files⟩ :: snapshotsToCheckpoint checkpointIndex events
      else snapshotsToCheckpoint checkpointIndex events
  | _ :: events => snapshotsToCheckpoint checkpointIndex events

def allSnapshots (events : List SessionEvent) : List Snapshot :=
  events.filterMap fun
    | .fileSnapshot promptIndex files => some ⟨promptIndex, files⟩
    | _ => none

/-- The loop of `rewindLastN`. -/
def snapshotsAfter (targetIndex : Int) : Bool → List SessionEvent → List Snapshot
  | _, [] => []
  | shouldRevert, .checkpoint promptIndex _ :: events =>
      snapshotsAfter targetIndex (shouldRevert || promptIndex = targetIndex) events
  | shouldRevert, .fileSnapshot promptIndex files :: events =>
      if shouldRevert then ⟨promptIndex, files⟩ :: snapshotsAfter targetIndex shouldRevert events
      else snapshotsAfter targetIndex shouldRevert events
  | shouldRevert, _ :: events => snapshotsAfter targetIndex shouldRevert events

def checkpointIndices (events : List SessionEvent) : List Int :=
  events.filterMap fun
    | .checkpoint promptIndex _ => some promptIndex
    | _ => none

/-- The index `rewindLastN` chooses: that of the `n`-th checkpoint, the highest index first. -/
def lastNTarget (events : List SessionEvent) (n : Nat) : Int :=
  (((checkpointIndices events).mergeSort fun a b => b ≤ a)[n]?).getD 0

namespace Rewinder

variable (r : Rewinder)

def rewindToCheckpoint (events : List SessionEvent) (fs : FileSystem) (checkpointIndex : Int) :
    Except SessionError (FileSystem × RewindResultExtended) :=
  match events.findIdx? (isCheckpoint checkpointIndex) with
  | none =>
      .error
        { message := js ("Checkpoint " ++ toString checkpointIndex ++ " not found")
          code := js "SESSION_NOT_FOUND"
          checkpointIndex }
  | some targetIdx =>
      .ok (r.finish (snapshotsToCheckpoint checkpointIndex (events.drop (targetIdx + 1))) fs
        checkpointIndex (events.length - targetIdx - 1))

def rewindLastN (events : List SessionEvent) (fs : FileSystem) (n : Nat) :
    FileSystem × RewindResultExtended :=
  if (checkpointIndices events).isEmpty then (fs, {})
  else
    let targetIndex := lastNTarget events n
    let snapshotsToRevert := (snapshotsAfter targetIndex false events).reverse
    r.finish snapshotsToRevert fs targetIndex snapshotsToRevert.length

def rewindToStart (events : List SessionEvent) (fs : FileSystem) : FileSystem × RewindResultExtended :=
  let snapshots := allSnapshots events
  if snapshots.isEmpty then (fs, {})
  else r.finish snapshots.reverse fs 0 snapshots.length

end Rewinder

end WrongStack.Session

/-!
# What rewinding leaves on disk

The entries of the snapshots are a journal of the files. Each entry that is reverted undoes its
change, so a file is left with what the last entry reverted found there.
-/

namespace WrongStack.Session

open Lib Utils Change

/-! ## The log as a journal -/

/-- The action says what the contents say. -/
def TrueAction (file : FileSnapshot) : Prop :=
  match file.action with
  | .created => file.before = none ∧ file.after.isSome
  | .modified => file.before.isSome ∧ file.after.isSome
  | .deleted => file.before.isSome ∧ file.after = none

instance (file : FileSnapshot) : Decidable (TrueAction file) := by
  unfold TrueAction
  cases file.action <;> infer_instance

/-- The same content, or absence, at every path of `paths`. -/
def SameFiles (paths : Set AbsPath) (fs fs' : FileSystem) : Prop := ∀ p ∈ paths, fs p = fs' p

def filesOf (snapshots : List Snapshot) : List FileSnapshot := snapshots.flatMap Snapshot.files

namespace Rewinder

variable (r : Rewinder)

def change (file : FileSnapshot) : Change AbsPath (Option JsString) where
  key := r.absPath file
  before := file.before
  after := file.after

def changes (snapshots : List Snapshot) : List (Change AbsPath (Option JsString)) :=
  (filesOf snapshots).map r.change

/-- The log is true of what happened to the files from `fs` on. -/
structure TrueLog (fs : FileSystem) (events : List SessionEvent) : Prop where
  action : ∀ file ∈ filesOf (allSnapshots events), TrueAction file
  recorded : Recorded fs (r.changes (allSnapshots events))

def filesAfter (fs : FileSystem) (events : List SessionEvent) : FileSystem :=
  (r.changes (allSnapshots events)).foldl redo fs

def touches (p : AbsPath) (snapshot : Snapshot) : Bool :=
  snapshot.files.any fun file => r.absPath file = p

/-- The entry reverted last found what the first entry after the checkpoint found. A file without
such an entry counts with its current content, and so does one that the guard skips. -/
def LastIsFirst (paths : Set AbsPath) (undone later : List Snapshot) (current : FileSystem) : Prop :=
  ∀ p ∈ paths,
    (if escapes r.root p then current p else (lastBefore (r.changes undone) p).getD (current p)) =
      (firstBefore (r.changes later) p).getD (current p)

/-- In the first snapshot that touches a file, its first and its last entry found the same. A file
that the guard skips has the content that was found. -/
def LevelFirst (paths : Set AbsPath) (snapshots : List Snapshot) (current : FileSystem) : Prop :=
  ∀ p ∈ paths, ∀ snapshot, snapshots.find? (r.touches p) = some snapshot →
    if escapes r.root p then firstBefore (r.changes [snapshot]) p = some (current p)
    else firstBefore (r.changes [snapshot]) p = lastBefore (r.changes [snapshot]) p

variable {r}

theorem changes_append (ss ts : List Snapshot) : r.changes (ss ++ ts) = r.changes ss ++ r.changes ts := by
  simp [changes, filesOf]

/-! ## Reverting -/

theorem revertFile_fs (x : Reverting) {file : FileSnapshot} (h : TrueAction file) :
    (r.revertFile x file).fs =
      if escapes r.root (r.absPath file) then x.fs else undo x.fs (r.change file) := by
  unfold revertFile
  split
  · rfl
  · cases hact : file.action with
    | created =>
        simp only [TrueAction, hact] at h
        simp only [undo, change, h.1]
        cases hfs : x.fs (r.absPath file) with
        | some content => rfl
        | none =>
            have hsame : Function.update x.fs (r.absPath file) none = x.fs := by
              rw [← hfs, Function.update_eq_self]
            rw [hsame]
    | modified =>
        simp only [TrueAction, hact, Option.isSome_iff_exists] at h
        obtain ⟨content, hbefore⟩ := h.1
        simp [restore, undo, change, hbefore]
    | deleted =>
        simp only [TrueAction, hact, Option.isSome_iff_exists] at h
        obtain ⟨content, hbefore⟩ := h.1
        simp [restore, undo, change, hbefore]

theorem foldl_revertFile_fs {files : List FileSnapshot} (h : ∀ file ∈ files, TrueAction file)
    (x : Reverting) : (files.foldl r.revertFile x).fs =
      (((files.map r.change).filter fun c => !escapes r.root c.key).foldl undo x.fs) := by
  induction files generalizing x with
  | nil => rfl
  | cons file files ih =>
      obtain ⟨hfile, hrest⟩ := List.forall_mem_cons.mp h
      rw [List.foldl_cons, ih hrest, revertFile_fs x hfile, List.map_cons]
      cases hout : escapes r.root (r.absPath file) with
      | true => simp [change, hout]
      | false => simp [change, hout]

theorem foldl_files (snapshots : List Snapshot) (x : Reverting) :
    snapshots.foldl (fun x snapshot => snapshot.files.foldl r.revertFile x) x =
      (filesOf snapshots).foldl r.revertFile x := by
  induction snapshots generalizing x with
  | nil => rfl
  | cons snapshot snapshots ih =>
      rw [List.foldl_cons, ih]
      simp only [filesOf, List.flatMap_cons, List.foldl_append]

theorem revertSnapshots_fs {snapshots : List Snapshot}
    (h : ∀ file ∈ filesOf snapshots, TrueAction file) (fs : FileSystem) (p : AbsPath) :
    (r.revertSnapshots snapshots fs).fs p =
      if escapes r.root p then fs p else (lastBefore (r.changes snapshots) p).getD (fs p) := by
  rw [revertSnapshots, foldl_files, foldl_revertFile_fs h, foldl_undo_apply, ← changes,
    lastBefore_filter fun key => !escapes r.root key]
  cases escapes r.root p <;> rfl

/-! ## The first snapshot that touches a file -/

theorem firstBefore_of_touches {p : AbsPath} {snapshot : Snapshot} (h : r.touches p snapshot = true) :
    ∃ a b, firstBefore (r.changes [snapshot]) p = some a ∧
      lastBefore (r.changes [snapshot]) p = some b := by
  have hmem : ∃ c ∈ r.changes [snapshot], c.key = p := by
    simpa [touches, changes, filesOf, change] using h
  obtain ⟨c, hc, hkey⟩ := hmem
  have hfirst : firstBefore (r.changes [snapshot]) p ≠ none := fun hn => firstBefore_eq_none.mp hn c hc hkey
  have hlast : lastBefore (r.changes [snapshot]) p ≠ none := fun hn => lastBefore_eq_none.mp hn c hc hkey
  obtain ⟨a, ha⟩ := Option.ne_none_iff_exists'.mp hfirst
  obtain ⟨b, hb⟩ := Option.ne_none_iff_exists'.mp hlast
  exact ⟨a, b, ha, hb⟩

theorem before_of_not_touches {p : AbsPath} {snapshot : Snapshot} (h : r.touches p snapshot = false) :
    firstBefore (r.changes [snapshot]) p = none ∧ lastBefore (r.changes [snapshot]) p = none := by
  have hno : ∀ c ∈ r.changes [snapshot], c.key ≠ p := by
    simpa [touches, changes, filesOf, change] using h
  exact ⟨firstBefore_eq_none.mpr hno, lastBefore_eq_none.mpr hno⟩

theorem firstBefore_changes (snapshots : List Snapshot) (p : AbsPath) :
    firstBefore (r.changes snapshots) p =
      (snapshots.find? (r.touches p)).bind fun snapshot => firstBefore (r.changes [snapshot]) p := by
  induction snapshots with
  | nil => rfl
  | cons snapshot snapshots ih =>
      rw [show snapshot :: snapshots = [snapshot] ++ snapshots from rfl, changes_append,
        firstBefore_append, List.singleton_append, List.find?_cons]
      cases htouch : r.touches p snapshot with
      | true =>
          obtain ⟨a, -, ha, -⟩ := firstBefore_of_touches htouch
          simp [ha]
      | false => simp [(before_of_not_touches htouch).1, ih]

theorem lastBefore_reverse (snapshots : List Snapshot) (p : AbsPath) :
    lastBefore (r.changes snapshots.reverse) p =
      (snapshots.find? (r.touches p)).bind fun snapshot => lastBefore (r.changes [snapshot]) p := by
  induction snapshots with
  | nil => rfl
  | cons snapshot snapshots ih =>
      rw [List.reverse_cons, changes_append, lastBefore_append, List.find?_cons]
      cases htouch : r.touches p snapshot with
      | true =>
          obtain ⟨-, b, -, hb⟩ := firstBefore_of_touches htouch
          simp [hb]
      | false => simp [(before_of_not_touches htouch).2, ih]

/-! ## Rewinding a true log -/

variable {fs : FileSystem} {events : List SessionEvent} (paths : Set AbsPath)

theorem allSnapshots_append (es ds : List SessionEvent) :
    allSnapshots (es ++ ds) = allSnapshots es ++ allSnapshots ds := List.filterMap_append

theorem TrueLog.split (h : r.TrueLog fs events) (n : Nat) :
    r.TrueLog (r.filesAfter fs (events.take n)) (events.drop n) ∧
      r.filesAfter (r.filesAfter fs (events.take n)) (events.drop n) = r.filesAfter fs events := by
  have hsplit : allSnapshots events =
      allSnapshots (events.take n) ++ allSnapshots (events.drop n) := by
    rw [← allSnapshots_append, List.take_append_drop]
  have hrecorded := h.recorded
  rw [hsplit, changes_append, recorded_append] at hrecorded
  refine ⟨⟨fun file hfile => h.action file ?_, hrecorded.2⟩, ?_⟩
  · rw [hsplit, filesOf, List.flatMap_append]
    exact List.mem_append_right _ hfile
  · simp only [filesAfter, hsplit, changes_append, List.foldl_append]

/-- What was there before the log is what its first entries found. -/
theorem TrueLog.start_apply (h : r.TrueLog fs events) (p : AbsPath) :
    fs p = (firstBefore (r.changes (allSnapshots events)) p).getD (r.filesAfter fs events p) :=
  h.recorded.start_apply p

theorem sameFiles_revert (h : r.TrueLog fs events) {undone : List Snapshot}
    (ha : ∀ file ∈ filesOf undone, TrueAction file) :
    SameFiles paths (r.revertSnapshots undone (r.filesAfter fs events)).fs fs ↔
      r.LastIsFirst paths undone (allSnapshots events) (r.filesAfter fs events) := by
  refine forall₂_congr fun p _ => ?_
  rw [revertSnapshots_fs ha, ← h.start_apply]

/-- Newest snapshot first, the order inside the first snapshot is what matters. -/
theorem lastIsFirst_reverse (snapshots : List Snapshot) (current : FileSystem) :
    r.LastIsFirst paths snapshots.reverse snapshots current ↔ r.LevelFirst paths snapshots current := by
  refine forall₂_congr fun p _ => ?_
  rw [lastBefore_reverse, firstBefore_changes]
  cases hfind : snapshots.find? (r.touches p) with
  | none => simp
  | some snapshot =>
      obtain ⟨a, b, ha, hb⟩ := firstBefore_of_touches (List.find?_some hfind)
      simp only [Option.bind_some, ha, hb, Option.getD_some, Option.some.injEq, forall_eq']
      cases escapes r.root p <;> simp [eq_comm]

end Rewinder

/-! ## Which snapshots are reverted -/

theorem snapshotsToCheckpoint_sublist (checkpointIndex : Int) (events : List SessionEvent) :
    (snapshotsToCheckpoint checkpointIndex events).Sublist (allSnapshots events) := by
  induction events with
  | nil => exact List.Sublist.refl _
  | cons e events ih =>
      cases e with
      | checkpoint promptIndex preview => exact List.nil_sublist _
      | fileSnapshot promptIndex files =>
          simp only [snapshotsToCheckpoint, allSnapshots]
          split
          · exact ih.cons_cons _
          · exact ih.cons _
      | _ => exact ih

theorem snapshotsAfter_true (targetIndex : Int) (events : List SessionEvent) :
    snapshotsAfter targetIndex true events = allSnapshots events := by
  induction events with
  | nil => rfl
  | cons e events ih => cases e <;> simp [snapshotsAfter, allSnapshots, ih]

theorem snapshotsAfter_of_findIdx {targetIndex : Int} {events : List SessionEvent} {i : Nat}
    (h : events.findIdx? (isCheckpoint targetIndex) = some i) :
    snapshotsAfter targetIndex false events = allSnapshots (events.drop (i + 1)) := by
  induction events generalizing i with
  | nil => cases h
  | cons e events ih =>
      have hskip : isCheckpoint targetIndex e = false → ∃ j, i = j + 1 ∧
          events.findIdx? (isCheckpoint targetIndex) = some j := by
        intro hno
        rw [List.findIdx?_cons, hno] at h
        simp only [Bool.false_eq_true, ↓reduceIte, Option.map_eq_some_iff] at h
        obtain ⟨j, hj, hij⟩ := h
        exact ⟨j, hij.symm, hj⟩
      cases e with
      | checkpoint promptIndex preview =>
          by_cases htarget : promptIndex = targetIndex
          · have hfirst : i = 0 := by simpa [List.findIdx?_cons, isCheckpoint, htarget, eq_comm] using h
            simp only [hfirst, snapshotsAfter, htarget, decide_true, Bool.or_true, List.drop_succ_cons,
              List.drop_zero]
            exact snapshotsAfter_true targetIndex events
          · obtain ⟨j, rfl, hj⟩ := hskip (by simp [isCheckpoint, htarget])
            simpa [snapshotsAfter, htarget] using ih hj
      | _ =>
          obtain ⟨j, rfl, hj⟩ := hskip rfl
          simpa [snapshotsAfter] using ih hj

theorem checkpointIndices_of_findIdx {targetIndex : Int} {events : List SessionEvent} {i : Nat}
    (h : events.findIdx? (isCheckpoint targetIndex) = some i) :
    (checkpointIndices events).isEmpty = false := by
  have hsome : (events.findIdx? (isCheckpoint targetIndex)).isSome = true := by rw [h]; rfl
  rw [List.findIdx?_isSome, List.any_eq_true] at hsome
  obtain ⟨e, he, hcheck⟩ := hsome
  cases e with
  | checkpoint promptIndex preview =>
      rw [List.isEmpty_eq_false_iff_exists_mem]
      exact ⟨promptIndex, List.mem_filterMap.mpr ⟨_, he, rfl⟩⟩
  | _ => cases hcheck

end WrongStack.Session
