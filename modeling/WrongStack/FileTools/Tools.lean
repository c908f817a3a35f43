import WrongStack.Session.Rewinder
import WrongStack.Utils.NewlineStyle

/-!
# The tools that change files

`write`, `edit`, `replace` and `patch` (`tools/src/*.ts`) on text files, and what the session's writer keeps of
their changes until the next checkpoint (`recordFileChange` and `writeCheckpoint` of
`core/src/storage/file-session-writer.ts`). A compiled pattern is the function that finds its matches, the paths
that a glob expands to are given, and so is what GNU patch makes of the files.
-/

namespace WrongStack.FileTools

open Lib Utils Session

structure Context where
  /-- `ctx.workingDir ?? ctx.cwd` -/
  workingDir : AbsPath
  projectRoot : AbsPath
  wstackGlobalRoot : AbsPath
  allowOutsideProjectRoot : Bool := false
  normal : Path.Normal workingDir

/-- Why a tool throws. -/
inductive ToolError
  | emptyPath
  | outsideProjectRoot
  | emptyOldString
  | doesNotExist
  | modifiedExternally
  | noMatch
  | ambiguous
  | emptyPattern
  | emptyFiles
  | badPattern
  | badGlob
  deriving DecidableEq

/-- The files, the log of the session and the changes that are not in it yet. -/
structure Workspace where
  fs : FileSystem
  events : List SessionEvent := []
  pendingFileSnapshots : List FileSnapshot := []

structure WriteInput where
  path : JsString
  content : JsString

structure EditInput where
  path : JsString
  oldString : JsString
  newString : JsString
  replaceAll : Bool := false
  /-- By the times of modification the file has changed since it was read. -/
  modifiedExternally : Bool := false

structure ReplaceInput where
  /-- `pattern`, and its matches if it compiles. -/
  pattern : JsString
  compiled : Option (JsString → List Match)
  replacement : JsString
  files : JsString
  /-- What `files` expands to if it is a glob. -/
  globbed : List AbsPath := []
  replaceAll : Bool := true
  dryRun : Bool := true

/-- What GNU patch has made of each file that it has changed. -/
structure PatchOutput where
  changed : List (AbsPath × Option JsString)
  dryRun : Bool := false

namespace Context

variable (c : Context)

/-- `ensureInsideRoot` of `resolvePath` -/
def safeResolve (input : JsString) : Option AbsPath :=
  let target := Path.resolve c.workingDir input
  if c.allowOutsideProjectRoot || [c.projectRoot, c.wstackGlobalRoot].any fun root => !escapes root target then
    some target
  else none

end Context

/-- The text that an edit writes, or none if there is nothing to do. -/
def edited (input : EditInput) (original : JsString) : Except ToolError (Option JsString) :=
  let fileLf := normalizeToLf original
  let oldLf := normalizeToLf input.oldString
  let newLf := normalizeToLf input.newString
  if oldLf = newLf then .ok none
  else
    let count := occurrences oldLf fileLf
    if count = 0 then .error .noMatch
    else if 1 < count && !input.replaceAll then .error .ambiguous
    else
      let newFileLf := if input.replaceAll then replaceEvery oldLf newLf 0 fileLf else replaceFirst oldLf newLf [] fileLf
      .ok (some (toStyle newFileLf (detectNewlineStyle original)))

/-- `replacements` of the output of an edit. -/
def EditInput.replacements (input : EditInput) (original : JsString) : Nat :=
  if normalizeToLf input.oldString = normalizeToLf input.newString then 0
  else if input.replaceAll then occurrences (normalizeToLf input.oldString) (normalizeToLf original)
  else 1

namespace Workspace

variable (c : Context) (w : Workspace)

def atomicWrite (absPath : AbsPath) (content : JsString) : Workspace :=
  { w with fs := Function.update w.fs absPath (some content) }

def recordFileChange (file : FileSnapshot) : Workspace :=
  { w with pendingFileSnapshots := w.pendingFileSnapshots ++ [file] }

/-! ## write -/

def write (input : WriteInput) : Except ToolError Workspace :=
  if input.path.isEmpty then .error .emptyPath
  else match c.safeResolve input.path with
    | none => .error .outsideProjectRoot
    | some absPath =>
        let existed := (w.fs absPath).isSome
        .ok ((w.atomicWrite absPath input.content).recordFileChange
          { path := Path.text absPath
            action := if existed then .modified else .created
            before := w.fs absPath
            after := some input.content })

/-! ## edit -/

/-- The file that an edit finds, and its text. -/
def editTarget (input : EditInput) : Except ToolError (AbsPath × JsString) :=
  if input.path.isEmpty then .error .emptyPath
  else if input.oldString.isEmpty then .error .emptyOldString
  else match c.safeResolve input.path with
    | none => .error .outsideProjectRoot
    | some absPath =>
        match w.fs absPath with
        | none => .error .doesNotExist
        | some original => if input.modifiedExternally then .error .modifiedExternally else .ok (absPath, original)

def edit (input : EditInput) : Except ToolError Workspace := do
  let (absPath, original) ← w.editTarget c input
  match ← edited input original with
  | none => return w
  | some newFile =>
      return (w.atomicWrite absPath newFile).recordFileChange
        { path := Path.text absPath, action := .modified, before := some original, after := some newFile }

/-! ## replace -/

/-- The loop of `replace`. -/
def replaceIn (input : ReplaceInput) (find : JsString → List Match) (absPath : AbsPath) : Workspace :=
  match w.fs absPath with
  | none => w
  | some content =>
      if escapes c.projectRoot absPath || isBinary 8192 content then w
      else
        let contentLf := normalizeToLf content
        let allMatches := find contentLf
        let ms := if input.replaceAll then allMatches else allMatches.take 1
        if allMatches.isEmpty || input.dryRun then w
        else w.atomicWrite absPath (toStyle (splice ms input.replacement contentLf) (detectNewlineStyle content))

def resolveFiles (input : ReplaceInput) : Except ToolError (List AbsPath) :=
  let normalized := input.files.trim
  if (js "*").isPrefixOf normalized || 0 < occurrences (js "**") normalized then .ok input.globbed
  else do
    let parts := ((JsString.splitOn (unit ',') normalized).map JsString.trim).filter fun s => !s.isEmpty
    let resolved ← parts.mapM fun p => (c.safeResolve p).elim (.error ToolError.outsideProjectRoot) .ok
    return resolved.filter fun absPath => (w.fs absPath).isSome

def replace (input : ReplaceInput) : Except ToolError Workspace :=
  if input.pattern.isEmpty then .error .emptyPattern
  else if input.files.isEmpty then .error .emptyFiles
  else match input.compiled with
    | none => .error .badPattern
    | some find => do
        let fileList ← w.resolveFiles c input
        return fileList.foldl (fun w absPath => w.replaceIn c input find absPath) w

/-! ## patch -/

/-- A run of GNU patch that succeeds. -/
def patch (output : PatchOutput) : Workspace :=
  if output.dryRun then w
  else { w with fs := output.changed.foldl (fun fs change => Function.update fs change.1 change.2) w.fs }

/-! ## Checkpoints -/

def writeCheckpoint (promptIndex : Int) (promptPreview : JsString) : Workspace :=
  let snapshot := if w.pendingFileSnapshots.isEmpty then []
    else [SessionEvent.fileSnapshot promptIndex w.pendingFileSnapshots]
  { w with
    events := w.events ++ snapshot ++ [.checkpoint promptIndex promptPreview]
    pendingFileSnapshots := [] }

end Workspace

/-! ## Runs -/

inductive Op
  | write (input : WriteInput)
  | edit (input : EditInput)
  | replace (input : ReplaceInput)
  | patch (output : PatchOutput)
  | checkpoint (promptIndex : Int) (promptPreview : JsString)

/-- A tool that throws leaves everything as it was. -/
def Workspace.step (c : Context) (w : Workspace) : Op → Workspace
  | .write input => (w.write c input).toOption.getD w
  | .edit input => (w.edit c input).toOption.getD w
  | .replace input => (w.replace c input).toOption.getD w
  | .patch output => w.patch output
  | .checkpoint promptIndex promptPreview => w.writeCheckpoint promptIndex promptPreview

end WrongStack.FileTools
