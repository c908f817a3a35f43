import WrongStack.FileTools.Theorems

/-!
# The files that `replace` works on

`resolveFiles`, `globFiles`, `spawnRgFind` and `globNative` of `tools/src/replace.ts`, and the checks of its loop on
the paths they give. The loop's work on one file is `replaceIn`. A run of `rg --files --glob` lists the regular
files under its base that are not ignored and whose relative path matches.
-/

namespace WrongStack.FileTools

open Lib Utils Session

inductive FileKind
  | file | directory | symbolicLink | other
  deriving DecidableEq

/-- A name that a directory can have. -/
abbrev FileName := { name : JsString // Path.Normal [name] }

/-- The entries of a directory. One that cannot be read has none. -/
inductive Entries
  | nil
  | file (name : FileName) (rest : Entries)
  | directory (name : FileName) (children rest : Entries)
  | symbolicLink (name : FileName) (rest : Entries)
  | other (name : FileName) (rest : Entries)

/-- What the operating system says of paths as they are written, and the tree below `ctx.cwd`. -/
structure Disk where
  lstat : JsString → Option FileKind
  realpath : JsString → Option AbsPath
  cwd : AbsPath
  normal : Path.Normal cwd
  tree : Entries

/-- The program `rg`. -/
structure Rg where
  /-- It is installed and does not fail. -/
  answers : Bool
  ignored : List JsString → Bool
  /-- The glob matches the path relative to the base. -/
  globMatches : JsString → List JsString → Bool

structure GlobbedInput extends ReplaceInput where
  glob : Option JsString := none

structure ReplaceResult where
  path : JsString
  realPath : AbsPath
  replacements : Nat

/-! ## Walking the tree -/

def DEFAULT_IGNORE : List JsString :=
  [js "node_modules", js ".git", js "dist", js "build", js ".next", js "coverage"]

/-- The regular files, each by the names that lead to it. -/
def Entries.files : Entries → List (List JsString)
  | .nil => []
  | .file name rest => [name.1] :: rest.files
  | .directory name children rest => children.files.map (name.1 :: ·) ++ rest.files
  | .symbolicLink _ rest => rest.files
  | .other _ rest => rest.files

/-- `walk` of `globNative`; `test` gets the name and the full path. -/
def Entries.walk (test : JsString → JsString → Bool) (dir : AbsPath) : Entries → List JsString
  | .nil => []
  | .file name rest =>
      let full := Path.text (dir ++ [name.1])
      (if DEFAULT_IGNORE.contains name.1 then [] else if test name.1 full then [full] else []) ++ rest.walk test dir
  | .directory name children rest =>
      (if DEFAULT_IGNORE.contains name.1 then [] else children.walk test (dir ++ [name.1])) ++ rest.walk test dir
  | .symbolicLink _ rest => rest.walk test dir
  | .other _ rest => rest.walk test dir

namespace Disk

variable (disk : Disk)

def globNative (pattern : JsString) (extraGlob : Option Regex) : Except ToolError (List JsString) :=
  match compileGlob pattern with
  | none => .error .badGlob
  | some globRe =>
      .ok (disk.tree.walk (fun name full =>
        (globRe.test name || globRe.test full) && extraGlob.all fun re => re.test name || re.test full) disk.cwd)

/-- The text that `rg` prints. -/
def rgOutput (rg : Rg) (pattern : JsString) : JsString :=
  (disk.tree.files.filter fun r => !rg.ignored r && rg.globMatches pattern r).flatMap fun r =>
    Path.text (disk.cwd ++ r) ++ [unit '\n']

def spawnRgFind (rg : Rg) (pattern : JsString) : List JsString :=
  (JsString.splitOn (unit '\n') (disk.rgOutput rg pattern)).filter fun s => !s.isEmpty

def globFiles (rg : Rg) (pattern : JsString) (extraGlob : Option Regex) : Except ToolError (List JsString) :=
  if rg.answers then .ok (disk.spawnRgFind rg pattern) else disk.globNative pattern extraGlob

/-- The regular file that a path names, unless it is a symbolic link. -/
def regularFile (absPath : JsString) : Option AbsPath :=
  if disk.lstat absPath = some .file then disk.realpath absPath else none

def realRoot (c : Context) : AbsPath := (disk.realpath (Path.text c.projectRoot)).getD c.projectRoot

end Disk

def isGlobArgument (normalized : JsString) : Bool :=
  (js "**/").isPrefixOf normalized || (js "*").isPrefixOf normalized || 0 < occurrences (js "**") normalized

def fileParts (normalized : JsString) : List JsString :=
  ((JsString.splitOn (unit ',') normalized).map JsString.trim).filter fun s => !s.isEmpty

/-- `glob`, compiled if it is given. -/
def globFilter (glob : Option JsString) : Except ToolError (Option Regex) :=
  match glob.filter fun g => !g.isEmpty with
  | none => .ok none
  | some g => (compileGlob g).elim (.error .badGlob) fun re => .ok (some re)

/-- The matches that are replaced in a text. -/
def matchesOf (input : ReplaceInput) (find : JsString → List Match) (realRoot realPath : AbsPath)
    (content : JsString) : List Match :=
  if escapes realRoot realPath || isBinary 8192 content then []
  else
    let allMatches := find (normalizeToLf content)
    if input.replaceAll then allMatches else allMatches.take 1

/-! ## The tool -/

namespace Workspace

variable (c : Context) (disk : Disk) (rg : Rg) (w : Workspace)

def selectFiles (filesInput : JsString) (extraGlob : Option Regex) : Except ToolError (List JsString) :=
  let normalized := filesInput.trim
  if isGlobArgument normalized then disk.globFiles rg normalized extraGlob
  else do
    let resolved ← (fileParts normalized).mapM fun p =>
      (c.safeResolve p).elim (.error ToolError.outsideProjectRoot) .ok
    return (resolved.map Path.text).filter fun absPath =>
      (disk.realpath absPath).any fun realPath => (w.fs realPath).isSome

/-- One turn of the loop, on the files and `results`. -/
def replaceAt (input : ReplaceInput) (find : JsString → List Match) (s : Workspace × List ReplaceResult)
    (absPath : JsString) : Workspace × List ReplaceResult :=
  match disk.regularFile absPath with
  | none => s
  | some realPath =>
      let ms := ((s.1.fs realPath).map (matchesOf input find (disk.realRoot c) realPath)).getD []
      if ms.isEmpty then s
      else
        (s.1.replaceIn { c with projectRoot := disk.realRoot c } input find realPath,
          s.2 ++ [{ path := absPath, realPath, replacements := ms.length }])

/-- `execute`: the files it leaves, and its `results`. -/
def executeReplace (input : GlobbedInput) : Except ToolError (Workspace × List ReplaceResult) :=
  if input.pattern.isEmpty then .error .emptyPattern
  else if input.files.isEmpty then .error .emptyFiles
  else match input.compiled with
    | none => .error .badPattern
    | some find => do
        let globRe ← globFilter input.glob
        let fileList ← w.selectFiles c disk rg input.files globRe
        return fileList.foldl (replaceAt c disk input.toReplaceInput find) (w, [])

end Workspace

end WrongStack.FileTools

/-!
# What `replace` selects

The walk finds the regular files outside the ignored directories that pass both globs. What `rg` lists, and what a
list names, is not held against the filter, and `rg` has its own rules of what to ignore and what matches.
-/

namespace WrongStack.FileTools

open Lib Utils Session

variable {c : Context} {disk : Disk} {rg : Rg} {w : Workspace} {input : GlobbedInput} {path : JsString}

/-- The name of the file that a path leads to. -/
def basename (path : JsString) : JsString := ((JsString.splitOn (unit '/') path).getLast?).getD []

/-- The lines of a text that are not empty. -/
def lines (text : JsString) : List JsString := (JsString.splitOn (unit '\n') text).filter fun s => !s.isEmpty

/-- The file is one that `files` asks for. -/
def MatchesFiles (c : Context) (disk : Disk) (rg : Rg) (filesInput path : JsString) : Prop :=
  if isGlobArgument filesInput.trim then
    ∃ r ∈ disk.tree.files, path = Path.text (disk.cwd ++ r) ∧
      (rg.globMatches filesInput.trim r ∨ matchGlob filesInput.trim (basename path) ∨
        matchGlob filesInput.trim path)
  else ∃ p ∈ fileParts filesInput.trim, (c.safeResolve p).map Path.text = some path

/-- The file passes the filter, if there is one. -/
def PassesGlob (glob : Option JsString) (path : JsString) : Prop :=
  ∀ g, glob = some g → g ≠ [] → matchGlob g (basename path) ∨ matchGlob g path

/-- The file is among those that the call works on if `rg` answers as given. -/
def Selects (c : Context) (disk : Disk) (rg : Rg) (w : Workspace) (input : GlobbedInput) (answers : Bool)
    (path : JsString) : Prop :=
  ∃ globRe fileList, globFilter input.glob = .ok globRe ∧
    w.selectFiles c disk { rg with answers } input.files globRe = .ok fileList ∧ path ∈ fileList

/-- A call touches only what its filters select. -/
structure FiltersHold (c : Context) (disk : Disk) (rg : Rg) (w : Workspace) (input : GlobbedInput) : Prop where
  reported : ∀ w' results, w.executeReplace c disk rg input = .ok (w', results) →
    ∀ result ∈ results, MatchesFiles c disk rg input.files result.path ∧ PassesGlob input.glob result.path
  rewritten : ∀ w' results, w.executeReplace c disk rg input = .ok (w', results) →
    ∀ p, w'.fs p ≠ w.fs p → ∃ path, disk.regularFile path = some p ∧
      MatchesFiles c disk rg input.files path ∧ PassesGlob input.glob path
  same : isGlobArgument input.files.trim = true → ∀ path,
    Selects c disk rg w input true path ↔ Selects c disk rg w input false path

/-! ## The tree -/

theorem Entries.normal_files (d : Entries) : ∀ r ∈ d.files, Path.Normal r := by
  induction d with
  | nil => simp [Entries.files]
  | file name rest ih =>
      intro r hr
      rcases List.mem_cons.mp hr with rfl | hr
      · exact name.2
      · exact ih r hr
  | directory name children rest ihc ih =>
      intro r hr
      rcases List.mem_append.mp hr with hr | hr
      · obtain ⟨r', hr', rfl⟩ := List.mem_map.mp hr
        intro s hs
        rcases List.mem_cons.mp hs with rfl | hs
        · exact name.2 _ (List.mem_singleton_self _)
        · exact ihc r' hr' s hs
      · exact ih r hr
  | symbolicLink name rest ih => exact ih
  | other name rest ih => exact ih

theorem basename_text {p : AbsPath} {name : JsString} (h : Path.Normal (p ++ [name])) :
    basename (Path.text (p ++ [name])) = name := by
  have hslash : js "/" = [unit '/'] := by decide
  have hsplit : JsString.splitOn (unit '/') (Path.text (p ++ [name])) = [] :: (p ++ [name]) := by
    rw [Path.text, hslash]
    refine (JsString.splitOn_append List.not_mem_nil).trans ?_
    rw [JsString.splitOn_join (by simp) fun s hs => (h s hs).2.2.2]
  rw [basename, hsplit, ← List.cons_append, List.getLast?_concat, Option.getD_some]

theorem Entries.nil_not_mem_files (d : Entries) : [] ∉ d.files := by
  induction d with
  | nil => simp [Entries.files]
  | file name rest ih => simpa [Entries.files] using ih
  | directory name children rest _ ih => simpa [Entries.files] using ih
  | symbolicLink name rest ih => exact ih
  | other name rest ih => exact ih

/-- The paths that the walk finds, by the files of the tree. -/
theorem Entries.mem_walk {test : JsString → JsString → Bool} {dir : AbsPath} {d : Entries} :
    path ∈ d.walk test dir ↔ ∃ parent name, parent ++ [name] ∈ d.files ∧
      (∀ s ∈ parent ++ [name], s ∉ DEFAULT_IGNORE) ∧ path = Path.text (dir ++ (parent ++ [name])) ∧
      test name path = true := by
  induction d generalizing dir with
  | nil => simp [Entries.walk, Entries.files]
  | file name rest ih =>
      rw [Entries.walk, List.mem_append, ih, Entries.files]
      constructor
      · rintro (h | ⟨parent, name', hr, h⟩)
        · split at h
          · cases h
          · rename_i hignore
            split at h
            · rename_i htest
              obtain rfl := List.mem_singleton.mp h
              refine ⟨[], name.1, List.mem_cons_self, fun s hs => ?_, rfl, htest⟩
              obtain rfl := List.mem_singleton.mp hs
              simpa using hignore
            · cases h
        · exact ⟨parent, name', List.mem_cons_of_mem _ hr, h⟩
      · rintro ⟨parent, name', hr, hignore, rfl, htest⟩
        rcases List.mem_cons.mp hr with heq | hr
        · obtain ⟨rfl, rfl⟩ : parent = [] ∧ name' = name.1 := by
            cases parent with
            | nil => simpa using heq
            | cons s parent => simp at heq
          left
          have hname := hignore name.1 (by simp)
          rw [if_neg (by simpa using hname)]
          simp only [List.nil_append] at htest
          simp [htest]
        · exact .inr ⟨parent, name', hr, hignore, rfl, htest⟩
  | directory name children rest ihc ih =>
      rw [Entries.walk, List.mem_append, ih, Entries.files]
      constructor
      · rintro (h | ⟨parent, name', hr, h⟩)
        · split at h
          · cases h
          · rename_i hname
            obtain ⟨parent, name', hr, hignore, hpath, htest⟩ := ihc.mp h
            refine ⟨name.1 :: parent, name', List.mem_append_left _ (List.mem_map_of_mem hr), fun s hs => ?_, ?_, htest⟩
            · rcases List.mem_cons.mp hs with rfl | hs
              · simpa using hname
              · exact hignore s hs
            · rw [hpath, List.append_assoc]
              rfl
        · exact ⟨parent, name', List.mem_append_right _ hr, h⟩
      · rintro ⟨parent, name', hr, hignore, hpath, htest⟩
        rcases List.mem_append.mp hr with hr | hr
        · obtain ⟨r, hr', heq⟩ := List.mem_map.mp hr
          cases parent with
          | nil =>
              -- no directory is a file without a name of its own
              simp only [List.nil_append, List.cons.injEq] at heq
              obtain ⟨-, rfl⟩ := heq
              exact absurd hr' (nil_not_mem_files children)
          | cons s parent =>
              obtain ⟨rfl, rfl⟩ := List.cons.inj heq
              left
              rw [if_neg (by simpa using hignore name.1 (by simp))]
              refine ihc.mpr ⟨parent, name', hr', fun s hs => hignore s (List.mem_cons_of_mem _ hs), ?_, htest⟩
              rw [hpath, List.append_assoc]
              rfl
        · exact .inr ⟨parent, name', hr, hignore, hpath, htest⟩
  | symbolicLink name rest ih => exact ih
  | other name rest ih => exact ih

theorem Disk.basename_file {parent : List JsString} {name : JsString} (h : parent ++ [name] ∈ disk.tree.files) :
    basename (Path.text (disk.cwd ++ (parent ++ [name]))) = name := by
  rw [← List.append_assoc]
  refine basename_text fun s hs => ?_
  rw [List.append_assoc] at hs
  rcases List.mem_append.mp hs with hs | hs
  · exact disk.normal s hs
  · exact disk.tree.normal_files _ h s hs

/-- The walk finds the file: no name that leads to it is ignored, and both globs match it by name or full path. -/
def Walked (disk : Disk) (pattern : JsString) (glob : Option JsString) (path : JsString) : Prop :=
  ∃ r ∈ disk.tree.files, path = Path.text (disk.cwd ++ r) ∧ (∀ s ∈ r, s ∉ DEFAULT_IGNORE) ∧
    (matchGlob pattern (basename path) ∨ matchGlob pattern path) ∧ PassesGlob glob path

/-- `rg` lists the file. -/
def Listed (disk : Disk) (rg : Rg) (pattern : JsString) (r : List JsString) : Prop :=
  r ∈ disk.tree.files ∧ rg.ignored r = false ∧ rg.globMatches pattern r = true

theorem passesGlob_iff {glob : Option JsString} {globRe : Option Regex} (h : globFilter glob = .ok globRe) :
    PassesGlob glob path ↔ (globRe.all fun re => re.test (basename path) || re.test path) = true := by
  rw [globFilter] at h
  cases glob with
  | none =>
      obtain rfl := Except.ok.inj h
      exact iff_of_true (fun g hg => absurd hg (by simp)) rfl
  | some g =>
      cases g with
      | nil =>
          obtain rfl := Except.ok.inj h
          exact iff_of_true (fun g hg hne => absurd (Option.some.inj hg).symm hne) rfl
      | cons ch rest =>
          simp only [Option.filter, List.isEmpty_cons, Bool.not_false, ↓reduceIte] at h
          cases hre : compileGlob (ch :: rest) with
          | none =>
              rw [hre] at h
              cases h
          | some re =>
              rw [hre] at h
              obtain rfl := Except.ok.inj h
              simp [PassesGlob, matchGlob, hre]

/-- A pattern that does not compile finds nothing. -/
theorem mem_globNative {pattern : JsString} {glob : Option JsString} {globRe : Option Regex}
    (h : globFilter glob = .ok globRe) :
    (∃ fileList, disk.globNative pattern globRe = .ok fileList ∧ path ∈ fileList) ↔ Walked disk pattern glob path := by
  unfold Disk.globNative Walked
  cases hre : compileGlob pattern with
  | none => simp [matchGlob, hre]
  | some re =>
      simp only [Except.ok.injEq, exists_eq_left', Entries.mem_walk, Bool.and_eq_true, Bool.or_eq_true]
      constructor
      · rintro ⟨parent, name, hr, hignore, rfl, htest, hglob⟩
        have hname := disk.basename_file hr
        refine ⟨_, hr, rfl, hignore, ?_, (passesGlob_iff h).mpr ?_⟩
        · rw [hname, matchGlob, matchGlob, hre]
          exact htest
        · rw [hname]
          exact hglob
      · rintro ⟨r, hr, rfl, hignore, htest, hglob⟩
        obtain ⟨parent, name, rfl⟩ : ∃ parent name, r = parent ++ [name] :=
          (List.eq_nil_or_concat' r).resolve_left fun hnil => disk.tree.nil_not_mem_files (hnil ▸ hr)
        have hname := disk.basename_file hr
        refine ⟨parent, name, hr, hignore, rfl, ?_, ?_⟩
        · rw [hname, matchGlob, matchGlob, hre] at htest
          exact htest
        · have hall := (passesGlob_iff h).mp hglob
          rw [hname] at hall
          exact hall

theorem lines_flatMap (f : List JsString → JsString) (rs : List (List JsString)) :
    lines (rs.flatMap fun r => f r ++ [unit '\n']) = rs.flatMap fun r => lines (f r) := by
  induction rs with
  | nil => rfl
  | cons r rs ih =>
      rw [List.flatMap_cons, List.flatMap_cons, ← ih, List.append_assoc, List.singleton_append, lines,
        JsString.splitOn_append_sep, List.filter_append]
      rfl

theorem mem_spawnRgFind {pattern : JsString} :
    path ∈ disk.spawnRgFind rg pattern ↔
      ∃ r, Listed disk rg pattern r ∧ path ∈ lines (Path.text (disk.cwd ++ r)) := by
  have hlines : disk.spawnRgFind rg pattern = lines (disk.rgOutput rg pattern) := rfl
  rw [hlines, Disk.rgOutput, lines_flatMap fun r => Path.text (disk.cwd ++ r)]
  simp [Listed, and_assoc]

/-! ## The loop -/

/-- What one turn writes over a text. -/
def rewriteText (input : ReplaceInput) (find : JsString → List Match) (realRoot realPath : AbsPath)
    (content : JsString) : JsString :=
  let ms := matchesOf input find realRoot realPath content
  if ms.isEmpty || input.dryRun then content
  else toStyle (splice ms input.replacement (normalizeToLf content)) (detectNewlineStyle content)

variable {find : JsString → List Match} {replaceInput : ReplaceInput}

theorem replaceIn_fs (p q : AbsPath) :
    (w.replaceIn c replaceInput find p).fs q =
      if q = p then (w.fs p).map (rewriteText replaceInput find c.projectRoot p) else w.fs q := by
  have hsame : w.fs q = if q = p then w.fs p else w.fs q := by
    split
    · rename_i heq
      rw [heq]
    · rfl
  rw [Workspace.replaceIn]
  cases hold : w.fs p with
  | none =>
      rw [hold] at hsame
      exact hsame
  | some content =>
      rw [hold] at hsame
      simp only [Option.map_some, rewriteText, matchesOf]
      cases hskip : escapes c.projectRoot p || isBinary 8192 content with
      | true => simpa using hsame
      | false =>
          cases hall : (find (normalizeToLf content)).isEmpty with
          | true =>
              have hnil := List.isEmpty_iff.mp hall
              simpa [hnil] using hsame
          | false =>
              have hfirst : ((find (normalizeToLf content)).take 1).isEmpty = false := by
                cases hms : find (normalizeToLf content) with
                | nil =>
                    rw [hms] at hall
                    cases hall
                | cons m ms => rfl
              cases hdry : replaceInput.dryRun with
              | true => simpa using hsame
              | false =>
                  by_cases heq : q = p <;> cases replaceInput.replaceAll <;>
                    simp [Workspace.atomicWrite, Function.update, heq, hall, hfirst]

theorem replaceAt_fs (results : List ReplaceResult) (q : JsString) (p : AbsPath) :
    (Workspace.replaceAt c disk replaceInput find (w, results) q).1.fs p =
      if disk.regularFile q = some p then
        (w.fs p).map (rewriteText replaceInput find (disk.realRoot c) p) else w.fs p := by
  rw [Workspace.replaceAt]
  cases hfile : disk.regularFile q with
  | none => rfl
  | some realPath =>
      simp only [Option.some.injEq]
      split
      · rename_i hms
        split
        · rename_i heq
          subst heq
          cases hold : w.fs realPath with
          | none => rfl
          | some content =>
              rw [hold] at hms
              simp only [Option.map_some, Option.getD_some] at hms
              simp [rewriteText, hms]
        · rfl
      · rw [replaceIn_fs]
        by_cases heq : p = realPath
        · simp [heq]
        · simp [heq, Ne.symm heq]

/-- How many of the paths lead to the file. -/
def Disk.turns (disk : Disk) (p : AbsPath) (paths : List JsString) : Nat :=
  paths.countP fun q => decide (disk.regularFile q = some p)

/-- The matches at the turn of a path, after the turns of those before it. -/
def dueMatches (c : Context) (disk : Disk) (w : Workspace) (input : ReplaceInput) (find : JsString → List Match)
    (before : List JsString) (path : JsString) : List Match :=
  match disk.regularFile path with
  | none => []
  | some p => ((w.fs p).map fun content =>
      matchesOf input find (disk.realRoot c) p
        ((rewriteText input find (disk.realRoot c) p)^[disk.turns p before] content)).getD []

theorem dueMatches_cons (results : List ReplaceResult) (q : JsString) (before : List JsString) :
    dueMatches c disk (Workspace.replaceAt c disk replaceInput find (w, results) q).1 replaceInput find before path =
      dueMatches c disk w replaceInput find (q :: before) path := by
  unfold dueMatches
  cases disk.regularFile path with
  | none => rfl
  | some p =>
      simp only [replaceAt_fs, Disk.turns, List.countP_cons, decide_eq_true_eq]
      split
      · cases w.fs p with
        | none => rfl
        | some content => simp only [Option.map_some, Option.getD_some, Function.iterate_succ_apply]
      · rfl

theorem replaceAt_results (results : List ReplaceResult) (q : JsString) :
    (∃ result ∈ (Workspace.replaceAt c disk replaceInput find (w, results) q).2, result.path = path) ↔
      (∃ result ∈ results, result.path = path) ∨
        q = path ∧ dueMatches c disk w replaceInput find [] path ≠ [] := by
  rw [Workspace.replaceAt]
  cases hfile : disk.regularFile q with
  | none =>
      refine ⟨.inl, fun h => h.resolve_right ?_⟩
      rintro ⟨rfl, hdue⟩
      simp [dueMatches, hfile] at hdue
  | some realPath =>
      have hdue : q = path → dueMatches c disk w replaceInput find [] path =
          ((w.fs realPath).map (matchesOf replaceInput find (disk.realRoot c) realPath)).getD [] := by
        rintro rfl
        simp [dueMatches, hfile, Disk.turns]
      simp only
      split
      · rename_i hms
        refine ⟨.inl, fun h => h.resolve_right fun ⟨heq, hne⟩ => ?_⟩
        rw [hdue heq] at hne
        exact hne (List.isEmpty_iff.mp hms)
      · rename_i hms
        constructor
        · rintro ⟨result, hresult, heq⟩
          rcases List.mem_append.mp hresult with hold | hnew
          · exact .inl ⟨result, hold, heq⟩
          · obtain rfl := List.mem_singleton.mp hnew
            refine .inr ⟨heq, fun hnil => hms ?_⟩
            rw [hdue heq] at hnil
            rw [hnil]
            rfl
        · rintro (⟨result, hresult, heq⟩ | ⟨heq, -⟩)
          · exact ⟨result, List.mem_append_left _ hresult, heq⟩
          · exact ⟨_, List.mem_append_right _ (List.mem_singleton_self _), heq⟩

/-- The paths in `results` are those that have matches at their turn. -/
theorem mem_loop_results (paths : List JsString) (w : Workspace) (results : List ReplaceResult)
    (path : JsString) :
    (∃ result ∈ (paths.foldl (Workspace.replaceAt c disk replaceInput find) (w, results)).2, result.path = path) ↔
      (∃ result ∈ results, result.path = path) ∨ ∃ before after, paths = before ++ path :: after ∧
        dueMatches c disk w replaceInput find before path ≠ [] := by
  induction paths generalizing w results with
  | nil => simp
  | cons q paths ih =>
      have hrest := ih (Workspace.replaceAt c disk replaceInput find (w, results) q).1
        (Workspace.replaceAt c disk replaceInput find (w, results) q).2
      refine hrest.trans ?_
      rw [replaceAt_results, or_assoc]
      refine or_congr_right ?_
      constructor
      · rintro (⟨rfl, hdue⟩ | ⟨before, after, rfl, hdue⟩)
        · exact ⟨[], paths, rfl, hdue⟩
        · rw [dueMatches_cons] at hdue
          exact ⟨q :: before, after, rfl, hdue⟩
      · rintro ⟨before, after, hpaths, hdue⟩
        cases before with
        | nil =>
            obtain ⟨rfl, rfl⟩ := List.cons.inj hpaths
            exact .inl ⟨rfl, hdue⟩
        | cons q' before =>
            obtain ⟨rfl, rfl⟩ := List.cons.inj hpaths
            refine .inr ⟨before, after, rfl, ?_⟩
            rwa [dueMatches_cons]

theorem replaceAt_changed (results : List ReplaceResult) {q : JsString} {p : AbsPath}
    (h : (Workspace.replaceAt c disk replaceInput find (w, results) q).1.fs p ≠ w.fs p) :
    disk.regularFile q = some p ∧ dueMatches c disk w replaceInput find [] q ≠ [] := by
  rw [replaceAt_fs] at h
  split at h
  · rename_i hfile
    refine ⟨hfile, fun hnil => h ?_⟩
    cases hold : w.fs p with
    | none => rfl
    | some content =>
        simp only [dueMatches, hfile, hold, Option.map_some, Option.getD_some, Disk.turns, List.countP_nil,
          Function.iterate_zero, id] at hnil
        simp [rewriteText, hnil]
  · exact absurd rfl h

/-- A file that the loop has changed is the file of a path in `results`. -/
theorem loop_changed (paths : List JsString) {p : AbsPath}
    (h : (paths.foldl (Workspace.replaceAt c disk replaceInput find) (w, [])).1.fs p ≠ w.fs p) :
    ∃ result ∈ (paths.foldl (Workspace.replaceAt c disk replaceInput find) (w, [])).2,
      disk.regularFile result.path = some p := by
  induction paths using List.reverseRecOn with
  | nil => exact absurd rfl h
  | append_singleton paths q ih =>
      rw [List.foldl_append, List.foldl_cons, List.foldl_nil] at h ⊢
      generalize paths.foldl (Workspace.replaceAt c disk replaceInput find) (w, []) = s at h ih ⊢
      obtain ⟨w', results'⟩ := s
      by_cases hold : w'.fs p = w.fs p
      · rw [← hold] at h
        obtain ⟨hfile, hdue⟩ := replaceAt_changed results' h
        obtain ⟨result, hresult, hpath⟩ := (replaceAt_results results' q).mpr (.inr ⟨rfl, hdue⟩)
        exact ⟨result, hresult, hpath ▸ hfile⟩
      · obtain ⟨result, hresult, hfile⟩ := ih hold
        obtain ⟨result', hresult', hpath⟩ := (replaceAt_results results' q).mpr (.inl ⟨result, hresult, rfl⟩)
        exact ⟨result', hresult', hpath ▸ hfile⟩

/-! ## The filters -/

/-- What the call has to get past before it looks for files. -/
structure Accepted (c : Context) (input : GlobbedInput) (find : JsString → List Match) : Prop where
  pattern : input.pattern ≠ []
  files : input.files ≠ []
  compiled : input.compiled = some find
  glob : ∃ globRe, globFilter input.glob = .ok globRe
  inside : isGlobArgument input.files.trim = false →
    ∀ p ∈ fileParts input.files.trim, (c.safeResolve p).isSome = true

/-- The paths that `rg` prints for a glob, and the files that a list names. -/
def askedPaths (c : Context) (disk : Disk) (rg : Rg) (w : Workspace) (filesInput : JsString) : List JsString :=
  if isGlobArgument filesInput.trim then
    (disk.tree.files.filter fun r => !rg.ignored r && rg.globMatches filesInput.trim r).flatMap fun r =>
      lines (Path.text (disk.cwd ++ r))
  else
    ((fileParts filesInput.trim).filterMap fun p => (c.safeResolve p).map Path.text).filter fun absPath =>
      (disk.realpath absPath).any fun realPath => (w.fs realPath).isSome

/-- The files that `rg` lists and that a list names pass the filter if they have matches, the paths that `rg` prints
are paths of files it has matched, and `rg` lists what the walk finds. -/
structure Selective (c : Context) (disk : Disk) (rg : Rg) (w : Workspace) (input : GlobbedInput) : Prop where
  passes : ∀ find, Accepted c input find → (isGlobArgument input.files.trim = true → rg.answers = true) →
    ∀ before path after, askedPaths c disk rg w input.files = before ++ path :: after →
      dueMatches c disk w input.toReplaceInput find before path ≠ [] → PassesGlob input.glob path
  whole : ∀ find, Accepted c input find → isGlobArgument input.files.trim = true → rg.answers = true →
    ∀ before path after, askedPaths c disk rg w input.files = before ++ path :: after →
      dueMatches c disk w input.toReplaceInput find before path ≠ [] → MatchesFiles c disk rg input.files path
  listed : isGlobArgument input.files.trim = true → (∃ globRe, globFilter input.glob = .ok globRe) →
    ∀ r, Listed disk rg input.files.trim r → ∀ path ∈ lines (Path.text (disk.cwd ++ r)),
      Walked disk input.files.trim input.glob path
  walked : isGlobArgument input.files.trim = true → (∃ globRe, globFilter input.glob = .ok globRe) →
    ∀ path, Walked disk input.files.trim input.glob path →
      ∃ r, Listed disk rg input.files.trim r ∧ path ∈ lines (Path.text (disk.cwd ++ r))

/-- A list of paths is rejected as a whole if one of them leads outside. -/
theorem mapM_safeResolve (parts : List JsString) :
    (parts.mapM fun p => (c.safeResolve p).elim (.error ToolError.outsideProjectRoot) Except.ok) =
      if ∀ p ∈ parts, (c.safeResolve p).isSome = true then .ok (parts.filterMap c.safeResolve)
      else .error ToolError.outsideProjectRoot := by
  induction parts with
  | nil => rfl
  | cons p parts ih =>
      rw [List.mapM_cons, ih]
      cases hp : c.safeResolve p with
      | none => simp [hp, bind, Except.bind]
      | some absPath =>
          by_cases hrest : ∀ q ∈ parts, (c.safeResolve q).isSome = true
          · rw [if_pos hrest, if_pos (List.forall_mem_cons.mpr ⟨by simp [hp], hrest⟩), List.filterMap_cons_some hp]
            rfl
          · rw [if_neg hrest, if_neg fun h => hrest (List.forall_mem_cons.mp h).2]
            rfl

theorem selectFiles_asked (h : isGlobArgument input.files.trim = true → rg.answers = true)
    (globRe : Option Regex) {fileList : List JsString} :
    w.selectFiles c disk rg input.files globRe = .ok fileList ↔
      (isGlobArgument input.files.trim = false →
        ∀ p ∈ fileParts input.files.trim, (c.safeResolve p).isSome = true) ∧
      askedPaths c disk rg w input.files = fileList := by
  unfold Workspace.selectFiles askedPaths
  cases hglob : isGlobArgument input.files.trim with
  | true =>
      simp only [hglob, ↓reduceIte, Disk.globFiles, h hglob, Bool.true_eq_false, false_implies, true_and,
        Except.ok.injEq]
      rw [← lines_flatMap fun r => Path.text (disk.cwd ++ r)]
      rfl
  | false =>
      simp only [hglob, Bool.false_eq_true, ↓reduceIte, forall_const, mapM_safeResolve]
      split
      · rename_i hinside
        simp only [bind, Except.bind, pure, Except.pure, Except.ok.injEq, List.map_filterMap]
        exact ⟨fun heq => ⟨hinside, heq⟩, fun heq => heq.2⟩
      · rename_i hinside
        exact iff_of_false (fun heq => by cases heq) fun heq => hinside heq.1

/-- A call that is accepted runs the loop on the files it has found. -/
theorem executeReplace_ok {out : Workspace × List ReplaceResult} :
    w.executeReplace c disk rg input = .ok out ↔
      ∃ find globRe fileList, input.pattern ≠ [] ∧ input.files ≠ [] ∧ input.compiled = some find ∧
        globFilter input.glob = .ok globRe ∧ w.selectFiles c disk rg input.files globRe = .ok fileList ∧
        fileList.foldl (Workspace.replaceAt c disk input.toReplaceInput find) (w, []) = out := by
  unfold Workspace.executeReplace
  cases hpattern : input.pattern with
  | nil => simp
  | cons ch pattern =>
      cases hfiles : input.files with
      | nil => simp
      | cons ch' files =>
          cases hcompiled : input.compiled with
          | none => simp
          | some find =>
              cases hglob : globFilter input.glob with
              | error e => simp [bind, Except.bind]
              | ok globRe =>
                  cases hselect : w.selectFiles c disk rg (ch' :: files) globRe with
                  | error e => simp [bind, Except.bind, hselect]
                  | ok fileList => simp [bind, Except.bind, pure, Except.pure, hselect]

theorem selects_true_iff (h : isGlobArgument input.files.trim = true) :
    Selects c disk rg w input true path ↔ (∃ globRe, globFilter input.glob = .ok globRe) ∧
      ∃ r, Listed disk rg input.files.trim r ∧ path ∈ lines (Path.text (disk.cwd ++ r)) := by
  have hlist : path ∈ disk.spawnRgFind { rg with answers := true } input.files.trim ↔
      ∃ r, Listed disk rg input.files.trim r ∧ path ∈ lines (Path.text (disk.cwd ++ r)) := mem_spawnRgFind
  rw [← hlist]
  unfold Selects Workspace.selectFiles
  simp [h, Disk.globFiles]

theorem selects_false_iff (h : isGlobArgument input.files.trim = true) :
    Selects c disk rg w input false path ↔ (∃ globRe, globFilter input.glob = .ok globRe) ∧
      Walked disk input.files.trim input.glob path := by
  unfold Selects Workspace.selectFiles
  simp only [h, ↓reduceIte, Disk.globFiles, Bool.false_eq_true]
  constructor
  · rintro ⟨globRe, fileList, hglob, hlist, hmem⟩
    exact ⟨⟨globRe, hglob⟩, (mem_globNative hglob).mp ⟨fileList, hlist, hmem⟩⟩
  · rintro ⟨⟨globRe, hglob⟩, hwalked⟩
    obtain ⟨fileList, hlist, hmem⟩ := (mem_globNative hglob).mpr hwalked
    exact ⟨globRe, fileList, hglob, hlist, hmem⟩

theorem Walked.passesGlob (h : Walked disk input.files.trim input.glob path) : PassesGlob input.glob path := by
  obtain ⟨r, -, -, -, -, hpasses⟩ := h
  exact hpasses

theorem Walked.matchesFiles (h : Walked disk input.files.trim input.glob path)
    (hglob : isGlobArgument input.files.trim = true) : MatchesFiles c disk rg input.files path := by
  obtain ⟨r, hr, hpath, -, hmatches, -⟩ := h
  rw [MatchesFiles, if_pos hglob]
  exact ⟨r, hr, hpath, .inr hmatches⟩

theorem matchesFiles_asked (hglob : isGlobArgument input.files.trim = false)
    (h : path ∈ askedPaths c disk rg w input.files) : MatchesFiles c disk rg input.files path := by
  simp only [askedPaths, hglob, Bool.false_eq_true, ↓reduceIte, List.mem_filter, List.mem_filterMap] at h
  rw [MatchesFiles, if_neg (by simp [hglob])]
  exact h.1

theorem reported_iff {P : JsString → Prop} (hwalk : ∀ path, isGlobArgument input.files.trim = true →
      Walked disk input.files.trim input.glob path → P path) :
    (∀ w' results, w.executeReplace c disk rg input = .ok (w', results) → ∀ result ∈ results, P result.path) ↔
      ∀ find, Accepted c input find → (isGlobArgument input.files.trim = true → rg.answers = true) →
        ∀ before path after, askedPaths c disk rg w input.files = before ++ path :: after →
          dueMatches c disk w input.toReplaceInput find before path ≠ [] → P path := by
  constructor
  · intro h find hacc hrg before path after hpaths hdue
    obtain ⟨globRe, hglob⟩ := hacc.glob
    obtain ⟨result, hresult, rfl⟩ :=
      (mem_loop_results _ w [] path).mpr (.inr ⟨before, after, hpaths, hdue⟩)
    exact h _ _ (executeReplace_ok.mpr ⟨find, globRe, _, hacc.pattern, hacc.files, hacc.compiled, hglob,
      (selectFiles_asked hrg globRe).mpr ⟨hacc.inside, rfl⟩, rfl⟩) result hresult
  · intro h w' results hrun result hresult
    obtain ⟨find, globRe, fileList, hpattern, hfiles, hcompiled, hglob, hselect, hloop⟩ := executeReplace_ok.mp hrun
    have hin : result ∈ (fileList.foldl
        (Workspace.replaceAt c disk input.toReplaceInput find) (w, [])).2 := by
      rw [hloop]
      exact hresult
    obtain ⟨before, after, hpaths, hdue⟩ :=
      ((mem_loop_results fileList w [] result.path).mp ⟨result, hin, rfl⟩).resolve_left (by simp)
    by_cases hrg : isGlobArgument input.files.trim = true → rg.answers = true
    · obtain ⟨hinside, rfl⟩ := (selectFiles_asked hrg globRe).mp hselect
      exact h find ⟨hpattern, hfiles, hcompiled, ⟨globRe, hglob⟩, hinside⟩ hrg before _ after hpaths hdue
    · obtain ⟨hisGlob, hanswers⟩ := Classical.not_imp.mp hrg
      have hselects : Selects c disk rg w input false result.path := by
        refine ⟨globRe, fileList, hglob, ?_, ?_⟩
        · have hsame : ({ rg with answers := false } : Rg) = rg := by
            cases rg
            simpa using hanswers
          rw [hsame]
          exact hselect
        · rw [hpaths]
          exact List.mem_append_right _ List.mem_cons_self
      exact hwalk _ hisGlob ((selects_false_iff hisGlob).mp hselects).2

/-- The filters hold exactly when `rg` and a list select no more, and `rg` no less, than the filters ask for. -/
theorem filters_iff : FiltersHold c disk rg w input ↔ Selective c disk rg w input := by
  constructor
  · intro h
    refine ⟨?_, ?_, ?_, ?_⟩
    · exact (reported_iff fun path hglob hwalked => hwalked.passesGlob).mp
        fun w' results hrun result hresult => (h.reported w' results hrun result hresult).2
    · intro find hacc hglob hanswers
      exact (reported_iff fun path hglob hwalked => hwalked.matchesFiles hglob).mp
        (fun w' results hrun result hresult => (h.reported w' results hrun result hresult).1) find hacc
        fun _ => hanswers
    · intro hglob hcompiles r hr path hpath
      have hselects : Selects c disk rg w input true path := (selects_true_iff hglob).mpr ⟨hcompiles, r, hr, hpath⟩
      exact ((selects_false_iff hglob).mp ((h.same hglob path).mp hselects)).2
    · intro hglob hcompiles path hwalked
      have hselects : Selects c disk rg w input false path := (selects_false_iff hglob).mpr ⟨hcompiles, hwalked⟩
      exact ((selects_true_iff hglob).mp ((h.same hglob path).mpr hselects)).2
  · intro h
    have hreported : ∀ w' results, w.executeReplace c disk rg input = .ok (w', results) →
        ∀ result ∈ results, MatchesFiles c disk rg input.files result.path ∧ PassesGlob input.glob result.path := by
      refine (reported_iff (P := fun path => MatchesFiles c disk rg input.files path ∧ PassesGlob input.glob path)
        fun path hglob hwalked => ⟨hwalked.matchesFiles hglob, hwalked.passesGlob⟩).mpr ?_
      intro find hacc hrg before path after hpaths hdue
      refine ⟨?_, h.passes find hacc hrg before path after hpaths hdue⟩
      cases hglob : isGlobArgument input.files.trim with
      | true => exact h.whole find hacc hglob (hrg hglob) before path after hpaths hdue
      | false =>
          refine matchesFiles_asked (w := w) hglob ?_
          rw [hpaths]
          exact List.mem_append_right _ List.mem_cons_self
    refine ⟨hreported, ?_, ?_⟩
    · intro w' results hrun p hp
      obtain ⟨find, globRe, fileList, -, -, -, -, -, hloop⟩ := executeReplace_ok.mp hrun
      obtain ⟨result, hresult, hfile⟩ : ∃ result ∈ results, disk.regularFile result.path = some p := by
        have hfinal : (fileList.foldl (Workspace.replaceAt c disk input.toReplaceInput find) (w, [])).1.fs p ≠ w.fs p := by
          rw [hloop]
          exact hp
        have hchanged := loop_changed fileList hfinal
        rw [hloop] at hchanged
        exact hchanged
      exact ⟨result.path, hfile, hreported w' results hrun result hresult⟩
    · intro hglob path
      rw [selects_true_iff hglob, selects_false_iff hglob]
      refine and_congr_right fun hcompiles => ⟨?_, h.walked hglob hcompiles path⟩
      rintro ⟨r, hr, hpath⟩
      exact h.listed hglob hcompiles r hr path hpath

/-! ## A filter that is dropped -/

def nameA : FileName where
  val := js "a"
  property := by
    intro s hs
    obtain rfl := List.mem_singleton.mp hs
    decide

/-- The directory of `oneFile`. -/
def projectDisk : Disk where
  lstat path := if path = js "/p/a" then some .file else if path = js "/p" then some .directory else none
  realpath path := if path = js "/p/a" then some [js "p", js "a"] else if path = js "/p" then some [js "p"] else none
  cwd := [js "p"]
  normal := project.normal
  tree := .file nameA .nil

/-- It ignores nothing and matches names. -/
def plainRg : Rg where
  answers := true
  ignored _ := false
  globMatches pattern r := matchGlob pattern ((r.getLast?).getD [])

/-- `x` becomes `y` in all files whose name starts with `b`. -/
def replaceFiltered : GlobbedInput :=
  { replaceX with files := js "*", dryRun := true, glob := some (js "b*") }

/-- The only file is reported against the filter. -/
theorem filter_dropped : ¬ FiltersHold project projectDisk plainRg oneFile replaceFiltered := by
  intro h
  have hpasses := (h.reported _ [{ path := js "/p/a", realPath := [js "p", js "a"], replacements := 1 }] rfl _
    (List.mem_singleton_self _)).2 (js "b*") rfl (by decide)
  revert hpasses
  decide +kernel

end WrongStack.FileTools
