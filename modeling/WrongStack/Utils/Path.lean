import WrongStack.Lib.Json
import WrongStack.Lib.Regex

/-!
# Globs and subjects

`core/src/utils/glob-match.ts` and `core/src/utils/tool-subject.ts`. The cache of compiled globs
changes no result and is left out.
-/

namespace WrongStack.Utils

open Lib Regex

/-! ## `compileGlob` -/

def MAX_GLOB_PATTERN_LEN : Nat := 1024

/-- The members of a character class with the text `body`, in which every code unit stands for
itself except for a `-` between two others. A range out of order is a syntax error. -/
def classMembers : JsString → Option (CodeUnit → Bool)
  | lo :: dash :: hi :: rest =>
      if dash = unit '-' then
        if lo ≤ hi then (classMembers rest).map fun p c => (lo ≤ c && c ≤ hi) || p c
        else none
      else (classMembers (dash :: hi :: rest)).map fun p c => c == lo || p c
  | lo :: rest => (classMembers rest).map fun p c => c == lo || p c
  | [] => some fun _ => false

/-- The loop of `compileGlob`; every turn consumes the pattern, so its length bounds the turns. -/
def globParts : Nat → JsString → Option (List Regex)
  | 0, _ => some []
  | _, [] => some []
  | fuel + 1, c :: cs =>
      if c = unit '*' then
        if cs.head? = some (unit '*') then
          -- skip a trailing slash so that `**/x` matches `x`
          let cs := if cs.tail.head? = some (unit '/') then cs.tail.tail else cs.tail
          (globParts fuel cs).map (star (oneOf fun c => !isLineTerminator c) :: ·)
        else (globParts fuel cs).map (star (oneOf (· != unit '/')) :: ·)
      else if c = unit '?' then (globParts fuel cs).map (oneOf (· != unit '/') :: ·)
      else if c = unit '[' then
        let negated := cs.head? = some (unit '!') || cs.head? = some (unit '^')
        let cs := if negated then cs.tail else cs
        match classMembers (cs.takeWhile (· != unit ']')) with
        | none => none
        | some p =>
            (globParts fuel (cs.dropWhile (· != unit ']')).tail).map (oneOf (fun c => negated != p c) :: ·)
      else (globParts fuel cs).map (oneOf (· == c) :: ·)

/-- `none` where `compileGlob` or `new RegExp` throws. -/
def compileGlob (pattern : JsString) : Option Regex :=
  if MAX_GLOB_PATTERN_LEN < pattern.length then none
  else (globParts pattern.length pattern).map fun parts => concat (start :: parts ++ [stop])

/-- A pattern that does not compile never matches. -/
def matchGlob (pattern input : JsString) : Bool :=
  match compileGlob pattern with
  | none => false
  | some re => re.test input

def matchAny (patterns : List JsString) (input : JsString) : Bool :=
  patterns.any fun p => matchGlob p input

/-! ## `subjectForToolInput` -/

def escapeGlobSubject (value : JsString) : JsString :=
  value.flatMap fun c => if (js "*?[]").contains c then [unit '\\', c] else [c]

def normalizePathSubject (value : JsString) : JsString :=
  escapeGlobSubject (value.map fun c => if c = unit '\\' then unit '/' else c)

def isPathSubjectKey (subjectKey : JsString) : Bool :=
  subjectKey == js "path" || subjectKey == js "file" || subjectKey == js "files"

def subjectForToolInput (toolName : JsString) (input : Json) (subjectKey : Option JsString) :
    Option JsString :=
  let bySubjectKey := subjectKey.bind fun key =>
    if key.isEmpty then none
    else (input.getString key).map fun value =>
      if isPathSubjectKey key then normalizePathSubject value else escapeGlobSubject value
  bySubjectKey
    <|> (if toolName = js "bash" then (input.getString (js "command")).map escapeGlobSubject else none)
    <|> (input.getString (js "path")).map normalizePathSubject
    <|> (input.getString (js "url")).map escapeGlobSubject
    <|> (input.getString (js "name")).map escapeGlobSubject

end WrongStack.Utils

/-!
# Paths

`path.resolve`, `path.relative` and `path.isAbsolute` of Node on POSIX. An absolute path is the list of
its segments.
-/

namespace WrongStack.Utils

open Lib

abbrev AbsPath := List JsString

namespace Path

def normalize : AbsPath → List JsString → AbsPath
  | acc, [] => acc
  | acc, s :: rest =>
      if s.isEmpty || s == js "." then normalize acc rest
      else if s == js ".." then normalize acc.dropLast rest
      else normalize (acc ++ [s]) rest

def isAbsolute (p : JsString) : Bool := p.head? = some (unit '/')

def resolve (cwd : AbsPath) (p : JsString) : AbsPath :=
  normalize (if isAbsolute p then [] else cwd) (JsString.splitOn (unit '/') p)

def relative : AbsPath → AbsPath → JsString
  | a :: dir, b :: dest =>
      if a = b then relative dir dest
      else JsString.join (js "/") ((a :: dir).map (fun _ => js "..") ++ b :: dest)
  | dir, dest => JsString.join (js "/") (dir.map (fun _ => js "..") ++ dest)

/-- An absolute path as it is written. -/
def text (p : AbsPath) : JsString := unit '/' :: JsString.join (js "/") p

/-- The segments are those of a resolved path. -/
def Normal (p : AbsPath) : Prop := ∀ s ∈ p, s ≠ [] ∧ s ≠ js "." ∧ s ≠ js ".." ∧ unit '/' ∉ s

/-! ## Resolved paths -/

variable {acc p : AbsPath} {s t : JsString}

theorem normalize_of_normal (hp : Normal p) : normalize acc p = acc ++ p := by
  induction p generalizing acc with
  | nil => exact (List.append_nil acc).symm
  | cons s rest ih =>
      obtain ⟨hempty, hdot, hdots, -⟩ := hp s List.mem_cons_self
      have hrest : Normal rest := fun t ht => hp t (List.mem_cons_of_mem s ht)
      simp [normalize, hempty, hdot, hdots, ih hrest]

theorem normal_normalize (hacc : Normal acc) {parts : List JsString} (hparts : ∀ s ∈ parts, unit '/' ∉ s) :
    Normal (normalize acc parts) := by
  induction parts generalizing acc with
  | nil => exact hacc
  | cons s rest ih =>
      have hrest : ∀ t ∈ rest, unit '/' ∉ t := fun t ht => hparts t (List.mem_cons_of_mem s ht)
      unfold normalize
      split
      · exact ih hacc hrest
      · rename_i hskip
        split
        · exact ih (fun t ht => hacc t (List.mem_of_mem_dropLast ht)) hrest
        · rename_i hup
          refine ih (fun t ht => ?_) hrest
          rcases List.mem_append.mp ht with hold | hnew
          · exact hacc t hold
          · obtain rfl := List.mem_singleton.mp hnew
            simp only [Bool.or_eq_true, List.isEmpty_iff, beq_iff_eq, not_or] at hskip hup
            exact ⟨hskip.1, hskip.2, hup, hparts t List.mem_cons_self⟩

theorem normal_resolve {cwd : AbsPath} (h : Normal cwd) (input : JsString) : Normal (resolve cwd input) := by
  refine normal_normalize ?_ fun s hs => JsString.not_mem_of_splitOn hs
  split
  · exact fun s hs => absurd hs List.not_mem_nil
  · exact h

theorem resolve_text (cwd : AbsPath) (h : Normal p) : resolve cwd (text p) = p := by
  have habs : isAbsolute (text p) = true := by simp [isAbsolute, text]
  rw [resolve, if_pos habs]
  have hsplit : JsString.splitOn (unit '/') (text p) = [] :: JsString.splitOn (unit '/') (JsString.join (js "/") p) :=
    JsString.splitOn_append List.not_mem_nil
  rw [hsplit, normalize]
  simp only [List.isEmpty_nil, Bool.true_or, ↓reduceIte]
  cases hp : p with
  | nil => rfl
  | cons s rest =>
      have hslash : js "/" = [unit '/'] := by decide
      rw [← hp, hslash, JsString.splitOn_join (by simp [hp]) fun s hs => (h s hs).2.2.2, normalize_of_normal h,
        List.nil_append]

end Path

end WrongStack.Utils
