import WrongStack.Lib.JsString

/-!
# Line ends and replacements

The line ends of a text (`core/src/utils/newline-normalize.ts`), and the methods of strings that the file tools use
to replace one text by another.
-/

namespace WrongStack.Utils

open Lib

inductive NewlineStyle
  | lf | crlf | cr
  deriving DecidableEq

structure LineEnds where
  lf : Nat := 0
  crlf : Nat := 0
  cr : Nat := 0

def countLineEnds (n : LineEnds) : JsString → LineEnds
  | [] => n
  | [c] => if c = 13 then { n with cr := n.cr + 1 } else if c = 10 then { n with lf := n.lf + 1 } else n
  | c :: d :: rest =>
      if c = 13 then
        if d = 10 then countLineEnds { n with crlf := n.crlf + 1 } rest
        else countLineEnds { n with cr := n.cr + 1 } (d :: rest)
      else if c = 10 then countLineEnds { n with lf := n.lf + 1 } (d :: rest)
      else countLineEnds n (d :: rest)

def detectNewlineStyle (text : JsString) : NewlineStyle :=
  let n := countLineEnds {} text
  if n.lf < n.crlf && n.cr < n.crlf then .crlf
  else if n.lf < n.cr && n.crlf < n.cr then .cr
  else .lf

def normalizeToLf : JsString → JsString
  | [] => []
  | [c] => [if c = 13 then 10 else c]
  | c :: d :: rest =>
      if c = 13 then if d = 10 then 10 :: normalizeToLf rest else 10 :: normalizeToLf (d :: rest)
      else c :: normalizeToLf (d :: rest)

def toStyle (text : JsString) (style : NewlineStyle) : JsString :=
  let normalized := normalizeToLf text
  match style with
  | .lf => normalized
  | .crlf => normalized.flatMap fun c => if c = 10 then [13, 10] else [c]
  | .cr => normalized.map fun c => if c = 10 then 13 else c

/-! ## Replacing -/

/-- How often a non-empty text occurs, overlaps included. -/
def occurrences (needle : JsString) : JsString → Nat
  | [] => 0
  | c :: cs => (if needle.isPrefixOf (c :: cs) then 1 else 0) + occurrences needle cs

/-- `split(needle).join(replacement)`; `skip` code units belong to the last occurrence. -/
def replaceEvery (needle replacement : JsString) : Nat → JsString → JsString
  | _, [] => []
  | skip + 1, _ :: cs => replaceEvery needle replacement skip cs
  | 0, c :: cs =>
      if needle.isPrefixOf (c :: cs) then replacement ++ replaceEvery needle replacement (needle.length - 1) cs
      else c :: replaceEvery needle replacement 0 cs

/-- The dollar patterns that `replace` knows in a replacement. -/
def expandReplacement (matched before after : JsString) : JsString → JsString
  | [] => []
  | [c] => [c]
  | c :: d :: rest =>
      if c = unit '$' then
        if d = unit '$' then unit '$' :: expandReplacement matched before after rest
        else if d = unit '&' then matched ++ expandReplacement matched before after rest
        else if d = 0x60 then before ++ expandReplacement matched before after rest
        else if d = 0x27 then after ++ expandReplacement matched before after rest
        else c :: expandReplacement matched before after (d :: rest)
      else c :: expandReplacement matched before after (d :: rest)

/-- `replace(needle, replacement)`; `before` has been looked at. -/
def replaceFirst (needle replacement before : JsString) : JsString → JsString
  | [] => before
  | c :: cs =>
      if needle.isPrefixOf (c :: cs) then
        let after := (c :: cs).drop needle.length
        before ++ expandReplacement needle before after replacement ++ after
      else replaceFirst needle replacement (before ++ [c]) cs

/-- A match of a regular expression. -/
structure Match where
  index : Nat
  length : Nat
  deriving DecidableEq

/-- The replacement in the place of each match, from the last one to the first. -/
def splice (ms : List Match) (replacement text : JsString) : JsString :=
  ms.foldr (fun m s => s.take m.index ++ replacement ++ s.drop (m.index + m.length)) text

/-- `isBinaryBuffer` on the UTF-8 encoding of a text: a zero byte among the first `budget`. -/
def isBinary : Nat → JsString → Bool
  | _, [] => false
  | 0, _ => false
  | budget + 1, c :: cs =>
      c == 0 ||
        let bytes := if c < 0x80 then 1 else if c < 0x800 || (0xD800 ≤ c && c < 0xE000) then 2 else 3
        isBinary (budget + 1 - bytes) cs

end WrongStack.Utils
