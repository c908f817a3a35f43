import Mathlib.Data.List.Infix
import Mathlib.Data.List.TakeWhile

/-!
# Strings of JavaScript

A string is a sequence of UTF-16 code units, which need not be well-formed Unicode. `js` writes one
down from a Lean literal.
-/

namespace WrongStack.Lib

abbrev CodeUnit := UInt16

abbrev JsString := List CodeUnit

instance : LawfulBEq JsString := inferInstance

def utf16 (c : Char) : JsString :=
  if c.val < 0x10000 then [c.val.toUInt16]
  else
    [(0xD800 + (c.val - 0x10000) / 0x400).toUInt16, (0xDC00 + (c.val - 0x10000) % 0x400).toUInt16]

def js (s : String) : JsString := s.toList.flatMap utf16

def unit (c : Char) : CodeUnit := c.val.toUInt16

/-! ## Classes of code units -/

/-- White space and line terminators: what `\s` matches and `trim` removes. -/
def isSpace (c : CodeUnit) : Bool :=
  (9 ≤ c && c ≤ 13) || c == 0x20 || c == 0xA0 || c == 0x1680 || (0x2000 ≤ c && c ≤ 0x200A) ||
    c == 0x2028 || c == 0x2029 || c == 0x202F || c == 0x205F || c == 0x3000 || c == 0xFEFF

def isLineTerminator (c : CodeUnit) : Bool := c == 10 || c == 13 || c == 0x2028 || c == 0x2029

def isUpper (c : CodeUnit) : Bool := unit 'A' ≤ c && c ≤ unit 'Z'

def isLower (c : CodeUnit) : Bool := unit 'a' ≤ c && c ≤ unit 'z'

def isDigit (c : CodeUnit) : Bool := unit '0' ≤ c && c ≤ unit '9'

/-- What `\w` matches. -/
def isWord (c : CodeUnit) : Bool := isUpper c || isLower c || isDigit c || c == unit '_'

/-- The other case of an ASCII letter. -/
def swapCase (c : CodeUnit) : CodeUnit :=
  if isUpper c then c + 32 else if isLower c then c - 32 else c

/-! ## Methods -/

namespace JsString

def trim (s : JsString) : JsString := ((s.dropWhile isSpace).reverse.dropWhile isSpace).reverse

def trimEnd (s : JsString) : JsString := (s.reverse.dropWhile isSpace).reverse

/-- `.replace(/\s+/g, ' ')` -/
def collapseSpaces : JsString → JsString
  | [] => []
  | [c] => [if isSpace c then unit ' ' else c]
  | c :: d :: rest =>
      if isSpace c then
        if isSpace d then collapseSpaces (d :: rest) else unit ' ' :: collapseSpaces (d :: rest)
      else c :: collapseSpaces (d :: rest)

/-- `toLowerCase` as far as a comparison with ASCII text can see: the Kelvin sign is the only other
code unit whose lower case is an ASCII letter, and a capital I with a dot becomes an `i` and a
combining dot. -/
def toLowerCase (s : JsString) : JsString :=
  s.flatMap fun c =>
    if isUpper c then [c + 32]
    else if c == 0x212A then [unit 'k']
    else if c == 0x130 then [unit 'i', 0x307]
    else [c]

/-- `split` at a single code unit. -/
def splitOn (sep : CodeUnit) : JsString → List JsString
  | [] => [[]]
  | c :: cs =>
      if c = sep then [] :: splitOn sep cs
      else match splitOn sep cs with
        | [] => [[c]]
        | s :: ss => (c :: s) :: ss

def join (sep : JsString) (parts : List JsString) : JsString := sep.intercalate parts

end JsString

end WrongStack.Lib

/-!
# The parts of a text

What `split` and `join` do to one another, and what UTF-8 does to a text that is written to a file and read back.
-/

namespace WrongStack.Lib

variable {s t : JsString} {sep c : CodeUnit} {parts : List JsString}

namespace JsString

/-! ## Splitting at a code unit -/

theorem splitOn_ne_nil (sep : CodeUnit) (s : JsString) : splitOn sep s ≠ [] := by
  cases s with
  | nil => simp [splitOn]
  | cons c s =>
      rw [splitOn]
      split
      · simp
      · split <;> simp

theorem splitOn_append_sep (sep : CodeUnit) (s t : JsString) :
    splitOn sep (s ++ sep :: t) = splitOn sep s ++ splitOn sep t := by
  induction s with
  | nil => simp [splitOn]
  | cons c s ih =>
      rw [List.cons_append, splitOn, splitOn, ih]
      split
      · rfl
      · cases h : splitOn sep s with
        | nil => exact absurd h (splitOn_ne_nil sep s)
        | cons first rest => rfl

theorem splitOn_self (h : sep ∉ s) : splitOn sep s = [s] := by
  induction s with
  | nil => rfl
  | cons c s ih =>
      obtain ⟨hc, hs⟩ := not_or.mp (mt List.mem_cons.mpr h)
      rw [splitOn, if_neg (Ne.symm hc), ih hs]

theorem splitOn_append (h : sep ∉ s) : splitOn sep (s ++ sep :: t) = s :: splitOn sep t := by
  rw [splitOn_append_sep, splitOn_self h, List.singleton_append]

theorem not_mem_of_splitOn (h : s ∈ splitOn sep t) : sep ∉ s := by
  induction t generalizing s with
  | nil =>
      obtain rfl := List.mem_singleton.mp h
      exact List.not_mem_nil
  | cons c t ih =>
      rw [splitOn] at h
      split at h
      · rcases List.mem_cons.mp h with rfl | hrest
        · exact List.not_mem_nil
        · exact ih hrest
      · rename_i hc
        split at h
        · obtain rfl := List.mem_singleton.mp h
          simpa using Ne.symm hc
        · rename_i first rest heq
          rcases List.mem_cons.mp h with rfl | hrest
          · have hfirst : sep ∉ first := ih (by rw [heq]; exact List.mem_cons_self)
            simpa [Ne.symm hc] using hfirst
          · exact ih (by rw [heq]; exact List.mem_cons_of_mem first hrest)

theorem join_cons (sep : CodeUnit) (s t : JsString) (rest : List JsString) :
    join [sep] (s :: t :: rest) = s ++ sep :: join [sep] (t :: rest) := by
  simp [join, List.intercalate, List.intersperse]

theorem splitOn_join (hne : parts ≠ []) (h : ∀ s ∈ parts, sep ∉ s) : splitOn sep (join [sep] parts) = parts := by
  induction parts with
  | nil => exact absurd rfl hne
  | cons s rest ih =>
      have hs := h s List.mem_cons_self
      cases rest with
      | nil => simpa [join] using splitOn_self hs
      | cons t rest =>
          rw [join_cons, splitOn_append hs, ih (by simp) fun u hu => h u (List.mem_cons_of_mem s hu)]

/-- Induction on the separators of a text, from the left. -/
theorem sep_induction {motive : JsString → Prop} (sep : CodeUnit) (whole : ∀ s, sep ∉ s → motive s)
    (parts : ∀ front back, sep ∉ front → motive back → motive (front ++ sep :: back)) (s : JsString) : motive s := by
  by_cases hmem : sep ∈ s
  · obtain ⟨front, back, heq, hfront⟩ := List.eq_append_cons_of_mem hmem
    have hshort : back.length < s.length := by rw [heq]; simp; omega
    rw [heq]
    exact parts front back hfront (sep_induction sep whole parts back)
  · exact whole s hmem
termination_by s.length

theorem mem_of_mem_splitOn (h : s ∈ splitOn sep t) (hc : c ∈ s) : c ∈ t := by
  induction t using sep_induction sep with
  | whole t hsep =>
      rw [splitOn_self hsep] at h
      rwa [List.mem_singleton.mp h] at hc
  | parts front back hfront ih =>
      rw [splitOn_append hfront] at h
      rcases List.mem_cons.mp h with rfl | hback
      · exact List.mem_append_left _ hc
      · exact List.mem_append_right _ (List.mem_cons_of_mem _ (ih hback))

/-- A code unit of the text is in one of its parts. -/
theorem exists_mem_splitOn (hc : c ∈ t) (hsep : c ≠ sep) : ∃ s ∈ splitOn sep t, c ∈ s := by
  induction t using sep_induction sep with
  | whole t hmem =>
      rw [splitOn_self hmem]
      exact ⟨t, List.mem_singleton_self t, hc⟩
  | parts front back hfront ih =>
      rw [splitOn_append hfront]
      rw [List.mem_append, List.mem_cons] at hc
      rcases hc with hc | rfl | hc
      · exact ⟨front, List.mem_cons_self, hc⟩
      · exact absurd rfl hsep
      · obtain ⟨s, hs, hcs⟩ := ih hc
        exact ⟨s, List.mem_cons_of_mem front hs, hcs⟩

/-- The last part is empty only after a separator. -/
theorem getLast?_splitOn (h : t.getLast? = some c) (hsep : c ≠ sep) : (splitOn sep t).getLast? ≠ some [] := by
  induction t using sep_induction sep with
  | whole t hmem =>
      rw [splitOn_self hmem, List.getLast?_singleton]
      intro heq
      rw [Option.some.inj heq] at h
      cases h
  | parts front back hfront ih =>
      rw [splitOn_append hfront, List.getLast?_cons_of_ne_nil (splitOn_ne_nil sep back)]
      rw [List.getLast?_append_cons] at h
      cases back with
      | nil => exact absurd (Option.some.inj h).symm hsep
      | cons d back => exact ih (by rwa [List.getLast?_cons_of_ne_nil (List.cons_ne_nil d back)] at h)

/-- Behind the last separator the parts of the text go on in those of the next one. -/
theorem splitOn_append_last (sep : CodeUnit) (s t : JsString) :
    splitOn sep (s ++ t) =
      (splitOn sep s).dropLast ++ splitOn sep ((splitOn sep s).getLast?.getD [] ++ t) := by
  induction s using sep_induction sep with
  | whole s hmem => simp [splitOn_self hmem]
  | parts front back hfront ih =>
      have hne := splitOn_ne_nil sep back
      rw [List.append_assoc, List.cons_append, splitOn_append hfront, splitOn_append hfront, ih,
        List.dropLast_cons_of_ne_nil hne, List.getLast?_cons_of_ne_nil hne, List.cons_append]

theorem splitOn_append_replicate (sep : CodeUnit) (s : JsString) (n : Nat) :
    splitOn sep (s ++ List.replicate n sep) = splitOn sep s ++ List.replicate n [] := by
  induction n with
  | zero => simp
  | succ n ih =>
      rw [List.replicate_succ', ← List.append_assoc, splitOn_append_sep, ih, splitOn, List.append_assoc,
        List.replicate_succ']

/-! ## Trimming -/

theorem trim_eq_nil_iff : trim s = [] ↔ ∀ c ∈ s, isSpace c = true := by
  rw [trim, List.reverse_eq_nil_iff, List.dropWhile_eq_nil_iff]
  constructor
  · intro h c hc
    by_contra hspace
    have hmem : c ∈ s.dropWhile isSpace := by
      rcases List.mem_append.mp (List.takeWhile_append_dropWhile (p := isSpace) (l := s) ▸ hc) with htake | hdrop
      · exact absurd (List.mem_takeWhile_imp htake) hspace
      · exact hdrop
    exact hspace (h c (List.mem_reverse.mpr hmem))
  · exact fun h c hc => h c ((List.dropWhile_suffix isSpace).subset (List.mem_reverse.mp hc))

/-! ## Surrogates -/

def isHighSurrogate (c : CodeUnit) : Bool := 0xD800 ≤ c && c < 0xDC00

def isLowSurrogate (c : CodeUnit) : Bool := 0xDC00 ≤ c && c < 0xE000

def isSurrogate (c : CodeUnit) : Bool := isHighSurrogate c || isLowSurrogate c

def replaceSurrogate (c : CodeUnit) : CodeUnit := if isSurrogate c then 0xFFFD else c

/-- `toWellFormed`, and what is read back of a text that is written as UTF-8: a surrogate that is not in a pair
becomes U+FFFD. -/
def toWellFormed : JsString → JsString
  | hi :: lo :: rest =>
      if isHighSurrogate hi && isLowSurrogate lo then hi :: lo :: toWellFormed rest
      else replaceSurrogate hi :: toWellFormed (lo :: rest)
  | [c] => [replaceSurrogate c]
  | [] => []

@[simp] theorem isSurrogate_replaceSurrogate (c : CodeUnit) : isSurrogate (replaceSurrogate c) = false := by
  unfold replaceSurrogate
  split
  · decide
  · rename_i h
    exact Bool.eq_false_iff.mpr h

theorem replaceSurrogate_of_not (h : isSurrogate c = false) : replaceSurrogate c = c := by
  simp [replaceSurrogate, h]

theorem toWellFormed_cons (h : isSurrogate c = false) (s : JsString) :
    toWellFormed (c :: s) = c :: toWellFormed s := by
  cases s with
  | nil => rw [toWellFormed, replaceSurrogate_of_not h, toWellFormed]
  | cons d s =>
      have hhigh : isHighSurrogate c = false := (Bool.or_eq_false_iff.mp h).1
      rw [toWellFormed, hhigh, replaceSurrogate_of_not h]
      rfl

theorem toWellFormed_append_cons (h : isSurrogate c = false) (s t : JsString) :
    toWellFormed (s ++ c :: t) = toWellFormed s ++ c :: toWellFormed t := by
  have hlow : isLowSurrogate c = false := (Bool.or_eq_false_iff.mp h).2
  fun_induction toWellFormed s with
  | case1 hi lo rest hpair ih =>
      rw [List.cons_append, List.cons_append, toWellFormed, if_pos hpair, ih]
      rfl
  | case2 hi lo rest hpair ih =>
      rw [List.cons_append, List.cons_append, toWellFormed, if_neg hpair, ← List.cons_append, ih]
      rfl
  | case3 d => simp only [List.singleton_append, toWellFormed, hlow, Bool.and_false, Bool.false_eq_true, ↓reduceIte, toWellFormed_cons h]
  | case4 => exact toWellFormed_cons h t

theorem toWellFormed_append (h : toWellFormed s = s) (t : JsString) :
    toWellFormed (s ++ t) = s ++ toWellFormed t := by
  fun_induction toWellFormed s with
  | case1 hi lo rest hpair ih =>
      have hrest : toWellFormed rest = rest := by simpa using h
      rw [List.cons_append, List.cons_append, toWellFormed, if_pos hpair, ih hrest]
      rfl
  | case2 hi lo rest hpair ih =>
      obtain ⟨hhi, hrest⟩ := List.cons.inj h
      rw [List.cons_append, toWellFormed_cons (hhi ▸ isSurrogate_replaceSurrogate hi), ih hrest]
      rfl
  | case3 c =>
      obtain ⟨hc, -⟩ := List.cons.inj h
      exact toWellFormed_cons (hc ▸ isSurrogate_replaceSurrogate c) t
  | case4 => rfl

@[simp] theorem toWellFormed_toWellFormed (s : JsString) : toWellFormed (toWellFormed s) = toWellFormed s := by
  fun_induction toWellFormed s with
  | case1 hi lo rest hpair ih => rw [toWellFormed, if_pos hpair, ih]
  | case2 hi lo rest hpair ih => rw [toWellFormed_cons (isSurrogate_replaceSurrogate hi), ih]
  | case3 c => rw [toWellFormed, replaceSurrogate_of_not (isSurrogate_replaceSurrogate c)]
  | case4 => rfl

theorem mem_toWellFormed (h : isSurrogate c = false) (hc : c ≠ 0xFFFD) : c ∈ toWellFormed s ↔ c ∈ s := by
  have hreplace (d : CodeUnit) : c = replaceSurrogate d ↔ c = d := by
    unfold replaceSurrogate
    split
    · rename_i hd
      refine iff_of_false hc fun heq => ?_
      rw [heq, hd] at h
      cases h
    · rfl
  fun_induction toWellFormed s with
  | case1 hi lo rest hpair ih => simp only [List.mem_cons, ih]
  | case2 hi lo rest hpair ih =>
      have hor : c = replaceSurrogate hi ∨ c ∈ toWellFormed (lo :: rest) ↔ c = hi ∨ c ∈ lo :: rest := or_congr (hreplace hi) ih
      simpa only [List.mem_cons] using hor
  | case3 d => simp only [List.mem_singleton, hreplace]
  | case4 => rfl

/-- The parts of a text keep to themselves when it is written and read. -/
theorem splitOn_toWellFormed (h : isSurrogate sep = false) (hsep : sep ≠ 0xFFFD) (s : JsString) :
    splitOn sep (toWellFormed s) = (splitOn sep s).map toWellFormed := by
  induction s using sep_induction sep with
  | whole s hmem => rw [splitOn_self hmem, splitOn_self ((mem_toWellFormed h hsep).not.mpr hmem), List.map_singleton]
  | parts front back hfront ih =>
      rw [toWellFormed_append_cons h, splitOn_append hfront, splitOn_append ((mem_toWellFormed h hsep).not.mpr hfront),
        ih, List.map_cons]

end JsString

end WrongStack.Lib
