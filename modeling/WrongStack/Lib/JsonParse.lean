import WrongStack.Lib.Json

/-!
# `JSON.parse`

A machine that takes one code unit after the other. A text is made of white space, punctuation, strings and words,
and a word is what stands between these. What a number literal denotes is a parameter. A key keeps the place of
its first occurrence, also if it is an integer.
-/

namespace WrongStack.Lib.JsonParse

open JsString

/-! ## Words -/

/-- JSON white space, which is less than that of `trim`. -/
def isWhitespace (c : CodeUnit) : Bool := c == unit ' ' || c == 9 || c == 10 || c == 13

def isPunctuation (c : CodeUnit) : Bool := (js "[]{}:,").contains c

/-- A code unit that ends a word. -/
def isDelimiter (c : CodeUnit) : Bool := isWhitespace c || c == unit '"' || isPunctuation c

/-- An exponent, or nothing. -/
def isExponent : JsString → Bool
  | [] => true
  | e :: rest =>
      let digits := match rest with
        | sign :: more => if sign == unit '+' || sign == unit '-' then more else rest
        | [] => []
      (e == unit 'e' || e == unit 'E') && !digits.isEmpty && digits.all isDigit

/-- What follows the integer part. -/
def isFraction : JsString → Bool
  | dot :: digit :: rest =>
      if dot = unit '.' then isDigit digit && isExponent (rest.dropWhile isDigit) else isExponent (dot :: digit :: rest)
  | rest => isExponent rest

def isUnsigned : JsString → Bool
  | digit :: rest =>
      if digit = unit '0' then isFraction rest else isDigit digit && isFraction (rest.dropWhile isDigit)
  | [] => false

def isNumber : JsString → Bool
  | sign :: rest => isUnsigned (if sign = unit '-' then rest else sign :: rest)
  | [] => false

/-! ## Values -/

/-- An array or object that is open, with what it has so far. -/
inductive Frame
  | array (items : List Json)
  | object (fields : Json.Fields) (key : JsString)

/-- What may come next. -/
inductive Phase
  | value
  | firstItem
  | firstKey
  | key (fields : Json.Fields)
  | colon (fields : Json.Fields) (key : JsString)
  | done (v : Json)

structure Position where
  phase : Phase := .value
  stack : List Frame := []

namespace Position

def takeValue (p : Position) (v : Json) : Option Position :=
  match p.phase with
  | .value => some { p with phase := .done v }
  | .firstItem => some ⟨.done v, .array [] :: p.stack⟩
  | _ => none

def takeString (p : Position) (s : JsString) : Option Position :=
  match p.phase with
  | .firstKey => some { p with phase := .colon [] s }
  | .key fields => some { p with phase := .colon fields s }
  | _ => p.takeValue (.str s)

/-- An array or object begins. -/
def openFrame (p : Position) (phase : Phase) : Option Position :=
  match p.phase with
  | .value => some { p with phase }
  | .firstItem => some ⟨phase, .array [] :: p.stack⟩
  | _ => none

def takeComma (p : Position) : Option Position :=
  match p.phase, p.stack with
  | .done v, .array items :: stack => some ⟨.value, .array (items ++ [v]) :: stack⟩
  | .done v, .object fields key :: stack => some ⟨.key (Json.setField fields key v), stack⟩
  | _, _ => none

def closeArray (p : Position) : Option Position :=
  match p.phase, p.stack with
  | .firstItem, stack => some ⟨.done (.arr []), stack⟩
  | .done v, .array items :: stack => some ⟨.done (.arr (items ++ [v])), stack⟩
  | _, _ => none

def closeObject (p : Position) : Option Position :=
  match p.phase, p.stack with
  | .firstKey, stack => some ⟨.done (.obj []), stack⟩
  | .done v, .object fields key :: stack => some ⟨.done (.obj (Json.setField fields key v)), stack⟩
  | _, _ => none

def takeColon (p : Position) : Option Position :=
  match p.phase with
  | .colon fields key => some ⟨.value, .object fields key :: p.stack⟩
  | _ => none

def takePunctuation (p : Position) (c : CodeUnit) : Option Position :=
  if c = unit '[' then p.openFrame .firstItem
  else if c = unit '{' then p.openFrame .firstKey
  else if c = unit ']' then p.closeArray
  else if c = unit '}' then p.closeObject
  else if c = unit ',' then p.takeComma
  else p.takeColon

/-- The value, if nothing is open any more. -/
def result (p : Position) : Option Json :=
  match p.phase, p.stack with
  | .done v, [] => some v
  | _, _ => none

end Position

/-! ## The machine -/

inductive Lexeme
  | between
  | word (w : JsString)
  | string (s : JsString)
  /-- After a backslash. -/
  | escape (s : JsString)
  /-- After `\u`, with `left` digits still to come. -/
  | unicode (s : JsString) (n left : Nat)

structure State where
  lexeme : Lexeme := .between
  position : Position := {}

def hexValue (c : CodeUnit) : Option Nat :=
  if isDigit c then some (c.toNat - 48)
  else if unit 'a' ≤ c && c ≤ unit 'f' then some (c.toNat - 87)
  else if unit 'A' ≤ c && c ≤ unit 'F' then some (c.toNat - 55)
  else none

/-- What a backslash and a code unit other than `u` stand for. -/
def unescape (c : CodeUnit) : Option CodeUnit :=
  if c == unit '"' || c == unit '\\' || c == unit '/' then some c
  else if c = unit 'b' then some 8
  else if c = unit 'f' then some 12
  else if c = unit 'n' then some 10
  else if c = unit 'r' then some 13
  else if c = unit 't' then some 9
  else none

section
variable (number : JsString → JsString)

def wordValue (w : JsString) : Option Json :=
  if w = js "null" then some .null
  else if w = js "true" then some (.bool true)
  else if w = js "false" then some (.bool false)
  else if isNumber w then some (.num (number w))
  else none

def takeWord (w : JsString) (p : Position) : Option Position := (wordValue number w).bind p.takeValue

def feedBetween (c : CodeUnit) (p : Position) : Option State :=
  if isWhitespace c then some ⟨.between, p⟩
  else if c = unit '"' then some ⟨.string [], p⟩
  else if isPunctuation c then (p.takePunctuation c).map fun p => ⟨.between, p⟩
  else some ⟨.word [c], p⟩

def feed (q : State) (c : CodeUnit) : Option State :=
  match q.lexeme with
  | .between => feedBetween c q.position
  | .word w =>
      if isDelimiter c then (takeWord number w q.position).bind (feedBetween c)
      else some { q with lexeme := .word (w ++ [c]) }
  | .string s =>
      if c = unit '"' then (q.position.takeString s).map fun p => ⟨.between, p⟩
      else if c = unit '\\' then some { q with lexeme := .escape s }
      else if c < 0x20 then none
      else some { q with lexeme := .string (s ++ [c]) }
  | .escape s =>
      if c = unit 'u' then some { q with lexeme := .unicode s 0 4 }
      else (unescape c).map fun d => { q with lexeme := .string (s ++ [d]) }
  | .unicode s n left =>
      (hexValue c).map fun digit =>
        if left = 1 then { q with lexeme := .string (s ++ [(16 * n + digit).toUInt16]) }
        else { q with lexeme := .unicode s (16 * n + digit) (left - 1) }

def run (q : State) (text : JsString) : Option State := text.foldlM (feed number) q

def finish (q : State) : Option Json :=
  match q.lexeme with
  | .between => q.position.result
  | .word w => (takeWord number w q.position).bind Position.result
  | _ => none

/-- `JSON.parse(text)`, or `none` if it throws. -/
def parse (text : JsString) : Option Json := (run number {} text).bind (finish number)

end

example : (parse id (js "\x7b\"a\": [1, true, \"\\u0041\"], \"b\": \x7b\x7d\x7d")).map Json.stringify =
    some (js "\x7b\"a\":[1,true,\"A\"],\"b\":\x7b\x7d\x7d") := by decide +kernel

end WrongStack.Lib.JsonParse

/-!
# Line breaks in a JSON text

A line break between two tokens changes nothing, also with the space after it taken away; one inside a token makes
the text no JSON text any more.
-/

namespace WrongStack.Lib.JsonParse

inductive Mode
  | between | word | string | escape
  deriving DecidableEq

def Mode.step (m : Mode) (c : CodeUnit) : Mode :=
  match m with
  | .between | .word =>
      if isWhitespace c then .between
      else if c = unit '"' then .string
      else if isPunctuation c then .between
      else .word
  | .string => if c = unit '"' then .between else if c = unit '\\' then .escape else .string
  | .escape => .string

def Mode.after (m : Mode) (text : JsString) : Mode := text.foldl Mode.step m

/-- A line break before `rest` would be inside a token. -/
def Mode.splits (m : Mode) (rest : JsString) : Bool :=
  match m with
  | .between => false
  | .word => rest.head?.any fun c => !isDelimiter c
  | .string | .escape => true

def Lexeme.mode : Lexeme → Mode
  | .between => .between
  | .word _ => .word
  | .string _ | .unicode .. => .string
  | .escape _ => .escape

def stripSpace (text : JsString) : JsString := if text.head? = some (unit ' ') then text.tail else text

variable {number : JsString → JsString} {q q' : State} {c : CodeUnit} {s t u text : JsString} {w : JsString}
  {p p' : Position} {v : Json}

/-! ## One code unit -/

theorem feedBetween_mode (h : feedBetween c p = some q) : q.lexeme.mode = Mode.between.step c := by
  unfold feedBetween at h
  simp only [Mode.step]
  split at h
  · rename_i hspace
    cases h
    rw [if_pos hspace]
    rfl
  · rename_i hspace
    rw [if_neg hspace]
    split at h
    · rename_i hquote
      cases h
      rw [if_pos hquote]
      rfl
    · rename_i hquote
      rw [if_neg hquote]
      split at h
      · rename_i hpunct
        obtain ⟨p', -, rfl⟩ := Option.map_eq_some_iff.mp h
        rw [if_pos hpunct]
        rfl
      · rename_i hpunct
        cases h
        rw [if_neg hpunct]
        rfl

theorem step_of_not_delimiter (h : isDelimiter c = false) : Mode.word.step c = .word := by
  simp only [isDelimiter, Bool.or_eq_false_iff, beq_eq_false_iff_ne, ne_eq] at h
  simp [Mode.step, h.1.1, h.1.2, h.2]

theorem not_quote_of_hexValue {n : Nat} (h : hexValue c = some n) : c ≠ unit '"' ∧ c ≠ unit '\\' := by
  constructor <;>
  · rintro rfl
    revert h
    decide +revert

theorem feed_mode (h : feed number q c = some q') : q'.lexeme.mode = q.lexeme.mode.step c := by
  unfold feed at h
  split at h
  · rename_i hlex
    rw [hlex]
    exact feedBetween_mode h
  · rename_i w hlex
    rw [hlex]
    split at h
    · obtain ⟨p, -, hp⟩ := Option.bind_eq_some_iff.mp h
      exact feedBetween_mode hp
    · rename_i hdelim
      cases h
      exact (step_of_not_delimiter (by simpa using hdelim)).symm
  · rename_i s hlex
    rw [hlex]
    simp only [Lexeme.mode, Mode.step]
    split at h
    · rename_i hquote
      obtain ⟨p, -, rfl⟩ := Option.map_eq_some_iff.mp h
      rw [if_pos hquote]
    · rename_i hquote
      rw [if_neg hquote]
      split at h
      · rename_i hslash
        cases h
        rw [if_pos hslash]
      · rename_i hslash
        rw [if_neg hslash]
        split at h
        · cases h
        · cases h
          rfl
  · rename_i s hlex
    rw [hlex]
    split at h
    · cases h
      rfl
    · obtain ⟨d, -, rfl⟩ := Option.map_eq_some_iff.mp h
      rfl
  · rename_i s n left hlex
    rw [hlex]
    obtain ⟨digit, hdigit, rfl⟩ := Option.map_eq_some_iff.mp h
    obtain ⟨hquote, hslash⟩ := not_quote_of_hexValue hdigit
    have hstep : Mode.string.step c = .string := by rw [Mode.step, if_neg hquote, if_neg hslash]
    by_cases hleft : left = 1
    · rw [if_pos hleft]
      exact hstep.symm
    · rw [if_neg hleft]
      exact hstep.symm

theorem run_cons : run number q (c :: s) = (feed number q c).bind fun q => run number q s := List.foldlM_cons

theorem run_append : run number q (s ++ t) = (run number q s).bind fun q => run number q t := List.foldlM_append

theorem run_mode (h : run number q text = some q') : q'.lexeme.mode = q.lexeme.mode.after text := by
  induction text generalizing q with
  | nil =>
      cases h
      rfl
  | cons c text ih =>
      rw [run_cons] at h
      obtain ⟨q1, hq1, hrest⟩ := Option.bind_eq_some_iff.mp h
      rw [ih hrest, feed_mode hq1]
      rfl

/-! ## A line break -/

theorem feed_newline_between (h : q.lexeme = .between) : feed number q (unit '\n') = some q := by
  unfold feed
  rw [h]
  cases q
  cases h
  rfl

theorem feed_newline_string (h : q.lexeme.mode = .string ∨ q.lexeme.mode = .escape) :
    feed number q (unit '\n') = none := by
  unfold feed
  cases hlex : q.lexeme with
  | between | word => rw [hlex] at h; simp [Lexeme.mode] at h
  | string s => exact if_neg (by decide)
  | escape s => rfl
  | unicode s n left => rfl

theorem feed_newline_word (h : q.lexeme = .word w) :
    feed number q (unit '\n') = (takeWord number w q.position).map fun p => ⟨.between, p⟩ := by
  have hbreak : isDelimiter (unit '\n') = true := by decide
  unfold feed
  rw [h]
  simp only [if_pos hbreak]
  cases takeWord number w q.position <;> rfl

/-- A word ends with a line break as with any delimiter. -/
theorem feed_delimiter (h : q.lexeme = .word w) (hc : isDelimiter c = true) :
    feed number q c = (feed number q (unit '\n')).bind fun q => feed number q c := by
  rw [feed_newline_word h]
  unfold feed
  rw [h]
  simp only [if_pos hc]
  cases takeWord number w q.position <;> rfl

theorem run_stripSpace (h : q.lexeme = .between) (text : JsString) :
    run number q (stripSpace text) = run number q text := by
  unfold stripSpace
  split
  · rename_i hhead
    obtain ⟨rest, rfl⟩ : ∃ rest, text = unit ' ' :: rest := by
      cases text with
      | nil => cases hhead
      | cons c rest => exact ⟨rest, by rw [Option.some.inj hhead]⟩
    have hfeed : feed number q (unit ' ') = some q := by
      unfold feed
      rw [h]
      cases q
      cases h
      rfl
    rw [run_cons, hfeed]
    rfl
  · rfl

theorem run_seam (ht : t ≠ []) (h : q.lexeme.mode.splits t = false) :
    (feed number q (unit '\n')).bind (fun q => run number q (stripSpace t)) = run number q t := by
  obtain ⟨c, rest, rfl⟩ := List.exists_cons_of_ne_nil ht
  cases hlex : q.lexeme with
  | between =>
      rw [feed_newline_between hlex, Option.bind_some, run_stripSpace hlex]
  | word w =>
      rw [hlex] at h
      have hc : isDelimiter c = true := by simpa [Lexeme.mode, Mode.splits] using h
      rw [run_cons, feed_delimiter hlex hc, Option.bind_assoc]
      refine Option.bind_congr fun q1 hq1 => ?_
      rw [feed_newline_word hlex] at hq1
      obtain ⟨p, -, rfl⟩ := Option.map_eq_some_iff.mp hq1
      rw [run_stripSpace rfl, run_cons]
  | string s => rw [hlex] at h; simp [Lexeme.mode, Mode.splits] at h
  | escape s => rw [hlex] at h; simp [Lexeme.mode, Mode.splits] at h
  | unicode s n left => rw [hlex] at h; simp [Lexeme.mode, Mode.splits] at h

/-! ## Inside a token -/

theorem takeValue_takeValue {x : Json} (h : p.takeValue v = some p') : p'.takeValue x = none := by
  unfold Position.takeValue at h
  split at h
  · cases h
    rfl
  · cases h
    rfl
  · cases h

theorem run_rejected (hlex : q.lexeme = .word w) (h : ∀ v, q.position.takeValue v = none) :
    (run number q text).bind (finish number) = none := by
  have hnone : ∀ w, takeWord number w q.position = none := by
    intro w
    unfold takeWord
    cases wordValue number w with
    | none => rfl
    | some v => exact h v
  induction text generalizing q w with
  | nil =>
      have hfinish : finish number q = (takeWord number w q.position).bind Position.result := by
        unfold finish
        rw [hlex]
      rw [hnone] at hfinish
      exact hfinish
  | cons c text ih =>
      rw [run_cons]
      unfold feed
      rw [hlex]
      by_cases hc : isDelimiter c = true
      · simp only [if_pos hc, hnone]
        rfl
      · simp only [if_neg hc, Option.bind_some]
        exact ih rfl h hnone

theorem run_split (h : q.lexeme.mode.splits t = true) :
    ((feed number q (unit '\n')).bind fun q => run number q (stripSpace t)).bind (finish number) = none := by
  cases hlex : q.lexeme with
  | between => rw [hlex] at h; simp [Lexeme.mode, Mode.splits] at h
  | word w =>
      rw [hlex] at h
      obtain ⟨c, hc, hword⟩ : ∃ c, t.head? = some c ∧ isDelimiter c = false := by
        simpa [Lexeme.mode, Mode.splits, Option.any_eq_true] using h
      obtain ⟨rest, rfl⟩ : ∃ rest, t = c :: rest := by
        cases t with
        | nil => cases hc
        | cons d rest => exact ⟨rest, by rw [Option.some.inj hc]⟩
      have hstrip : stripSpace (c :: rest) = c :: rest := by
        refine if_neg fun hspace => ?_
        obtain rfl := Option.some.inj hspace
        exact absurd hword (by decide)
      rw [hstrip, feed_newline_word hlex]
      cases htake : takeWord number w q.position with
      | none => rfl
      | some p =>
          obtain ⟨v, -, hv⟩ := Option.bind_eq_some_iff.mp htake
          have hfeed : feed number ⟨.between, p⟩ c = some ⟨.word [c], p⟩ := by
            simp only [isDelimiter, Bool.or_eq_false_iff, beq_eq_false_iff_ne, ne_eq] at hword
            simp [feed, feedBetween, hword.1.1, hword.1.2, hword.2]
          rw [Option.map_some, Option.bind_some, run_cons, hfeed, Option.bind_some]
          exact run_rejected rfl fun x => takeValue_takeValue hv
  | string s => rw [feed_newline_string (by simp [hlex, Lexeme.mode])]; rfl
  | escape s => rw [feed_newline_string (by simp [hlex, Lexeme.mode])]; rfl
  | unicode s n left => rw [feed_newline_string (by simp [hlex, Lexeme.mode])]; rfl

/-! ## Pieces -/

/-- No two pieces meet inside a token. -/
def seamless (m : Mode) : List JsString → Bool
  | t :: u :: rest => !(m.after t).splits u && seamless (m.after t) (u :: rest)
  | _ => true

/-- The pieces after the first, each on a line of its own. -/
def onLines (rest : List JsString) : JsString := rest.flatMap fun u => unit '\n' :: stripSpace u

theorem splits_append {m : Mode} (ht : t ≠ []) (rest : JsString) : m.splits (t ++ rest) = m.splits t := by
  obtain ⟨c, t', rfl⟩ := List.exists_cons_of_ne_nil ht
  cases m <;> rfl

theorem stripSpace_append (ht : t ≠ []) (rest : JsString) : stripSpace (t ++ rest) = stripSpace t ++ rest := by
  obtain ⟨c, t', rfl⟩ := List.exists_cons_of_ne_nil ht
  unfold stripSpace
  by_cases hc : c = unit ' '
  · simp [hc]
  · simp [hc]

theorem run_onLines {rest : List JsString} (hrest : ∀ u ∈ rest, u ≠ []) (h : seamless q.lexeme.mode (t :: rest) = true) :
    run number q (t ++ onLines rest) = run number q (t ++ rest.flatten) := by
  induction rest generalizing q t with
  | nil => rfl
  | cons u rest ih =>
      obtain ⟨hu, hrest⟩ := List.forall_mem_cons.mp hrest
      simp only [seamless, Bool.and_eq_true, Bool.not_eq_true'] at h
      rw [run_append, run_append]
      refine Option.bind_congr fun q1 hq1 => ?_
      rw [← run_mode hq1] at h
      have hlines : onLines (u :: rest) = unit '\n' :: stripSpace (u ++ onLines rest) := by
        rw [stripSpace_append hu]
        rfl
      rw [hlines, run_cons, run_seam (by simp [hu]) (by rw [splits_append hu]; exact h.1), List.flatten_cons]
      exact ih hrest h.2

theorem run_onLines_split {rest : List JsString} (hrest : ∀ u ∈ rest, u ≠ [])
    (h : seamless q.lexeme.mode (t :: rest) = false) :
    (run number q (t ++ onLines rest ++ text)).bind (finish number) = none := by
  induction rest generalizing q t with
  | nil => cases h
  | cons u rest ih =>
      obtain ⟨hu, hrest⟩ := List.forall_mem_cons.mp hrest
      rw [List.append_assoc, run_append]
      cases hrun : run number q t with
      | none => rfl
      | some q1 =>
          simp only [seamless, Bool.and_eq_false_iff, Bool.not_eq_false'] at h
          rw [← run_mode hrun] at h
          have hlines : onLines (u :: rest) ++ text = unit '\n' :: stripSpace (u ++ (onLines rest ++ text)) := by
            rw [stripSpace_append hu]
            simp [onLines]
          rw [Option.bind_some, hlines, run_cons]
          cases hsplits : q1.lexeme.mode.splits u with
          | true => exact run_split (by rw [splits_append hu]; exact hsplits)
          | false =>
              rw [run_seam (by simp [hu]) (by rw [splits_append hu]; exact hsplits), ← List.append_assoc]
              exact ih hrest (h.resolve_left (by simp [hsplits]))

end WrongStack.Lib.JsonParse
