import WrongStack.Lib.JsString

/-!
# Regular expressions of JavaScript

The expressions without captures and without the flags `m`, `s` and `u`. `ends` lists the places
where a match that starts at a given place can end, in the order in which a backtracking engine
tries them: the first one is the match. `test` asks for a match anywhere, `matchAll` lists the
matches from left to right.
-/

namespace WrongStack.Lib

inductive Regex
  /-- one code unit of a class -/
  | oneOf (p : CodeUnit → Bool)
  | empty
  | seq (r s : Regex)
  | alt (r s : Regex)
  | star (r : Regex)
  /-- `\b` -/
  | wordBoundary
  /-- `^` -/
  | start
  /-- `$` -/
  | stop

namespace Regex

/-- A place in a string: the code unit before it and what comes after it. -/
structure Place where
  prev : Option CodeUnit := none
  rest : JsString

/-- Zero or more matches of `f`, as many as possible first, each of which takes something off the
rest. -/
def starEnds (f : Place → List Place) : Nat → Place → List Place
  | 0, p => [p]
  | fuel + 1, p =>
      ((f p).filter fun q => q.rest.length < p.rest.length).flatMap (starEnds f fuel) ++ [p]

def ends : Regex → Place → List Place
  | oneOf p, ⟨_, c :: cs⟩ => if p c then [⟨some c, cs⟩] else []
  | oneOf _, ⟨_, []⟩ => []
  | empty, p => [p]
  | seq r s, p => (ends r p).flatMap (ends s)
  | alt r s, p => ends r p ++ ends s p
  | star r, p => starEnds (ends r) p.rest.length p
  | wordBoundary, p => if p.prev.any isWord != p.rest.head?.any isWord then [p] else []
  | start, p => if p.prev.isNone then [p] else []
  | stop, p => if p.rest.isEmpty then [p] else []

def places (prev : Option CodeUnit) : JsString → List Place
  | [] => [⟨prev, []⟩]
  | c :: cs => ⟨prev, c :: cs⟩ :: places (some c) cs

def test (r : Regex) (s : JsString) : Bool := (places none s).any fun p => !(r.ends p).isEmpty

/-- The matches from the place `p` on; every turn takes something off the rest. -/
def matchesFrom (r : Regex) : Nat → Place → List JsString
  | 0, _ => []
  | fuel + 1, p =>
      match r.ends p, p.rest with
      | q :: _, c :: cs =>
          if q.rest.length < p.rest.length then
            p.rest.take (p.rest.length - q.rest.length) :: matchesFrom r fuel q
          else [] :: matchesFrom r fuel ⟨some c, cs⟩
      | _ :: _, [] => [[]]
      | [], c :: cs => matchesFrom r fuel ⟨some c, cs⟩
      | [], [] => []

def matchAll (r : Regex) (s : JsString) : List JsString := matchesFrom r (s.length + 1) ⟨none, s⟩

def replaceFrom (r : Regex) (text : JsString) : Nat → Place → JsString
  | 0, p => p.rest
  | fuel + 1, p =>
      match r.ends p, p.rest with
      | q :: _, c :: cs =>
          if q.rest.length < p.rest.length then text ++ replaceFrom r text fuel q
          else text ++ c :: replaceFrom r text fuel ⟨some c, cs⟩
      | _ :: _, [] => text
      | [], c :: cs => c :: replaceFrom r text fuel ⟨some c, cs⟩
      | [], [] => []

/-- `s.replace(r, text)` with the flag `g`. -/
def replaceAll (r : Regex) (text s : JsString) : JsString := replaceFrom r text (s.length + 1) ⟨none, s⟩

/-- `s.replace(r, text)` without it, from the code unit after `prev` on. -/
def replaceFirst (r : Regex) (text : JsString) (prev : Option CodeUnit) : JsString → JsString
  | [] => if (r.ends ⟨prev, []⟩).isEmpty then [] else text
  | c :: cs =>
      match r.ends ⟨prev, c :: cs⟩ with
      | q :: _ => text ++ q.rest
      | [] => c :: replaceFirst r text (some c) cs

/-! ## Shorthands -/

def char (c : Char) : Regex := oneOf (· == unit c)

def lit (s : String) : Regex := (js s).foldr (fun c r => seq (oneOf (· == c)) r) empty

def concat (rs : List Regex) : Regex := rs.foldr seq empty

def anyOf : List String → Regex
  | [] => oneOf fun _ => false
  | s :: ss => ss.foldl (fun r t => alt r (lit t)) (lit s)

def opt (r : Regex) : Regex := alt r empty

def plus (r : Regex) : Regex := seq r (star r)

def upTo (r : Regex) : Nat → Regex
  | 0 => empty
  | n + 1 => opt (seq r (upTo r n))

def space : Regex := oneOf isSpace

def letter : Regex := oneOf fun c => isUpper c || isLower c

/-- The flag `i`. Without `u`, a code unit outside ASCII never folds to one inside. A class that
leaves letters out is not folded right. -/
def ignoreCase : Regex → Regex
  | oneOf p => oneOf fun c => p c || p (swapCase c)
  | seq r s => seq (ignoreCase r) (ignoreCase s)
  | alt r s => alt (ignoreCase r) (ignoreCase s)
  | star r => star (ignoreCase r)
  | r => r

/-! ## From one end of a string to the other -/

/-- The expressions match in a row from `p` on to the end of the string. -/
def Anchored (rs : List Regex) (p : Place) : Prop := ∃ q, q ∈ (concat (rs ++ [stop])).ends p

section Anchored

variable {p : CodeUnit → Bool} {rs : List Regex} {prev : Option CodeUnit} {s : JsString}

theorem prev_of_mem_places {q : Place} (h : q ∈ places prev s) : q = ⟨prev, s⟩ ∨ q.prev ≠ none := by
  induction s generalizing prev with
  | nil => exact Or.inl (List.mem_singleton.mp h)
  | cons c cs ih =>
      rcases List.mem_cons.mp h with rfl | h
      · exact Or.inl rfl
      · rcases ih h with rfl | hprev
        · exact Or.inr (Option.some_ne_none c)
        · exact Or.inr hprev

theorem mem_places_self (prev : Option CodeUnit) (s : JsString) : ⟨prev, s⟩ ∈ places prev s := by
  cases s <;> exact List.mem_cons_self

theorem test_anchored (rs : List Regex) (s : JsString) :
    (concat (start :: rs ++ [stop])).test s = true ↔ Anchored rs ⟨none, s⟩ := by
  have hends : ∀ q : Place, (concat (start :: rs ++ [stop])).ends q =
      if q.prev.isNone then (concat (rs ++ [stop])).ends q else [] := by
    intro q
    rw [List.cons_append, concat, List.foldr_cons, ends, ends]
    cases q.prev.isNone <;> simp [concat]
  simp only [test, List.any_eq_true, hends, Bool.not_eq_true', List.isEmpty_eq_false_iff_exists_mem]
  constructor
  · rintro ⟨q, hq, x, hx⟩
    rcases prev_of_mem_places hq with rfl | hprev
    · exact ⟨x, hx⟩
    · rw [if_neg (by simpa using hprev)] at hx
      cases hx
  · rintro ⟨x, hx⟩
    exact ⟨_, mem_places_self none s, x, hx⟩

theorem anchored_nil {q : Place} : Anchored [] q ↔ q.rest = [] := by
  unfold Anchored
  simp only [List.nil_append, concat, List.foldr_cons, List.foldr_nil, ends]
  cases q.rest <;> simp

theorem anchored_oneOf : Anchored (oneOf p :: rs) ⟨prev, s⟩ ↔
    ∃ c cs, s = c :: cs ∧ p c = true ∧ Anchored rs ⟨some c, cs⟩ := by
  unfold Anchored
  rw [List.cons_append, concat, List.foldr_cons, ends]
  cases s with
  | nil => simp [ends]
  | cons c cs => cases h : p c <;> simp [ends, h, concat]

/-- As many code units of the class as there are, or fewer. -/
theorem mem_starEnds {q : Place} {n : Nat} (hn : s.length ≤ n) :
    q ∈ starEnds (oneOf p).ends n ⟨prev, s⟩ ↔
      ∃ w rest, s = w ++ rest ∧ (∀ c ∈ w, p c = true) ∧ q = ⟨w.getLast?.or prev, rest⟩ := by
  induction n generalizing prev s with
  | zero =>
      obtain rfl := List.length_eq_zero_iff.mp (Nat.le_zero.mp hn)
      simp [starEnds]
  | succ n ih =>
      rw [starEnds, List.mem_append, List.mem_singleton, List.mem_flatMap]
      constructor
      · rintro (⟨x, hx, hq⟩ | rfl)
        · cases s with
          | nil => simp [ends] at hx
          | cons c cs =>
              cases hc : p c with
              | false => simp [ends, hc] at hx
              | true =>
                  obtain rfl : x = ⟨some c, cs⟩ := by simpa [ends, hc] using hx
                  obtain ⟨w, rest, rfl, hw, rfl⟩ := (ih (Nat.le_of_succ_le_succ hn)).mp hq
                  refine ⟨c :: w, rest, rfl, List.forall_mem_cons.mpr ⟨hc, hw⟩, ?_⟩
                  cases w using List.reverseRecOn <;> simp [List.getLast?_cons]
        · exact ⟨[], s, rfl, List.forall_mem_nil _, rfl⟩
      · rintro ⟨w, rest, rfl, hw, rfl⟩
        cases w with
        | nil => exact Or.inr rfl
        | cons c w =>
            obtain ⟨hc, hw⟩ := List.forall_mem_cons.mp hw
            refine Or.inl ⟨⟨some c, w ++ rest⟩, by simp [ends, hc], ?_⟩
            refine (ih (by simpa using hn)).mpr ⟨w, rest, rfl, hw, ?_⟩
            cases w using List.reverseRecOn <;> simp [List.getLast?_cons]

theorem anchored_star : Anchored (star (oneOf p) :: rs) ⟨prev, s⟩ ↔
    ∃ w rest, s = w ++ rest ∧ (∀ c ∈ w, p c = true) ∧ Anchored rs ⟨w.getLast?.or prev, rest⟩ := by
  unfold Anchored
  rw [List.cons_append, concat, List.foldr_cons, ends, ends]
  simp only [List.mem_flatMap, mem_starEnds (Nat.le_refl _)]
  constructor
  · rintro ⟨x, _, ⟨w, rest, hs, hw, rfl⟩, hx⟩
    exact ⟨w, rest, hs, hw, x, hx⟩
  · rintro ⟨w, rest, hs, hw, x, hx⟩
    exact ⟨x, _, ⟨w, rest, hs, hw, rfl⟩, hx⟩

end Anchored

end Regex

end WrongStack.Lib
