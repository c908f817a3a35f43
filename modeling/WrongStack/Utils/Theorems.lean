import WrongStack.Utils.Path

/-!
# The language of globs

`Along` splits an input along a pattern, for given sets of strings that `**` and `**/` may cover. The
documented language and the compiled expression differ in these sets only.
-/

namespace WrongStack.Utils

open Lib Regex

/-! ## Splitting along a pattern -/

def isWildcard (c : CodeUnit) : Bool := c == unit '*' || c == unit '?'

/-- The input is split along the pattern, `**` covering a string of `A` and `**/` one of `B`. -/
inductive Along (A B : JsString → Prop) : JsString → JsString → Prop
  | nil : Along A B [] []
  | lit {c p s} : isWildcard c = false → Along A B p s → Along A B (c :: p) (c :: s)
  | one {c p s} : c ≠ unit '/' → Along A B p s → Along A B (unit '?' :: p) (c :: s)
  | many {w p s} : p.head? ≠ some (unit '*') → unit '/' ∉ w → Along A B p s →
      Along A B (unit '*' :: p) (w ++ s)
  | all {w p s} : p.head? ≠ some (unit '/') → A w → Along A B p s →
      Along A B (unit '*' :: unit '*' :: p) (w ++ s)
  | allSlash {w p s} : B w → Along A B p s →
      Along A B (unit '*' :: unit '*' :: unit '/' :: p) (w ++ s)

/-- `**` matches any string, and `**/` the empty one or one that ends in `/`. -/
def Documented : JsString → JsString → Prop :=
  Along (fun _ => True) fun w => w = [] ∨ w.getLast? = some (unit '/')

def OneLine (w : JsString) : Prop := ∀ c ∈ w, isLineTerminator c = false

/-- How a pattern goes on. -/
inductive Shape : JsString → Prop
  | nil : Shape []
  | lit {c p} : isWildcard c = false → Shape p → Shape (c :: p)
  | one {p} : Shape p → Shape (unit '?' :: p)
  | many {p} : p.head? ≠ some (unit '*') → Shape p → Shape (unit '*' :: p)
  | all {p} : p.head? ≠ some (unit '/') → Shape p → Shape (unit '*' :: unit '*' :: p)
  | allSlash {p} : Shape p → Shape (unit '*' :: unit '*' :: unit '/' :: p)

theorem shape (pattern : JsString) : Shape pattern := by
  induction hn : pattern.length using Nat.strong_induction_on generalizing pattern with
  | _ n ih =>
      subst hn
      cases pattern with
      | nil => exact .nil
      | cons c p =>
          by_cases hstar : c = unit '*'
          · subst hstar
            by_cases hnext : p.head? = some (unit '*')
            · obtain ⟨p, rfl⟩ := List.head?_eq_some_iff.mp hnext
              by_cases hslash : p.head? = some (unit '/')
              · obtain ⟨p, rfl⟩ := List.head?_eq_some_iff.mp hslash
                exact .allSlash (ih p.length (by simp only [List.length_cons]; omega) p rfl)
              · exact .all hslash (ih p.length (by simp only [List.length_cons]; omega) p rfl)
            · exact .many hnext (ih p.length (by simp) p rfl)
          · by_cases hone : c = unit '?'
            · subst hone
              exact .one (ih p.length (by simp) p rfl)
            · exact .lit (by simp [isWildcard, hstar, hone]) (ih p.length (by simp) p rfl)

theorem along_nil {A B : JsString → Prop} {s : JsString} (h : Along A B [] s) : s = [] := by
  cases h
  rfl

theorem Along.of_lit {A B : JsString → Prop} {c : CodeUnit} {p s : JsString} (h : Along A B (c :: p) s)
    (hc : isWildcard c = false) : ∃ t, s = c :: t ∧ Along A B p t := by
  generalize hp : c :: p = pattern at h
  cases h with
  | nil => cases hp
  | lit _ h =>
      cases hp
      exact ⟨_, rfl, h⟩
  | _ =>
      obtain ⟨rfl, -⟩ := List.cons.inj hp
      exact absurd hc (by decide)

theorem Along.of_allSlash {A B : JsString → Prop} {p s : JsString}
    (h : Along A B (unit '*' :: unit '*' :: unit '/' :: p) s) :
    ∃ w t, s = w ++ t ∧ B w ∧ Along A B p t := by
  generalize hp : unit '*' :: unit '*' :: unit '/' :: p = pattern at h
  cases h with
  | nil => cases hp
  | lit hc _ =>
      obtain ⟨rfl, -⟩ := List.cons.inj hp
      exact absurd hc (by decide)
  | one _ _ =>
      obtain ⟨he, -⟩ := List.cons.inj hp
      exact absurd he (by decide)
  | many hnext _ _ =>
      obtain ⟨-, rfl⟩ := List.cons.inj hp
      exact absurd rfl hnext
  | all hnext _ _ =>
      obtain ⟨-, -, rfl⟩ := hp
      exact absurd rfl hnext
  | allSlash hw h =>
      cases hp
      exact ⟨_, _, rfl, hw, h⟩

/-! ## What a pattern compiles to -/

section GlobParts

variable {fuel : Nat} {c : CodeUnit} {p s : JsString} {prev : Option CodeUnit}

theorem globParts_nil : globParts fuel [] = some [] := by
  cases fuel <;> rfl

theorem globParts_lit (hc : isWildcard c = false) (hopen : c ≠ unit '[') :
    globParts (fuel + 1) (c :: p) = (globParts fuel p).map (oneOf (· == c) :: ·) := by
  simp only [isWildcard, Bool.or_eq_false_iff, beq_eq_false_iff_ne, ne_eq] at hc
  rw [globParts, if_neg hc.1, if_neg hc.2, if_neg hopen]

theorem globParts_one :
    globParts (fuel + 1) (unit '?' :: p) = (globParts fuel p).map (oneOf (· != unit '/') :: ·) := by
  rw [globParts, if_neg (by decide), if_pos rfl]

theorem globParts_many (hp : p.head? ≠ some (unit '*')) : globParts (fuel + 1) (unit '*' :: p) =
    (globParts fuel p).map (star (oneOf (· != unit '/')) :: ·) := by
  rw [globParts, if_pos rfl, if_neg hp]

theorem globParts_all (hp : p.head? ≠ some (unit '/')) :
    globParts (fuel + 1) (unit '*' :: unit '*' :: p) =
      (globParts fuel p).map (star (oneOf fun c => !isLineTerminator c) :: ·) := by
  rw [globParts, if_pos rfl]
  simp only [List.head?_cons, List.tail_cons, ↓reduceIte, hp]

theorem globParts_allSlash : globParts (fuel + 1) (unit '*' :: unit '*' :: unit '/' :: p) =
    (globParts fuel p).map (star (oneOf fun c => !isLineTerminator c) :: ·) := by
  rw [globParts, if_pos rfl]
  simp only [List.head?_cons, List.tail_cons, ↓reduceIte]

/-- The documented patterns: without classes and escapes. -/
def Plain (pattern : JsString) : Prop := ∀ c ∈ pattern, (js "[]\\").contains c = false

theorem plain_of_all (h : (p.all fun c => !(js "[]\\").contains c) = true) : Plain p := fun c hc => by
  simpa using List.all_eq_true.mp h c hc

theorem Plain.ne_open (h : Plain (c :: p)) : c ≠ unit '[' := by
  rintro rfl
  exact absurd (h _ List.mem_cons_self) (by decide)

theorem Plain.of_suffix {q : JsString} (h : Plain p) (hsuffix : q <:+ p) : Plain q :=
  fun c hc => h c (hsuffix.subset hc)

theorem noSlash_iff {w : JsString} : (∀ c ∈ w, (c != unit '/') = true) ↔ unit '/' ∉ w := by
  constructor
  · intro h hw
    simpa using h _ hw
  · intro h c hc
    exact bne_iff_ne.mpr fun he => h (he ▸ hc)

theorem oneLine_iff {w : JsString} : (∀ c ∈ w, (!isLineTerminator c) = true) ↔ OneLine w := by
  simp [OneLine]

theorem Shape.along_of_anchored (h : Shape p) (hplain : Plain p) (hfuel : p.length ≤ fuel) :
    ∃ parts, globParts fuel p = some parts ∧
      ∀ prev s, Anchored parts ⟨prev, s⟩ → Along OneLine OneLine p s := by
  induction h generalizing fuel with
  | nil =>
      refine ⟨[], globParts_nil, fun prev s hs => ?_⟩
      obtain rfl : s = [] := anchored_nil.mp hs
      exact .nil
  | @lit c p hc _ ih =>
      obtain ⟨n, rfl⟩ := Nat.exists_eq_add_one_of_ne_zero (by simp at hfuel; omega : fuel ≠ 0)
      obtain ⟨parts, hparts, halong⟩ := ih (hplain.of_suffix (List.suffix_cons _ _)) (by simpa using hfuel)
      refine ⟨_, by rw [globParts_lit hc hplain.ne_open, hparts, Option.map_some], fun prev s hs => ?_⟩
      obtain ⟨x, t, rfl, hx, ht⟩ := anchored_oneOf.mp hs
      obtain rfl := eq_of_beq hx
      exact .lit hc (halong _ _ ht)
  | @one p _ ih =>
      obtain ⟨n, rfl⟩ := Nat.exists_eq_add_one_of_ne_zero (by simp at hfuel; omega : fuel ≠ 0)
      obtain ⟨parts, hparts, halong⟩ := ih (hplain.of_suffix (List.suffix_cons _ _)) (by simpa using hfuel)
      refine ⟨_, by rw [globParts_one, hparts, Option.map_some], fun prev s hs => ?_⟩
      obtain ⟨x, t, rfl, hx, ht⟩ := anchored_oneOf.mp hs
      exact .one (by simpa using hx) (halong _ _ ht)
  | @many p hnext _ ih =>
      obtain ⟨n, rfl⟩ := Nat.exists_eq_add_one_of_ne_zero (by simp at hfuel; omega : fuel ≠ 0)
      obtain ⟨parts, hparts, halong⟩ := ih (hplain.of_suffix (List.suffix_cons _ _)) (by simpa using hfuel)
      refine ⟨_, by rw [globParts_many hnext, hparts, Option.map_some], fun prev s hs => ?_⟩
      obtain ⟨w, t, rfl, hw, ht⟩ := anchored_star.mp hs
      exact .many hnext (noSlash_iff.mp hw) (halong _ _ ht)
  | @all p hnext _ ih =>
      obtain ⟨n, rfl⟩ := Nat.exists_eq_add_one_of_ne_zero (by simp at hfuel; omega : fuel ≠ 0)
      obtain ⟨parts, hparts, halong⟩ := @ih n (hplain.of_suffix ⟨[_, _], rfl⟩) (by simp at hfuel; omega)
      refine ⟨_, by rw [globParts_all hnext, hparts, Option.map_some], fun prev s hs => ?_⟩
      obtain ⟨w, t, rfl, hw, ht⟩ := anchored_star.mp hs
      exact .all hnext (oneLine_iff.mp hw) (halong _ _ ht)
  | @allSlash p _ ih =>
      obtain ⟨n, rfl⟩ := Nat.exists_eq_add_one_of_ne_zero (by simp at hfuel; omega : fuel ≠ 0)
      obtain ⟨parts, hparts, halong⟩ := @ih n (hplain.of_suffix ⟨[_, _, _], rfl⟩) (by simp at hfuel; omega)
      refine ⟨_, by rw [globParts_allSlash, hparts, Option.map_some], fun prev s hs => ?_⟩
      obtain ⟨w, t, rfl, hw, ht⟩ := anchored_star.mp hs
      exact .allSlash (oneLine_iff.mp hw) (halong _ _ ht)

theorem Along.anchored (h : Along OneLine OneLine p s) (hplain : Plain p) (hfuel : p.length ≤ fuel) :
    ∃ parts, globParts fuel p = some parts ∧ ∀ prev, Anchored parts ⟨prev, s⟩ := by
  induction h generalizing fuel with
  | nil => exact ⟨[], globParts_nil, fun prev => anchored_nil.mpr rfl⟩
  | @lit c p s hc _ ih =>
      obtain ⟨n, rfl⟩ := Nat.exists_eq_add_one_of_ne_zero (by simp at hfuel; omega : fuel ≠ 0)
      obtain ⟨parts, hparts, hs⟩ := ih (hplain.of_suffix (List.suffix_cons _ _)) (by simpa using hfuel)
      refine ⟨_, by rw [globParts_lit hc hplain.ne_open, hparts, Option.map_some], fun prev => ?_⟩
      exact anchored_oneOf.mpr ⟨c, s, rfl, beq_self_eq_true c, hs _⟩
  | @one c p s hc _ ih =>
      obtain ⟨n, rfl⟩ := Nat.exists_eq_add_one_of_ne_zero (by simp at hfuel; omega : fuel ≠ 0)
      obtain ⟨parts, hparts, hs⟩ := ih (hplain.of_suffix (List.suffix_cons _ _)) (by simpa using hfuel)
      refine ⟨_, by rw [globParts_one, hparts, Option.map_some], fun prev => ?_⟩
      exact anchored_oneOf.mpr ⟨c, s, rfl, bne_iff_ne.mpr hc, hs _⟩
  | @many w p s hnext hw _ ih =>
      obtain ⟨n, rfl⟩ := Nat.exists_eq_add_one_of_ne_zero (by simp at hfuel; omega : fuel ≠ 0)
      obtain ⟨parts, hparts, hs⟩ := ih (hplain.of_suffix (List.suffix_cons _ _)) (by simpa using hfuel)
      refine ⟨_, by rw [globParts_many hnext, hparts, Option.map_some], fun prev => ?_⟩
      exact anchored_star.mpr ⟨w, s, rfl, noSlash_iff.mpr hw, hs _⟩
  | @all w p s hnext hw _ ih =>
      obtain ⟨n, rfl⟩ := Nat.exists_eq_add_one_of_ne_zero (by simp at hfuel; omega : fuel ≠ 0)
      obtain ⟨parts, hparts, hs⟩ := @ih n (hplain.of_suffix ⟨[_, _], rfl⟩) (by simp at hfuel; omega)
      refine ⟨_, by rw [globParts_all hnext, hparts, Option.map_some], fun prev => ?_⟩
      exact anchored_star.mpr ⟨w, s, rfl, oneLine_iff.mpr hw, hs _⟩
  | @allSlash w p s hw _ ih =>
      obtain ⟨n, rfl⟩ := Nat.exists_eq_add_one_of_ne_zero (by simp at hfuel; omega : fuel ≠ 0)
      obtain ⟨parts, hparts, hs⟩ := @ih n (hplain.of_suffix ⟨[_, _, _], rfl⟩) (by simp at hfuel; omega)
      refine ⟨_, by rw [globParts_allSlash, hparts, Option.map_some], fun prev => ?_⟩
      exact anchored_star.mpr ⟨w, s, rfl, oneLine_iff.mpr hw, hs _⟩

/-- The language of the code: `**` and `**/` stay within a line, and `**/` may end anywhere. -/
theorem matchGlob_iff (hplain : Plain p) (hlen : p.length ≤ MAX_GLOB_PATTERN_LEN) :
    matchGlob p s = true ↔ Along OneLine OneLine p s := by
  obtain ⟨parts, hparts, halong⟩ := (shape p).along_of_anchored hplain (Nat.le_refl _)
  have hcompiled : compileGlob p = some (concat (start :: parts ++ [stop])) := by
    rw [compileGlob, if_neg (Nat.not_lt.mpr hlen), hparts, Option.map_some]
  rw [matchGlob, hcompiled]
  simp only
  rw [test_anchored]
  constructor
  · exact halong none s
  · intro h
    obtain ⟨parts', hparts', hs⟩ := h.anchored hplain (Nat.le_refl _)
    rw [hparts] at hparts'
    cases hparts'
    exact hs none

end GlobParts

/-! ## Patterns with a double star -/

def hasDoubleStar (pattern : JsString) : Prop := [unit '*', unit '*'] <:+: pattern

theorem hasDoubleStar.cons {p : JsString} (h : hasDoubleStar p) (c : CodeUnit) : hasDoubleStar (c :: p) :=
  h.trans (List.suffix_cons c p).isInfix

/-- Without a double star the two sets do not matter. -/
theorem Along.change {A B A' B' : JsString → Prop} {p s : JsString} (h : Along A B p s)
    (hno : ¬ hasDoubleStar p) : Along A' B' p s := by
  induction h with
  | nil => exact .nil
  | lit hc _ ih => exact .lit hc (ih fun hd => hno (hd.cons _))
  | one hc _ ih => exact .one hc (ih fun hd => hno (hd.cons _))
  | many hnext hw _ ih => exact .many hnext hw (ih fun hd => hno (hd.cons _))
  | all => exact absurd ⟨[], _, rfl⟩ hno
  | allSlash => exact absurd ⟨[], _, rfl⟩ hno

/-- How often a line break stands before a slash. -/
def breaks : JsString → Nat
  | [] => 0
  | c :: cs => (if c = unit '\n' ∧ cs.head? = some (unit '/') then 1 else 0) + breaks cs

theorem breaks_append_le (v w : JsString) : breaks (v ++ w) ≤ breaks v + breaks w + 1 := by
  induction v with
  | nil => simp [breaks]
  | cons c v ih =>
      rw [List.cons_append, breaks, breaks]
      cases v with
      | nil =>
          rw [List.nil_append]
          simp only [breaks]
          split <;> omega
      | cons x v =>
          rw [show (x :: v ++ w).head? = (x :: v).head? from rfl]
          omega

theorem le_breaks_append (v w : JsString) : breaks w ≤ breaks (v ++ w) := by
  induction v with
  | nil => exact Nat.le_refl _
  | cons c v ih => exact Nat.le_trans ih (Nat.le_add_left _ _)

theorem breaks_of_no_slash {w : JsString} (h : unit '/' ∉ w) : breaks w = 0 := by
  induction w with
  | nil => rfl
  | cons c w ih =>
      have hw : unit '/' ∉ w := fun hm => h (List.mem_cons_of_mem c hm)
      have hhead : w.head? ≠ some (unit '/') := fun hh => hw (List.mem_of_mem_head? hh)
      rw [breaks, ih hw, if_neg fun hc => hhead hc.2]

theorem breaks_of_oneLine {w : JsString} (h : OneLine w) : breaks w = 0 := by
  induction w with
  | nil => rfl
  | cons c w ih =>
      obtain ⟨hc, hw⟩ := List.forall_mem_cons.mp h
      have hne : c ≠ unit '\n' := by
        rintro rfl
        exact absurd hc (by decide)
      rw [breaks, ih hw, if_neg fun hc => hne hc.1]

/-- Within a line, no part of the pattern covers a line break before a slash. -/
theorem Along.breaks_le {p s : JsString} (h : Along OneLine OneLine p s) : breaks s ≤ p.length := by
  have hpart : ∀ w s : JsString, breaks w = 0 → breaks (w ++ s) ≤ breaks s + 1 := fun w s hw => by
    have := breaks_append_le w s
    omega
  have hone : ∀ c : CodeUnit, breaks [c] = 0 := fun c => by simp [breaks]
  induction h with
  | nil => exact Nat.le_refl _
  | @lit c p s _ _ ih => exact Nat.le_trans (hpart [c] s (hone c)) (Nat.succ_le_succ ih)
  | @one c p s _ _ ih => exact Nat.le_trans (hpart [c] s (hone c)) (Nat.succ_le_succ ih)
  | @many w p s _ hw _ ih => exact Nat.le_trans (hpart w s (breaks_of_no_slash hw)) (Nat.succ_le_succ ih)
  | @all w p s _ hw _ ih =>
      have := hpart w s (breaks_of_oneLine hw)
      simp only [List.length_cons]
      omega
  | @allSlash w p s hw _ ih =>
      have := hpart w s (breaks_of_oneLine hw)
      simp only [List.length_cons]
      omega

def brokenLines (n : Nat) : JsString := (List.replicate n [unit '\n', unit '/']).flatten

theorem le_breaks_brokenLines (n : Nat) (s : JsString) : n ≤ breaks (brokenLines n ++ s) := by
  induction n with
  | zero => exact Nat.zero_le _
  | succ n ih =>
      have hcons : brokenLines (n + 1) ++ s = unit '\n' :: unit '/' :: (brokenLines n ++ s) := by
        simp [brokenLines, List.replicate_succ]
      rw [hcons, breaks, breaks, if_pos ⟨rfl, rfl⟩]
      omega

theorem brokenLines_ends (n : Nat) :
    brokenLines n = [] ∨ (brokenLines n).getLast? = some (unit '/') := by
  cases n with
  | zero => exact Or.inl rfl
  | succ n => exact Or.inr (by simp [brokenLines, List.replicate_succ', List.flatten_append])

/-- Every pattern has an input, and one with a double star has inputs with any number of broken lines. -/
theorem Shape.exists_documented {p : JsString} (h : Shape p) (n : Nat) :
    ∃ s, Documented p s ∧ (hasDoubleStar p → n ≤ breaks s) := by
  have hnot : ∀ {c : CodeUnit} {p : JsString}, (c = unit '*' → p.head? ≠ some (unit '*')) →
      hasDoubleStar (c :: p) → hasDoubleStar p := by
    rintro c p hc ⟨before, after, he⟩
    cases before with
    | nil =>
        obtain ⟨rfl, rfl⟩ := List.cons.inj he
        exact absurd rfl (hc rfl)
    | cons x before =>
        obtain ⟨-, rfl⟩ := List.cons.inj he
        exact ⟨before, after, rfl⟩
  induction h with
  | nil => exact ⟨[], .nil, fun hd => absurd (List.infix_nil.mp hd) (List.cons_ne_nil _ _)⟩
  | @lit c p hc _ ih =>
      obtain ⟨s, hs, hd⟩ := ih
      refine ⟨c :: s, .lit hc hs, fun h => Nat.le_trans (hd (hnot ?_ h)) (le_breaks_append [c] s)⟩
      rintro rfl
      exact absurd hc (by decide)
  | @one p _ ih =>
      obtain ⟨s, hs, hd⟩ := ih
      refine ⟨unit 'a' :: s, .one (by decide) hs, fun h => ?_⟩
      exact Nat.le_trans (hd (hnot (fun he => absurd he (by decide)) h)) (le_breaks_append [unit 'a'] s)
  | @many p hnext _ ih =>
      obtain ⟨s, hs, hd⟩ := ih
      exact ⟨s, .many hnext List.not_mem_nil hs, fun h => hd (hnot (fun _ => hnext) h)⟩
  | @all p hnext _ ih =>
      obtain ⟨s, hs, -⟩ := ih
      exact ⟨brokenLines n ++ s, .all hnext trivial hs, fun _ => le_breaks_brokenLines n s⟩
  | @allSlash p _ ih =>
      obtain ⟨s, hs, -⟩ := ih
      exact ⟨brokenLines n ++ s, .allSlash (brokenLines_ends n) hs, fun _ => le_breaks_brokenLines n s⟩

end WrongStack.Utils

/-!
# What globs match
-/

namespace WrongStack.Utils

open Lib

/-- A glob matches what can be split along it as documented, but `**` and `**/` end at a line terminator
and what `**/` covers may end anywhere. So it is right about an input exactly if the two ways to split
agree on it, and about all inputs exactly if it has no double star. -/
theorem matchGlob_documented (pattern : JsString) (hplain : Plain pattern)
    (hlen : pattern.length ≤ MAX_GLOB_PATTERN_LEN) :
    (∀ input, (matchGlob pattern input = true ↔ Documented pattern input) ↔
        (Along OneLine OneLine pattern input ↔ Documented pattern input)) ∧
      ((∀ input, matchGlob pattern input = true ↔ Documented pattern input) ↔ ¬ hasDoubleStar pattern) := by
  have hcode : ∀ input, matchGlob pattern input = true ↔ Along OneLine OneLine pattern input :=
    fun input => matchGlob_iff hplain hlen
  refine ⟨fun input => by rw [hcode], fun hright hdouble => ?_, fun hno input => ?_⟩
  · -- more broken lines than the pattern has parts
    obtain ⟨input, hinput, hbreaks⟩ := (shape pattern).exists_documented (pattern.length + 1)
    have hle := ((hcode input).mp ((hright input).mpr hinput)).breaks_le
    have hlt := hbreaks hdouble
    omega
  · rw [hcode]
    exact ⟨fun h => h.change hno, fun h => h.change hno⟩

theorem matchGlob_documented_star : matchGlob (js "src/*.t?") (js "src/a.ts") = true ↔
    Documented (js "src/*.t?") (js "src/a.ts") :=
  (matchGlob_documented (js "src/*.t?") (plain_of_all (by decide)) (by decide +kernel)).2.mpr
    (by unfold hasDoubleStar; decide +kernel) (js "src/a.ts")

/-- A line break under `**`, and a name that only ends like the file. -/
theorem double_star_undocumented :
    (matchGlob (js "**") (js "\n") = false ∧ Documented (js "**") (js "\n")) ∧
      matchGlob (js "**/x") (js "ax") = true ∧ ¬ Documented (js "**/x") (js "ax") := by
  have hall : js "**" = [unit '*', unit '*'] := by decide
  have hslash : js "**/x" = [unit '*', unit '*', unit '/', unit 'x'] := by decide
  have hinput : js "ax" = [unit 'a', unit 'x'] := by decide
  refine ⟨⟨by decide +kernel, ?_⟩, by decide +kernel, ?_⟩
  · rw [hall]
    exact .all (w := js "\n") (s := []) (by decide) trivial .nil
  · rw [hslash, hinput]
    intro h
    obtain ⟨w, s, hsplit, hw, hs⟩ := h.of_allSlash
    obtain ⟨t, rfl, ht⟩ := hs.of_lit (by decide)
    obtain rfl := along_nil ht
    have hsame : [unit 'a'] ++ [unit 'x'] = w ++ [unit 'x'] := hsplit
    obtain rfl := List.append_cancel_right hsame
    exact absurd hw (by decide)

end WrongStack.Utils
