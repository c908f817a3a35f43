import WrongStack.Utils.Theorems

/-!
# Escaped subjects as patterns

A stored subject is read as a glob again. `escapeGlobSubject` puts a backslash before each character that
means something to globs, but `compileGlob` takes the backslash for itself and the character for what it
means.
-/

namespace WrongStack.Utils

open Lib Regex

def isMeta (c : CodeUnit) : Bool := (js "*?[]").contains c

variable {c d s : JsString} {x y : CodeUnit}

/-! ## Escaping -/

@[simp] theorem escape_nil : escapeGlobSubject [] = [] := rfl

theorem escape_cons_lit (hx : isMeta x = false) : escapeGlobSubject (x :: c) = x :: escapeGlobSubject c := by
  unfold isMeta at hx
  simp only [escapeGlobSubject, List.flatMap_cons, hx, Bool.false_eq_true, ↓reduceIte, List.singleton_append]

theorem escape_cons_meta (hx : isMeta x = true) :
    escapeGlobSubject (x :: c) = unit '\\' :: x :: escapeGlobSubject c := by
  unfold isMeta at hx
  simp only [escapeGlobSubject, List.flatMap_cons, hx, ↓reduceIte, List.cons_append, List.nil_append]

theorem escape_append (c d : JsString) :
    escapeGlobSubject (c ++ d) = escapeGlobSubject c ++ escapeGlobSubject d := List.flatMap_append

/-- An escaped subject never starts with a special character. -/
theorem escape_head (h : escapeGlobSubject c = x :: s) : isMeta x = false := by
  cases c with
  | nil => cases h
  | cons y c =>
      cases hy : isMeta y with
      | false =>
          rw [escape_cons_lit hy] at h
          cases h
          exact hy
      | true =>
          rw [escape_cons_meta hy] at h
          cases h
          decide

theorem escape_eq_nil (h : escapeGlobSubject c = []) : c = [] := by
  cases c with
  | nil => rfl
  | cons y c =>
      cases hy : isMeta y with
      | false =>
          rw [escape_cons_lit hy] at h
          cases h
      | true =>
          rw [escape_cons_meta hy] at h
          cases h

/-- Every special character has its backslash right before it, and no other backslash was put in. -/
theorem escape_injective (h : escapeGlobSubject c = escapeGlobSubject d) : c = d := by
  induction c generalizing d with
  | nil => exact (escape_eq_nil h.symm).symm
  | cons x c ih =>
      cases d with
      | nil => exact escape_eq_nil h
      | cons y d =>
          cases hx : isMeta x with
          | false =>
              rw [escape_cons_lit hx] at h
              cases hy : isMeta y with
              | false =>
                  rw [escape_cons_lit hy] at h
                  obtain ⟨rfl, hrest⟩ := List.cons.inj h
                  rw [ih hrest]
              | true =>
                  rw [escape_cons_meta hy] at h
                  rw [escape_head (List.cons.inj h).2] at hy
                  cases hy
          | true =>
              rw [escape_cons_meta hx] at h
              cases hy : isMeta y with
              | false =>
                  rw [escape_cons_lit hy] at h
                  rw [escape_head (List.cons.inj h).2.symm] at hx
                  cases hx
              | true =>
                  rw [escape_cons_meta hy] at h
                  obtain ⟨rfl, hrest⟩ := List.cons.inj (List.cons.inj h).2
                  rw [ih hrest]

/-! ## Classes -/

/-- The class that a bracket opens: the escaped text up to the next closing bracket, and what comes after
it. -/
structure Bracket where
  negated : Bool
  body : JsString
  after : JsString

/-- `c` is what follows the bracket. -/
def bracket (c : JsString) : Bracket :=
  let negated := c.head? = some (unit '!') || c.head? = some (unit '^')
  let c := if negated then c.tail else c
  { negated
    body := escapeGlobSubject (c.takeWhile (· != unit ']')) ++ if unit ']' ∈ c then [unit '\\'] else []
    after := (c.dropWhile (· != unit ']')).tail }

/-- The class compiles, and `x` is in it. -/
def Bracket.Accepts (b : Bracket) (x : CodeUnit) : Prop :=
  ∃ p, classMembers b.body = some p ∧ (b.negated != p x) = true

theorem escape_takeWhile (c : JsString) : (escapeGlobSubject c).takeWhile (· != unit ']') =
    escapeGlobSubject (c.takeWhile (· != unit ']')) ++ if unit ']' ∈ c then [unit '\\'] else [] := by
  induction c with
  | nil => rfl
  | cons x c ih =>
      by_cases hclose : x = unit ']'
      · subst hclose
        rw [escape_cons_meta (by decide), List.takeWhile_cons_of_pos (by decide),
          List.takeWhile_cons_of_neg (by decide), List.takeWhile_cons_of_neg (by decide),
          if_pos List.mem_cons_self]
        rfl
      · have hne : (x != unit ']') = true := bne_iff_ne.mpr hclose
        have hmem : unit ']' ∈ x :: c ↔ unit ']' ∈ c := by simp [Ne.symm hclose]
        rw [List.takeWhile_cons_of_pos (p := fun x => x != unit ']') hne]
        simp only [hmem]
        cases hx : isMeta x with
        | false =>
            rw [escape_cons_lit hx, escape_cons_lit hx,
              List.takeWhile_cons_of_pos (p := fun x => x != unit ']') hne, ih, List.cons_append]
        | true =>
            rw [escape_cons_meta hx, escape_cons_meta hx, List.takeWhile_cons_of_pos (by decide),
              List.takeWhile_cons_of_pos (p := fun x => x != unit ']') hne, ih, List.cons_append,
              List.cons_append]

theorem escape_dropWhile (c : JsString) : ((escapeGlobSubject c).dropWhile (· != unit ']')).tail =
    escapeGlobSubject (c.dropWhile (· != unit ']')).tail := by
  induction c with
  | nil => rfl
  | cons x c ih =>
      by_cases hclose : x = unit ']'
      · subst hclose
        rw [escape_cons_meta (by decide), List.dropWhile_cons_of_pos (by decide),
          List.dropWhile_cons_of_neg (by decide), List.dropWhile_cons_of_neg (by decide)]
        rfl
      · have hne : (x != unit ']') = true := bne_iff_ne.mpr hclose
        rw [List.dropWhile_cons_of_pos (p := fun x => x != unit ']') hne]
        cases hx : isMeta x with
        | false => rw [escape_cons_lit hx, List.dropWhile_cons_of_pos (p := fun x => x != unit ']') hne, ih]
        | true =>
            rw [escape_cons_meta hx, List.dropWhile_cons_of_pos (by decide),
              List.dropWhile_cons_of_pos (p := fun x => x != unit ']') hne, ih]

theorem escape_head?_eq (hx : isMeta x = false) (hslash : x ≠ unit '\\') :
    (escapeGlobSubject c).head? = some x ↔ c.head? = some x := by
  cases c with
  | nil => rfl
  | cons y c =>
      cases hy : isMeta y with
      | false => rw [escape_cons_lit hy, List.head?_cons, List.head?_cons]
      | true =>
          rw [escape_cons_meta hy, List.head?_cons, List.head?_cons]
          constructor
          · intro h
            exact absurd (Option.some.inj h).symm hslash
          · intro h
            rw [Option.some.inj h, hx] at hy
            cases hy

theorem escape_tail (h : ∀ y ∈ c.head?, isMeta y = false) :
    (escapeGlobSubject c).tail = escapeGlobSubject c.tail := by
  cases c with
  | nil => rfl
  | cons y c => rw [escape_cons_lit (h y rfl), List.tail_cons, List.tail_cons]

theorem globParts_bracket {fuel : Nat} : globParts (fuel + 1) (unit '[' :: escapeGlobSubject c) =
    (classMembers (bracket c).body).bind fun p =>
      (globParts fuel (escapeGlobSubject (bracket c).after)).map
        (oneOf (fun x => (bracket c).negated != p x) :: ·) := by
  rw [globParts, if_neg (by decide), if_neg (by decide), if_pos rfl]
  have hnegated : (decide ((escapeGlobSubject c).head? = some (unit '!')) ||
      decide ((escapeGlobSubject c).head? = some (unit '^'))) = (bracket c).negated := by
    simp only [bracket, escape_head?_eq (x := unit '!') (by decide) (by decide),
      escape_head?_eq (x := unit '^') (by decide) (by decide)]
  have htail : (if (bracket c).negated then (escapeGlobSubject c).tail else escapeGlobSubject c) =
      escapeGlobSubject (if (bracket c).negated then c.tail else c) := by
    split
    · rename_i h
      refine escape_tail fun y hy => ?_
      simp only [bracket, Bool.or_eq_true, decide_eq_true_eq] at h
      rcases h with h | h <;> rw [h] at hy <;> cases hy <;> decide
    · rfl
  have hbody : (escapeGlobSubject (if (bracket c).negated then c.tail else c)).takeWhile (· != unit ']') =
      (bracket c).body := escape_takeWhile _
  have hafter : ((escapeGlobSubject (if (bracket c).negated then c.tail else c)).dropWhile
      (· != unit ']')).tail = escapeGlobSubject (bracket c).after := escape_dropWhile _
  simp only [hnegated, htail, hbody, hafter]
  cases classMembers (bracket c).body <;> rfl

theorem length_bracket_after (c : JsString) :
    (escapeGlobSubject (bracket c).after).length ≤ (escapeGlobSubject c).length ∧
      (c ≠ [] → (bracket c).after.length < c.length) := by
  have hafter : escapeGlobSubject (bracket c).after =
      ((escapeGlobSubject (if (bracket c).negated then c.tail else c)).dropWhile (· != unit ']')).tail :=
    (escape_dropWhile _).symm
  have htail : ∀ c : JsString, (escapeGlobSubject c.tail).length ≤ (escapeGlobSubject c).length := by
    intro c
    cases c with
    | nil => exact Nat.le_refl _
    | cons x c =>
        rw [List.tail_cons, ← List.singleton_append, escape_append, List.length_append]
        exact Nat.le_add_left _ _
  constructor
  · rw [hafter, List.length_tail]
    refine Nat.le_trans (Nat.sub_le _ _) (Nat.le_trans (List.length_dropWhile_le _ _) ?_)
    split
    · exact htail c
    · exact Nat.le_refl _
  · intro hne
    have hpos := List.length_pos_iff.mpr hne
    have hdrop := List.length_dropWhile_le (· != unit ']') (if (bracket c).negated then c.tail else c)
    have hle : (if (bracket c).negated then c.tail else c).length ≤ c.length := by
      split
      · simp
      · exact Nat.le_refl _
    have hlen : (bracket c).after.length =
        ((if (bracket c).negated then c.tail else c).dropWhile (· != unit ']')).length - 1 := List.length_tail
    omega

/-! ## Which subjects a stored one admits -/

/-- The escaped subject of the stored command admits the subject `s`. -/
inductive Admits : JsString → JsString → Prop
  | nil : Admits [] []
  | lit {x : CodeUnit} {c s : JsString} : isMeta x = false → Admits c s → Admits (x :: c) (x :: s)
  | close {c s : JsString} : Admits c s → Admits (unit ']' :: c) (unit '\\' :: unit ']' :: s)
  | one {x : CodeUnit} {c s : JsString} : x ≠ unit '/' → Admits c s → Admits (unit '?' :: c) (unit '\\' :: x :: s)
  | many {w c s : JsString} : unit '/' ∉ w → Admits c s → Admits (unit '*' :: c) (unit '\\' :: (w ++ s))
  | among {x : CodeUnit} {c s : JsString} : (bracket c).Accepts x → Admits (bracket c).after s →
      Admits (unit '[' :: c) (unit '\\' :: x :: s)

/-- The classes of a command. -/
inductive Opens : JsString → Bracket → Prop
  | here {c : JsString} : Opens (unit '[' :: c) (bracket c)
  | skip {x : CodeUnit} {c : JsString} {b : Bracket} : x ≠ unit '[' → Opens c b → Opens (x :: c) b
  | after {c : JsString} {b : Bracket} : Opens (bracket c).after b → Opens (unit '[' :: c) b

theorem isMeta_cases (hx : isMeta x = true) : x = unit '*' ∨ x = unit '?' ∨ x = unit '[' ∨ x = unit ']' := by
  have hmem : x ∈ js "*?[]" := List.contains_iff_mem.mp hx
  rw [show js "*?[]" = [unit '*', unit '?', unit '[', unit ']'] by decide] at hmem
  simpa using hmem

theorem isWildcard_of_not_meta (hx : isMeta x = false) : isWildcard x = false ∧ x ≠ unit '[' := by
  constructor
  · rw [isWildcard, Bool.or_eq_false_iff, beq_eq_false_iff_ne, beq_eq_false_iff_ne]
    constructor <;> rintro rfl <;> exact absurd hx (by decide)
  · rintro rfl
    exact absurd hx (by decide)

/-- The glob of an escaped character starts with its backslash. -/
theorem globParts_escape {fuel : Nat} (hx : isMeta x = true) : globParts (fuel + 1) (escapeGlobSubject (x :: c)) =
    (globParts fuel (x :: escapeGlobSubject c)).map (oneOf (· == unit '\\') :: ·) := by
  rw [escape_cons_meta hx, globParts_lit (by decide) (by decide)]

theorem escape_head?_ne (hx : isMeta x = true) : (escapeGlobSubject c).head? ≠ some x := by
  intro h
  obtain ⟨s, hs⟩ := List.head?_eq_some_iff.mp h
  rw [escape_head hs] at hx
  cases hx

theorem Admits.anchored (h : Admits c s) {fuel : Nat} (hfuel : (escapeGlobSubject c).length ≤ fuel) :
    ∃ parts, globParts fuel (escapeGlobSubject c) = some parts ∧ ∀ prev, Anchored parts ⟨prev, s⟩ := by
  induction h generalizing fuel with
  | nil => exact ⟨[], globParts_nil, fun prev => anchored_nil.mpr rfl⟩
  | @lit x c s hx _ ih =>
      rw [escape_cons_lit hx] at hfuel ⊢
      obtain ⟨n, rfl⟩ := Nat.exists_eq_add_one_of_ne_zero (by simp at hfuel; omega : fuel ≠ 0)
      obtain ⟨parts, hparts, hs⟩ := @ih n (by simpa using hfuel)
      obtain ⟨hwild, hopen⟩ := isWildcard_of_not_meta hx
      refine ⟨_, by rw [globParts_lit hwild hopen, hparts, Option.map_some], fun prev => ?_⟩
      exact anchored_oneOf.mpr ⟨x, s, rfl, beq_self_eq_true x, hs _⟩
  | @close c s _ ih =>
      rw [escape_cons_meta (by decide)] at hfuel
      obtain ⟨n, rfl⟩ := Nat.exists_eq_add_of_le' (by simp at hfuel; omega : 2 ≤ fuel)
      obtain ⟨parts, hparts, hs⟩ := @ih n (by simp at hfuel; omega)
      refine ⟨_, by rw [globParts_escape (by decide), globParts_lit (by decide) (by decide), hparts,
        Option.map_some, Option.map_some], fun prev => ?_⟩
      exact anchored_oneOf.mpr ⟨_, _, rfl, beq_self_eq_true _,
        anchored_oneOf.mpr ⟨_, _, rfl, beq_self_eq_true _, hs _⟩⟩
  | @one x c s hx _ ih =>
      rw [escape_cons_meta (by decide)] at hfuel
      obtain ⟨n, rfl⟩ := Nat.exists_eq_add_of_le' (by simp at hfuel; omega : 2 ≤ fuel)
      obtain ⟨parts, hparts, hs⟩ := @ih n (by simp at hfuel; omega)
      refine ⟨_, by rw [globParts_escape (by decide), globParts_one, hparts, Option.map_some,
        Option.map_some], fun prev => ?_⟩
      exact anchored_oneOf.mpr ⟨_, _, rfl, beq_self_eq_true _,
        anchored_oneOf.mpr ⟨_, _, rfl, bne_iff_ne.mpr hx, hs _⟩⟩
  | @many w c s hw _ ih =>
      rw [escape_cons_meta (by decide)] at hfuel
      obtain ⟨n, rfl⟩ := Nat.exists_eq_add_of_le' (by simp at hfuel; omega : 2 ≤ fuel)
      obtain ⟨parts, hparts, hs⟩ := @ih n (by simp at hfuel; omega)
      refine ⟨_, by rw [globParts_escape (by decide), globParts_many (escape_head?_ne (by decide)), hparts,
        Option.map_some, Option.map_some], fun prev => ?_⟩
      exact anchored_oneOf.mpr ⟨_, _, rfl, beq_self_eq_true _,
        anchored_star.mpr ⟨w, s, rfl, noSlash_iff.mpr hw, hs _⟩⟩
  | @among x c s hx _ ih =>
      rw [escape_cons_meta (by decide)] at hfuel
      obtain ⟨n, rfl⟩ := Nat.exists_eq_add_of_le' (by simp at hfuel; omega : 2 ≤ fuel)
      obtain ⟨p, hp, hin⟩ := hx
      have hafter := (length_bracket_after c).1
      obtain ⟨parts, hparts, hs⟩ := @ih n (by simp at hfuel; omega)
      refine ⟨_, by rw [globParts_escape (by decide), globParts_bracket, hp, Option.bind_some, hparts,
        Option.map_some, Option.map_some], fun prev => ?_⟩
      exact anchored_oneOf.mpr ⟨_, _, rfl, beq_self_eq_true _, anchored_oneOf.mpr ⟨x, _, rfl, hin, hs _⟩⟩

theorem admits_of_anchored {fuel : Nat} {parts : List Regex} {prev : Option CodeUnit}
    (hfuel : (escapeGlobSubject c).length ≤ fuel) (hparts : globParts fuel (escapeGlobSubject c) = some parts)
    (hs : Anchored parts ⟨prev, s⟩) : Admits c s := by
  induction hn : c.length using Nat.strong_induction_on generalizing c fuel parts prev s with
  | _ n ih =>
      subst hn
      cases c with
      | nil =>
          rw [escape_nil, globParts_nil] at hparts
          cases hparts
          obtain rfl : s = [] := anchored_nil.mp hs
          exact .nil
      | cons x c =>
          cases hx : isMeta x with
          | false =>
              obtain ⟨hwild, hopen⟩ := isWildcard_of_not_meta hx
              rw [escape_cons_lit hx] at hfuel hparts
              obtain ⟨n, rfl⟩ := Nat.exists_eq_add_one_of_ne_zero (by simp at hfuel; omega : fuel ≠ 0)
              rw [globParts_lit hwild hopen] at hparts
              obtain ⟨rest, hrest, rfl⟩ := Option.map_eq_some_iff.mp hparts
              obtain ⟨y, t, rfl, hy, ht⟩ := anchored_oneOf.mp hs
              obtain rfl := eq_of_beq hy
              exact .lit hx (ih c.length (by simp) (by simpa using hfuel) hrest ht rfl)
          | true =>
              rw [escape_cons_meta hx] at hfuel
              obtain ⟨n, rfl⟩ := Nat.exists_eq_add_of_le' (by simp at hfuel; omega : 2 ≤ fuel)
              have hlength : (escapeGlobSubject c).length ≤ n := by simp at hfuel; omega
              rw [globParts_escape hx] at hparts
              obtain ⟨rest, hrest, rfl⟩ := Option.map_eq_some_iff.mp hparts
              obtain ⟨y, t, rfl, hy, ht⟩ := anchored_oneOf.mp hs
              obtain rfl := eq_of_beq hy
              rcases isMeta_cases hx with rfl | rfl | rfl | rfl
              · rw [globParts_many (escape_head?_ne (by decide))] at hrest
                obtain ⟨later, hlater, rfl⟩ := Option.map_eq_some_iff.mp hrest
                obtain ⟨w, u, rfl, hw, hu⟩ := anchored_star.mp ht
                exact .many (noSlash_iff.mp hw) (ih c.length (by simp) hlength hlater hu rfl)
              · rw [globParts_one] at hrest
                obtain ⟨later, hlater, rfl⟩ := Option.map_eq_some_iff.mp hrest
                obtain ⟨z, u, rfl, hz, hu⟩ := anchored_oneOf.mp ht
                exact .one (by simpa using hz) (ih c.length (by simp) hlength hlater hu rfl)
              · rw [globParts_bracket] at hrest
                obtain ⟨p, hp, hmap⟩ := Option.bind_eq_some_iff.mp hrest
                obtain ⟨later, hlater, rfl⟩ := Option.map_eq_some_iff.mp hmap
                obtain ⟨z, u, rfl, hz, hu⟩ := anchored_oneOf.mp ht
                have hafter := length_bracket_after c
                refine .among ⟨p, hp, hz⟩ (ih (bracket c).after.length ?_ ?_ hlater hu rfl)
                · by_cases hc : c = []
                  · subst hc
                    exact Nat.zero_lt_succ _
                  · exact Nat.lt_succ_of_lt (hafter.2 hc)
                · exact Nat.le_trans hafter.1 hlength
              · rw [globParts_lit (by decide) (by decide)] at hrest
                obtain ⟨later, hlater, rfl⟩ := Option.map_eq_some_iff.mp hrest
                obtain ⟨z, u, rfl, hz, hu⟩ := anchored_oneOf.mp ht
                obtain rfl := eq_of_beq hz
                exact .close (ih c.length (by simp) hlength hlater hu rfl)

theorem matchGlob_escape : matchGlob (escapeGlobSubject c) s = true ↔
    (escapeGlobSubject c).length ≤ MAX_GLOB_PATTERN_LEN ∧ Admits c s := by
  unfold matchGlob compileGlob
  by_cases hlen : MAX_GLOB_PATTERN_LEN < (escapeGlobSubject c).length
  · rw [if_pos hlen]
    exact ⟨fun h => absurd h Bool.false_ne_true, fun h => absurd h.1 (Nat.not_le.mpr hlen)⟩
  · rw [if_neg hlen, and_iff_right (Nat.not_lt.mp hlen)]
    cases hparts : globParts (escapeGlobSubject c).length (escapeGlobSubject c) with
    | none =>
        refine ⟨fun h => absurd h Bool.false_ne_true, fun h => ?_⟩
        obtain ⟨parts, hsome, -⟩ := h.anchored (Nat.le_refl _)
        rw [hparts] at hsome
        cases hsome
    | some parts =>
        simp only [Option.map_some]
        rw [test_anchored]
        constructor
        · exact admits_of_anchored (Nat.le_refl _) hparts
        · intro h
          obtain ⟨parts', hsome, hs⟩ := h.anchored (Nat.le_refl _)
          rw [hparts] at hsome
          cases hsome
          exact hs none

/-! ## Commands that admit only themselves -/

/-- Nothing of the command is special once it is escaped, apart from closing brackets. -/
def Literal (c : JsString) : Prop := ∀ x ∈ c, x ≠ unit '*' ∧ x ≠ unit '?' ∧ x ≠ unit '['

/-- A class that does not compile, or that no character is in. -/
def Bracket.Dead (b : Bracket) : Prop := ∀ x, ¬ b.Accepts x

theorem Admits.of_literal (h : Admits c s) (hlit : Literal c) : s = escapeGlobSubject c := by
  induction h with
  | nil => rfl
  | @lit x c s hx _ ih =>
      rw [escape_cons_lit hx, ih fun y hy => hlit y (List.mem_cons_of_mem _ hy)]
  | @close c s _ ih =>
      rw [escape_cons_meta (by decide), ih fun y hy => hlit y (List.mem_cons_of_mem _ hy)]
  | one _ _ _ => exact absurd rfl (hlit _ List.mem_cons_self).2.1
  | many _ _ _ => exact absurd rfl (hlit _ List.mem_cons_self).1
  | among _ _ _ => exact absurd rfl (hlit _ List.mem_cons_self).2.2

theorem Admits.not_dead (h : Admits c s) {b : Bracket} (hb : Opens c b) : ¬ b.Dead := by
  induction h with
  | nil => cases hb
  | @lit x c s hx _ ih =>
      generalize hc : x :: c = command at hb
      cases hb with
      | skip _ hb =>
          obtain ⟨-, rfl⟩ := List.cons.inj hc
          exact ih hb
      | _ =>
          obtain ⟨rfl, -⟩ := List.cons.inj hc
          exact absurd hx (by decide)
  | @close c s _ ih =>
      generalize hc : unit ']' :: c = command at hb
      cases hb with
      | skip _ hb =>
          obtain ⟨-, rfl⟩ := List.cons.inj hc
          exact ih hb
      | _ => exact absurd (List.cons.inj hc).1 (by decide)
  | @one x c s _ _ ih =>
      generalize hc : unit '?' :: c = command at hb
      cases hb with
      | skip _ hb =>
          obtain ⟨-, rfl⟩ := List.cons.inj hc
          exact ih hb
      | _ => exact absurd (List.cons.inj hc).1 (by decide)
  | @many w c s _ _ ih =>
      generalize hc : unit '*' :: c = command at hb
      cases hb with
      | skip _ hb =>
          obtain ⟨-, rfl⟩ := List.cons.inj hc
          exact ih hb
      | _ => exact absurd (List.cons.inj hc).1 (by decide)
  | @among x c s hx _ ih =>
      generalize hc : unit '[' :: c = command at hb
      cases hb with
      | here =>
          obtain ⟨-, rfl⟩ := List.cons.inj hc
          exact fun hdead => hdead x hx
      | skip hne _ => exact absurd (List.cons.inj hc).1.symm hne
      | after hb =>
          obtain ⟨-, rfl⟩ := List.cons.inj hc
          exact ih hb

/-- A command whose escaped form is the backslash and `x`. -/
def unescaped (x : CodeUnit) : JsString := if isMeta x then [x] else [unit '\\', x]

theorem escape_unescaped (x : CodeUnit) : escapeGlobSubject (unescaped x) = [unit '\\', x] := by
  unfold unescaped
  cases hx : isMeta x with
  | false => rw [if_neg Bool.false_ne_true, escape_cons_lit (by decide), escape_cons_lit hx, escape_nil]
  | true => rw [if_pos rfl, escape_cons_meta hx, escape_nil]

theorem length_unescaped (x : CodeUnit) : (unescaped x).length ≤ 2 := by
  unfold unescaped
  split <;> simp

theorem bracket_nil_dead : (bracket []).Dead := by
  rintro x ⟨p, hp, hx⟩
  rw [show (bracket []).body = [] by rfl, classMembers] at hp
  cases hp
  cases hx

theorem exists_admitted (hlive : ∀ b, Opens c b → ¬ b.Dead) :
    ∃ d, Admits c (escapeGlobSubject d) ∧ d.length ≤ c.length := by
  induction hn : c.length using Nat.strong_induction_on generalizing c with
  | _ n ih =>
      subst hn
      cases c with
      | nil => exact ⟨[], .nil, Nat.le_refl _⟩
      | cons x c =>
          by_cases hopen : x = unit '['
          · subst hopen
            obtain ⟨x, hx⟩ := not_forall_not.mp (hlive _ .here)
            have hne : c ≠ [] := by
              rintro rfl
              exact hlive _ .here bracket_nil_dead
            have hlt := (length_bracket_after c).2 hne
            obtain ⟨d, hd, hle⟩ := ih _ (Nat.lt_succ_of_lt hlt) (fun b hb => hlive b (.after hb)) rfl
            refine ⟨unescaped x ++ d, ?_, ?_⟩
            · rw [escape_append, escape_unescaped]
              exact .among hx hd
            · have := length_unescaped x
              rw [List.length_append, List.length_cons]
              omega
          · obtain ⟨d, hd, hle⟩ := ih c.length (by simp) (fun b hb => hlive b (.skip hopen hb)) rfl
            cases hx : isMeta x with
            | false =>
                refine ⟨x :: d, ?_, Nat.succ_le_succ hle⟩
                rw [escape_cons_lit hx]
                exact .lit hx hd
            | true =>
                refine ⟨x :: d, ?_, Nat.succ_le_succ hle⟩
                rw [escape_cons_meta hx]
                rcases isMeta_cases hx with rfl | rfl | rfl | rfl
                · exact .many (w := [unit '*']) (by decide) hd
                · exact .one (by decide) hd
                · exact absurd rfl hopen
                · exact .close hd

/-- A command with a wildcard or a class admits another one. -/
theorem exists_other (hlive : ∀ b, Opens c b → ¬ b.Dead) (hwild : ¬ Literal c) :
    ∃ d, Admits c (escapeGlobSubject d) ∧ c ≠ d := by
  induction c with
  | nil => exact absurd (List.forall_mem_nil _) hwild
  | cons x c ih =>
      by_cases hopen : x = unit '['
      · subst hopen
        obtain ⟨x, hx⟩ := not_forall_not.mp (hlive _ .here)
        obtain ⟨d, hd, hle⟩ := exists_admitted fun b hb => hlive b (.after hb)
        refine ⟨unescaped x ++ d, ?_, fun he => ?_⟩
        · rw [escape_append, escape_unescaped]
          exact .among hx hd
        · have hne : c ≠ [] := by
            rintro rfl
            exact hlive _ .here bracket_nil_dead
          have hlt := (length_bracket_after c).2 hne
          unfold unescaped at he
          split at he
          · have hlength := congrArg List.length he
            simp only [List.length_cons, List.singleton_append] at hlength
            omega
          · exact absurd (List.cons.inj he).1 (by decide)
      · have hskip : ∀ b, Opens c b → ¬ b.Dead := fun b hb => hlive b (.skip hopen hb)
        obtain ⟨d, hd, -⟩ := exists_admitted hskip
        by_cases hstar : x = unit '*'
        · subst hstar
          refine ⟨unit '\\' :: d, ?_, fun he => absurd (List.cons.inj he).1 (by decide)⟩
          rw [escape_cons_lit (by decide)]
          exact .many (w := []) List.not_mem_nil hd
        · by_cases hone : x = unit '?'
          · subst hone
            refine ⟨unit '\\' :: unit 'a' :: d, ?_, fun he => absurd (List.cons.inj he).1 (by decide)⟩
            rw [escape_cons_lit (by decide), escape_cons_lit (by decide)]
            exact .one (by decide) hd
          · have hrest : ¬ Literal c := fun hlit =>
              hwild (List.forall_mem_cons.mpr ⟨⟨hstar, hone, hopen⟩, hlit⟩)
            obtain ⟨e, he, hother⟩ := ih hskip hrest
            refine ⟨x :: e, ?_, fun hsame => hother (List.cons.inj hsame).2⟩
            cases hx : isMeta x with
            | false =>
                rw [escape_cons_lit hx]
                exact .lit hx he
            | true =>
                rw [escape_cons_meta hx]
                rcases isMeta_cases hx with rfl | rfl | rfl | rfl
                · exact absurd rfl hstar
                · exact absurd rfl hone
                · exact absurd rfl hopen
                · exact .close he

end WrongStack.Utils
