import WrongStack.Lib.Json

/-!
# Texts of JSON values

`JSON.stringify` writes one line, in which no surrogate stands alone.
-/

namespace WrongStack.Lib

open JsString

/-- A text without a line break in which no surrogate stands alone. -/
structure IsLine (s : JsString) : Prop where
  wellFormed : toWellFormed s = s
  oneLine : (10 : CodeUnit) ∉ s

namespace IsLine

variable {s t : JsString} {c : CodeUnit}

theorem nil : IsLine [] := ⟨rfl, List.not_mem_nil⟩

theorem append (hs : IsLine s) (ht : IsLine t) : IsLine (s ++ t) where
  wellFormed := by rw [toWellFormed_append hs.wellFormed, ht.wellFormed]
  oneLine h := (List.mem_append.mp h).elim hs.oneLine ht.oneLine

theorem cons (hc : isSurrogate c = false ∧ c ≠ 10) (hs : IsLine s) : IsLine (c :: s) where
  wellFormed := by rw [toWellFormed_cons hc.1, hs.wellFormed]
  oneLine h := (List.mem_cons.mp h).elim (fun heq => hc.2 heq.symm) hs.oneLine

theorem join (sep : JsString) (hsep : IsLine sep) {parts : List JsString} (h : ∀ p ∈ parts, IsLine p) :
    IsLine (JsString.join sep parts) := by
  induction parts with
  | nil => exact nil
  | cons p ps ih =>
      cases ps with
      | nil => simpa [JsString.join, List.intercalate] using h p List.mem_cons_self
      | cons q qs =>
          have hrest := ih fun r hr => h r (List.mem_cons_of_mem p hr)
          have hcons : JsString.join sep (p :: q :: qs) = p ++ (sep ++ JsString.join sep (q :: qs)) := by
            simp [JsString.join, List.intercalate]
          rw [hcons]
          exact (h p List.mem_cons_self).append (hsep.append hrest)

end IsLine

namespace Json

/-! ## Strings -/

theorem hexDigit_plain : ∀ n < 16, isSurrogate (hexDigit n) = false ∧ hexDigit n ≠ 10 := by decide

theorem isLine_unicodeEscape (c : CodeUnit) : IsLine (unicodeEscape c) := by
  have hbound := c.toNat_lt
  have hstart : IsLine (js "\\u") := ⟨by decide, by decide⟩
  refine hstart.append (.cons (hexDigit_plain _ ?_) (.cons (hexDigit_plain _ ?_) (.cons (hexDigit_plain _ ?_)
    (.cons (hexDigit_plain _ ?_) .nil))))
  all_goals omega

theorem isLine_escapeUnit {c : CodeUnit} (h : isSurrogate c = false) : IsLine (escapeUnit c) := by
  rw [escapeUnit]
  repeat' split
  all_goals first
    | exact ⟨by decide, by decide⟩
    | exact isLine_unicodeEscape c
    | exact .cons ⟨h, ‹¬c = 10›⟩ .nil

theorem isSurrogate_eq (c : CodeUnit) : isSurrogate c = (0xD800 ≤ c && c < 0xE000) := by
  rw [Bool.eq_iff_iff, isSurrogate, isHighSurrogate, isLowSurrogate]
  simp only [Bool.or_eq_true, Bool.and_eq_true, decide_eq_true_eq, UInt16.le_iff_toNat_le, UInt16.lt_iff_toNat_lt]
  constructor
  · rintro (⟨h, h'⟩ | ⟨h, h'⟩) <;> simp at h h' ⊢ <;> omega
  · rintro ⟨h, h'⟩
    simp at h h' ⊢
    omega

theorem isLine_pair {hi lo : CodeUnit} (h : (isHighSurrogate hi && isLowSurrogate lo) = true) {s : JsString}
    (hs : IsLine s) : IsLine (hi :: lo :: s) where
  wellFormed := by rw [toWellFormed, if_pos h, hs.wellFormed]
  oneLine hmem := by
    rcases List.mem_cons.mp hmem with rfl | hrest
    · simp [isHighSurrogate] at h
    · rcases List.mem_cons.mp hrest with rfl | hrest
      · simp [isLowSurrogate] at h
      · exact hs.oneLine hrest

theorem isLine_escape (s : JsString) : IsLine (escape s) := by
  fun_induction escape s with
  | case1 hi lo rest hpair ih => exact isLine_pair (by rw [← hpair, Bool.and_assoc]; rfl) ih
  | case2 hi lo rest hpair hhi ih => exact (isLine_unicodeEscape hi).append ih
  | case3 hi lo rest hpair hhi ih =>
      exact (isLine_escapeUnit (by rw [isSurrogate_eq]; simpa using hhi)).append ih
  | case4 c hc => exact isLine_unicodeEscape c
  | case5 c hc => exact isLine_escapeUnit (by rw [isSurrogate_eq]; simpa using hc)
  | case6 => exact .nil

theorem isLine_quote (s : JsString) : IsLine (quote s) :=
  .cons (by decide) ((isLine_escape s).append (.cons (by decide) .nil))

/-! ## Values -/

mutual

/-- The numbers are given by texts of one line. -/
def NumbersPrint : Json → Prop
  | num text => IsLine text
  | arr items => ItemsPrint items
  | obj fields => FieldsPrint fields
  | _ => True

def ItemsPrint : List Json → Prop
  | [] => True
  | v :: vs => NumbersPrint v ∧ ItemsPrint vs

def FieldsPrint : List (JsString × Json) → Prop
  | [] => True
  | (_, v) :: fs => NumbersPrint v ∧ FieldsPrint fs

end

mutual

theorem isLine_stringify (v : Json) (h : v.NumbersPrint) : IsLine v.stringify := by
  cases v with
  | null => exact ⟨by decide, by decide⟩
  | bool b => cases b <;> exact ⟨by decide, by decide⟩
  | num text => exact h
  | str s => exact isLine_quote s
  | arr items =>
      have hjoin := IsLine.join (js ",") ⟨by decide, by decide⟩ (isLine_stringifyItems items h)
      exact .cons (by decide) (hjoin.append (.cons (by decide) .nil))
  | obj fields =>
      have hjoin := IsLine.join (js ",") ⟨by decide, by decide⟩ (isLine_stringifyFields fields h)
      exact .cons (by decide) (hjoin.append (.cons (by decide) .nil))

theorem isLine_stringifyItems (vs : List Json) (h : ItemsPrint vs) : ∀ s ∈ stringifyItems vs, IsLine s := by
  cases vs with
  | nil => exact nofun
  | cons v vs =>
      intro s hs
      rcases List.mem_cons.mp hs with rfl | hrest
      · exact isLine_stringify v h.1
      · exact isLine_stringifyItems vs h.2 s hrest

theorem isLine_stringifyFields (fs : List (JsString × Json)) (h : FieldsPrint fs) :
    ∀ s ∈ stringifyFields fs, IsLine s := by
  cases fs with
  | nil => exact nofun
  | cons f fs =>
      intro s hs
      rcases List.mem_cons.mp hs with rfl | hrest
      · exact (isLine_quote f.1).append (.cons (by decide) (isLine_stringify f.2 h.1))
      · exact isLine_stringifyFields fs h.2 s hrest

end

end Json

end WrongStack.Lib
