import WrongStack.Utils.NewlineStyle

/-!
# Replacing in a text with its line ends

The characters of a text, a line end being one of them, against the units of its normal form.
-/

namespace WrongStack.Utils

open Lib

/-- A line end is `\r\n`, `\r` or `\n`. -/
def lineTokens : JsString → List JsString
  | [] => []
  | [c] => [[c]]
  | c :: d :: rest =>
      if c = 13 ∧ d = 10 then [13, 10] :: lineTokens rest else [c] :: lineTokens (d :: rest)

/-- What `normalizeToLf` makes of it. -/
def lfUnit : JsString → CodeUnit
  | [] => 10
  | c :: _ => if c = 13 then 10 else c

/-- What `toStyle` makes of a unit of a normal form. -/
def styleUnit (style : NewlineStyle) (c : CodeUnit) : JsString :=
  if c = 10 then
    match style with
    | .lf => [10]
    | .crlf => [13, 10]
    | .cr => [13]
  else [c]

/-! ## Normal forms -/

theorem flatten_lineTokens (text : JsString) : (lineTokens text).flatten = text := by
  fun_induction lineTokens text with
  | case1 => rfl
  | case2 c => rfl
  | case3 c d rest h ih =>
      obtain ⟨rfl, rfl⟩ := h
      simp [ih]
  | case4 c d rest h ih => simp [ih]

theorem map_lfUnit_lineTokens (text : JsString) : (lineTokens text).map lfUnit = normalizeToLf text := by
  fun_induction lineTokens text with
  | case1 => rfl
  | case2 c => rfl
  | case3 c d rest h ih =>
      obtain ⟨rfl, rfl⟩ := h
      simp [normalizeToLf, lfUnit, ih]
  | case4 c d rest h ih =>
      by_cases hc : c = 13
      · subst hc
        have hd : d ≠ 10 := fun hd => h ⟨rfl, hd⟩
        simp [normalizeToLf, lfUnit, hd, ih]
      · simp [normalizeToLf, lfUnit, hc, ih]

theorem cr_not_mem_normalizeToLf (text : JsString) : 13 ∉ normalizeToLf text := by
  rw [← map_lfUnit_lineTokens]
  intro h
  obtain ⟨t, -, ht⟩ := List.mem_map.mp h
  cases t with
  | nil => cases ht
  | cons c t =>
      simp only [lfUnit] at ht
      split at ht
      · cases ht
      · rename_i hc
        exact hc ht

theorem normalizeToLf_of_lf {text : JsString} (h : 13 ∉ text) : normalizeToLf text = text := by
  fun_induction normalizeToLf text with
  | case1 => rfl
  | case2 c => rw [if_neg fun hc => h (by simp [hc])]
  | case3 rest ih => simp at h
  | case4 d rest hd ih => simp at h
  | case5 c d rest hc ih =>
      rw [ih fun hm => h (List.mem_cons_of_mem c hm)]

theorem toStyle_eq (text : JsString) (style : NewlineStyle) :
    toStyle text style = (normalizeToLf text).flatMap (styleUnit style) := by
  unfold toStyle
  generalize normalizeToLf text = text
  cases style with
  | lf =>
      have hid : styleUnit .lf = fun c => [c] := by
        funext c
        by_cases hc : c = 10 <;> simp [styleUnit, hc]
      rw [hid]
      exact (List.flatMap_singleton' text).symm
  | crlf => rfl
  | cr =>
      have hone : styleUnit .cr = fun c => [if c = 10 then 13 else c] := by
        funext c
        by_cases hc : c = 10 <;> simp [styleUnit, hc]
      rw [hone]
      exact List.map_eq_flatMap

theorem toStyle_of_lf {text : JsString} (h : 13 ∉ text) (style : NewlineStyle) :
    toStyle text style = text.flatMap (styleUnit style) := by
  rw [toStyle_eq, normalizeToLf_of_lf h]

/-- The characters of a text: no `\r` stands before a `\n` that is a character of its own. -/
def LineTokens : List JsString → Prop
  | [] => True
  | t :: ts => (t = [13, 10] ∨ t = [13] ∧ ts.head? ≠ some [10] ∨ ∃ c, c ≠ 13 ∧ t = [c]) ∧ LineTokens ts

theorem lineTokens_lineTokens (text : JsString) : LineTokens (lineTokens text) := by
  fun_induction lineTokens text with
  | case1 => trivial
  | case2 c =>
      refine ⟨?_, trivial⟩
      by_cases hc : c = 13
      · exact .inr (.inl ⟨by rw [hc], by simp⟩)
      · exact .inr (.inr ⟨c, hc, rfl⟩)
  | case3 c d rest h ih => exact ⟨.inl rfl, ih⟩
  | case4 c d rest h ih =>
      refine ⟨?_, ih⟩
      by_cases hc : c = 13
      · refine .inr (.inl ⟨by rw [hc], fun hhead => h ⟨hc, ?_⟩⟩)
        cases rest with
        | nil => simpa [lineTokens] using hhead
        | cons e rest =>
            rw [lineTokens] at hhead
            split at hhead
            · simp at hhead
            · simpa using hhead
      · exact .inr (.inr ⟨c, hc, rfl⟩)

theorem toStyle_token {t : JsString} (h : t = [13, 10] ∨ t = [13] ∨ ∃ c, c ≠ 13 ∧ t = [c])
    (style : NewlineStyle) : toStyle t style = styleUnit style (lfUnit t) := by
  rcases h with rfl | rfl | ⟨c, hc, rfl⟩
  · cases style <;> rfl
  · cases style <;> rfl
  · rw [toStyle_of_lf (by simpa using Ne.symm hc)]
    simp [lfUnit, hc]

/-! ## Styled texts -/

theorem flatMap_styleUnit_injective (style : NewlineStyle) {xs ys : JsString} (hx : 13 ∉ xs) (hy : 13 ∉ ys)
    (h : xs.flatMap (styleUnit style) = ys.flatMap (styleUnit style)) : xs = ys := by
  have hne : ∀ c, styleUnit style c ≠ [] := by
    intro c
    unfold styleUnit
    split
    · cases style <;> simp
    · simp
  induction xs generalizing ys with
  | nil =>
      cases ys with
      | nil => rfl
      | cons d ys => exact absurd h.symm (by simp [hne])
  | cons c xs ih =>
      cases ys with
      | nil => exact absurd h (by simp [hne])
      | cons d ys =>
          rw [List.mem_cons, not_or] at hx hy
          rw [List.flatMap_cons, List.flatMap_cons] at h
          by_cases hc : c = 10
          · by_cases hd : d = 10
            · rw [hc, hd] at h ⊢
              rw [ih hx.2 hy.2 (List.append_cancel_left h)]
            · exfalso
              simp only [styleUnit, hc, hd, if_true, if_false] at h
              cases style <;> simp_all
          · by_cases hd : d = 10
            · exfalso
              simp only [styleUnit, hc, hd, if_true, if_false] at h
              cases style <;> simp_all
            · simp only [styleUnit, hc, hd, if_false, List.singleton_append, List.cons.injEq] at h
              rw [h.1, ih hx.2 hy.2 h.2]

/-! ## Replacing characters -/

/-- The text with the successive occurrences of `needle` in its normal form replaced, from left to right,
and each other character as it is; `skip` characters belong to the last occurrence. -/
def replaceTokens (needle replacement : JsString) : Nat → List JsString → JsString
  | _, [] => []
  | skip + 1, _ :: ts => replaceTokens needle replacement skip ts
  | 0, t :: ts =>
      if needle.isPrefixOf ((t :: ts).map lfUnit) then
        replacement ++ replaceTokens needle replacement (needle.length - 1) ts
      else t ++ replaceTokens needle replacement 0 ts

/-- The characters outside these occurrences. -/
def keptTokens (needle : JsString) : Nat → List JsString → List JsString
  | _, [] => []
  | skip + 1, _ :: ts => keptTokens needle skip ts
  | 0, t :: ts =>
      if needle.isPrefixOf ((t :: ts).map lfUnit) then keptTokens needle (needle.length - 1) ts
      else t :: keptTokens needle 0 ts

/-- How many they are. -/
def replacedCount (needle : JsString) : Nat → JsString → Nat
  | _, [] => 0
  | skip + 1, _ :: cs => replacedCount needle skip cs
  | 0, c :: cs =>
      if needle.isPrefixOf (c :: cs) then replacedCount needle (needle.length - 1) cs + 1
      else replacedCount needle 0 cs

variable {needle replacement : JsString} {style : NewlineStyle} {skip : Nat} {ts : List JsString}

/-- With the characters outside in one style, replacing and styling go together. -/
theorem flatMap_replaceEvery (h : ∀ t ∈ keptTokens needle skip ts, styleUnit style (lfUnit t) = t) :
    (replaceEvery needle replacement skip (ts.map lfUnit)).flatMap (styleUnit style) =
      replaceTokens needle (replacement.flatMap (styleUnit style)) skip ts := by
  induction ts generalizing skip with
  | nil => cases skip <;> rfl
  | cons t ts ih =>
      cases skip with
      | succ skip => exact ih h
      | zero =>
          rw [keptTokens] at h
          simp only [List.map_cons, replaceEvery, replaceTokens] at h ⊢
          split
          · rename_i hp
            rw [if_pos hp] at h
            rw [List.flatMap_append, ih h]
          · rename_i hp
            rw [if_neg hp] at h
            rw [List.flatMap_cons, h t List.mem_cons_self, ih fun t' ht' => h t' (List.mem_cons_of_mem t ht')]

theorem subset_replaceTokens {t : JsString} (h : t ∈ keptTokens needle skip ts) :
    t ⊆ replaceTokens needle replacement skip ts := by
  induction ts generalizing skip with
  | nil => cases skip <;> cases h
  | cons u ts ih =>
      cases skip with
      | succ skip => exact ih h
      | zero =>
          rw [keptTokens] at h
          rw [replaceTokens]
          split
          · rename_i hp
            rw [if_pos hp] at h
            exact fun c hc => List.mem_append_right _ (ih h hc)
          · rename_i hp
            rw [if_neg hp] at h
            rcases List.mem_cons.mp h with rfl | h
            · exact fun c hc => List.mem_append_left _ hc
            · exact fun c hc => List.mem_append_right _ (ih h hc)

theorem keptTokens_lineTokens (h : LineTokens ts) : ∀ t ∈ keptTokens needle skip ts,
    t = [13, 10] ∨ t = [13] ∨ ∃ c, c ≠ 13 ∧ t = [c] := by
  induction ts generalizing skip with
  | nil => cases skip <;> simp [keptTokens]
  | cons u ts ih =>
      cases skip with
      | succ skip => exact ih h.2
      | zero =>
          rw [keptTokens]
          split
          · exact ih h.2
          · intro t ht
            rcases List.mem_cons.mp ht with rfl | ht
            · exact h.1.imp_right (Or.imp_left And.left)
            · exact ih h.2 t ht

/-- A text in which `\r` and `\n` only occur as `\r\n`. -/
def crlfOnly : JsString → Bool
  | [] => true
  | [c] => c != 13 && c != 10
  | c :: d :: rest =>
      if c = 13 then d == 10 && crlfOnly rest else c != 10 && crlfOnly (d :: rest)

theorem crlfOnly_append_style (c : CodeUnit) (hc : c ≠ 13) (text : JsString) :
    crlfOnly (styleUnit .crlf c ++ text) = crlfOnly text := by
  by_cases h : c = 10
  · subst h
    simp [styleUnit, crlfOnly]
  · cases text with
    | nil => simp [styleUnit, h, crlfOnly, hc]
    | cons d rest => simp [styleUnit, h, crlfOnly, hc]

theorem crlfOnly_append_styled {xs : JsString} (hx : 13 ∉ xs) (text : JsString) :
    crlfOnly (xs.flatMap (styleUnit .crlf) ++ text) = crlfOnly text := by
  induction xs with
  | nil => rfl
  | cons c xs ih =>
      rw [List.mem_cons, not_or] at hx
      rw [List.flatMap_cons, List.append_assoc, crlfOnly_append_style c (Ne.symm hx.1), ih hx.2]

theorem styled_of_crlfOnly {r : JsString} (hts : LineTokens ts) (hr : 13 ∉ r) (hne : r ≠ [])
    (h : crlfOnly (replaceTokens needle (r.flatMap (styleUnit .crlf)) skip ts) = true) :
    ∀ t ∈ keptTokens needle skip ts, styleUnit .crlf (lfUnit t) = t := by
  induction ts generalizing skip with
  | nil => cases skip <;> simp [keptTokens]
  | cons t ts ih =>
      cases skip with
      | succ skip => exact ih hts.2 h
      | zero =>
          rw [keptTokens]
          rw [replaceTokens] at h
          split
          · rename_i hp
            rw [if_pos hp, crlfOnly_append_styled hr] at h
            exact ih hts.2 h
          · rename_i hp
            rw [if_neg hp] at h
            intro t' ht'
            rcases hts.1 with rfl | ⟨rfl, hhead⟩ | ⟨c, hc, rfl⟩
            · have hrest : crlfOnly (replaceTokens needle (r.flatMap (styleUnit .crlf)) 0 ts) = true := by
                simpa [crlfOnly] using h
              rcases List.mem_cons.mp ht' with rfl | ht'
              · rfl
              · exact ih hts.2 hrest t' ht'
            · -- what comes after a lone `\r` does not start with `\n`
              have hnext : (replaceTokens needle (r.flatMap (styleUnit .crlf)) 0 ts).head? ≠ some 10 := by
                cases ts with
                | nil => simp [replaceTokens]
                | cons u us =>
                    rw [replaceTokens]
                    split
                    · cases r with
                      | nil => exact absurd rfl hne
                      | cons d r =>
                          by_cases hd : d = 10 <;> simp [styleUnit, hd]
                    · rcases hts.2.1 with rfl | ⟨rfl, -⟩ | ⟨d, hd, rfl⟩
                      · simp
                      · simp
                      · simpa using hhead
              cases hrest : replaceTokens needle (r.flatMap (styleUnit .crlf)) 0 ts with
              | nil => simp [hrest, crlfOnly] at h
              | cons d rest =>
                  rw [hrest] at h hnext
                  simp only [List.singleton_append, crlfOnly, if_true, Bool.and_eq_true, beq_iff_eq] at h
                  exact absurd (congrArg some h.1) hnext
            · have hsplit : c ≠ 10 ∧
                  crlfOnly (replaceTokens needle (r.flatMap (styleUnit .crlf)) 0 ts) = true := by
                cases hrest : replaceTokens needle (r.flatMap (styleUnit .crlf)) 0 ts with
                | nil =>
                    rw [hrest] at h
                    exact ⟨by simpa [crlfOnly, hc] using h, rfl⟩
                | cons d rest =>
                    rw [hrest] at h
                    simpa [crlfOnly, hc] using h
              rcases List.mem_cons.mp ht' with rfl | ht'
              · simp [lfUnit, hc, styleUnit, hsplit.1]
              · exact ih hts.2 hsplit.2 t' ht'

theorem length_le_styleUnit {t : JsString} (h : t = [13, 10] ∨ t = [13] ∨ ∃ c, c ≠ 13 ∧ t = [c]) :
    t.length ≤ (styleUnit .crlf (lfUnit t)).length := by
  rcases h with rfl | rfl | ⟨c, hc, rfl⟩
  · simp [lfUnit, styleUnit]
  · simp [lfUnit, styleUnit]
  · by_cases h : c = 10 <;> simp [lfUnit, styleUnit, hc, h]

/-- No character gets shorter in this style, so a text that is styled already has all of them styled. -/
theorem styled_of_flatten (h : ∀ t ∈ ts, t = [13, 10] ∨ t = [13] ∨ ∃ c, c ≠ 13 ∧ t = [c])
    (heq : (ts.map lfUnit).flatMap (styleUnit .crlf) = ts.flatten) :
    ∀ t ∈ ts, styleUnit .crlf (lfUnit t) = t := by
  have hlen : ∀ ts : List JsString, (∀ t ∈ ts, t = [13, 10] ∨ t = [13] ∨ ∃ c, c ≠ 13 ∧ t = [c]) →
      ts.flatten.length ≤ ((ts.map lfUnit).flatMap (styleUnit .crlf)).length := by
    intro ts h
    induction ts with
    | nil => simp
    | cons t ts ih =>
        have hone := length_le_styleUnit (h t List.mem_cons_self)
        have hrest := ih fun u hu => h u (List.mem_cons_of_mem t hu)
        simp only [List.map_cons, List.flatMap_cons, List.flatten_cons, List.length_append]
        omega
  induction ts with
  | nil => simp
  | cons t ts ih =>
      have htail : ∀ u ∈ ts, u = [13, 10] ∨ u = [13] ∨ ∃ c, c ≠ 13 ∧ u = [c] := fun u hu =>
        h u (List.mem_cons_of_mem t hu)
      have hone := length_le_styleUnit (h t List.mem_cons_self)
      have hrest := hlen ts htail
      rw [List.map_cons, List.flatMap_cons, List.flatten_cons] at heq
      have htotal := congrArg List.length heq
      rw [List.length_append, List.length_append] at htotal
      obtain ⟨hhead, hkept⟩ := List.append_inj heq (by omega)
      intro u hu
      rcases List.mem_cons.mp hu with rfl | hu
      · exact hhead
      · exact ih htail hkept u hu

theorem replaceTokens_nil : replaceTokens needle [] skip ts = (keptTokens needle skip ts).flatten := by
  induction ts generalizing skip with
  | nil => cases skip <;> rfl
  | cons t ts ih =>
      cases skip with
      | succ skip => exact ih
      | zero =>
          rw [replaceTokens, keptTokens]
          split
          · exact ih
          · rw [List.flatten_cons, ih]

theorem replaceEvery_nil :
    replaceEvery needle [] skip (ts.map lfUnit) = (keptTokens needle skip ts).map lfUnit := by
  induction ts generalizing skip with
  | nil => cases skip <;> rfl
  | cons t ts ih =>
      cases skip with
      | succ skip => exact ih
      | zero =>
          rw [List.map_cons, replaceEvery, keptTokens]
          simp only [List.map_cons]
          split
          · exact ih
          · rw [List.map_cons, ih]

/-- A styled text is the original with its matches replaced only if each character outside has that
style. -/
theorem styled_of_replaced {xs r : JsString} (hts : LineTokens ts) (hxs : 13 ∉ xs) (hr : 13 ∉ r)
    (hnil : r = [] → xs = replaceEvery needle [] skip (ts.map lfUnit))
    (h : xs.flatMap (styleUnit style) = replaceTokens needle (r.flatMap (styleUnit style)) skip ts) :
    ∀ t ∈ keptTokens needle skip ts, styleUnit style (lfUnit t) = t := by
  cases style with
  | lf =>
      have hno : 13 ∉ xs.flatMap (styleUnit .lf) := by
        rw [List.mem_flatMap]
        rintro ⟨c, hc, hm⟩
        by_cases h10 : c = 10
        · simp [styleUnit, h10] at hm
        · simp only [styleUnit, h10, if_false, List.mem_singleton] at hm
          exact hxs (hm ▸ hc)
      intro t ht
      have hsub : 13 ∉ t := fun hm => hno (h ▸ subset_replaceTokens ht hm)
      rcases keptTokens_lineTokens hts t ht with rfl | rfl | ⟨c, hc, rfl⟩
      · simp at hsub
      · simp at hsub
      · by_cases h10 : c = 10 <;> simp [lfUnit, styleUnit, hc, h10]
  | cr =>
      have hno : 10 ∉ xs.flatMap (styleUnit .cr) := by
        rw [List.mem_flatMap]
        rintro ⟨c, -, hm⟩
        by_cases h10 : c = 10
        · simp [styleUnit, h10] at hm
        · simp only [styleUnit, h10, if_false, List.mem_singleton] at hm
          exact h10 hm.symm
      intro t ht
      have hsub : 10 ∉ t := fun hm => hno (h ▸ subset_replaceTokens ht hm)
      rcases keptTokens_lineTokens hts t ht with rfl | rfl | ⟨c, hc, rfl⟩
      · simp at hsub
      · rfl
      · have h10 : c ≠ 10 := fun heq => hsub (by simp [heq])
        simp [lfUnit, styleUnit, hc, h10]
  | crlf =>
      by_cases hne : r = []
      · subst hne
        rw [hnil rfl, replaceEvery_nil, List.flatMap_nil, replaceTokens_nil] at h
        exact styled_of_flatten (keptTokens_lineTokens hts) h
      · refine styled_of_crlfOnly hts hr hne ?_
        rw [← h, ← List.append_nil (xs.flatMap _), crlfOnly_append_styled hxs]
        rfl

/-! ## How often -/

variable {text : JsString}

theorem length_replaceEvery (replacement : JsString) : (replaceEvery needle replacement skip text).length =
    (replaceEvery needle [] skip text).length + replacedCount needle skip text * replacement.length := by
  induction text generalizing skip with
  | nil => cases skip <;> simp [replaceEvery, replacedCount]
  | cons c cs ih =>
      cases skip with
      | succ skip => exact ih
      | zero =>
          simp only [replaceEvery, replacedCount]
          split
          · rw [List.length_append, List.nil_append, ih, Nat.add_mul, Nat.one_mul]
            omega
          · rw [List.length_cons, List.length_cons, ih]
            omega

theorem replaceEvery_injective {r r' : JsString} (hpos : 0 < replacedCount needle skip text)
    (h : replaceEvery needle r skip text = replaceEvery needle r' skip text) : r = r' := by
  have hlen : r.length = r'.length := by
    have heq := congrArg List.length h
    rw [length_replaceEvery r, length_replaceEvery r'] at heq
    exact Nat.eq_of_mul_eq_mul_left hpos (Nat.add_left_cancel heq)
  induction text generalizing skip with
  | nil => cases skip <;> cases hpos
  | cons c cs ih =>
      cases skip with
      | succ skip => exact ih hpos h
      | zero =>
          simp only [replaceEvery, replacedCount] at h hpos
          split at h
          · exact (List.append_inj h hlen).1
          · rename_i hp
            rw [if_neg hp] at hpos
            exact ih hpos (List.cons.inj h).2

theorem occurrences_eq_zero (h : occurrences needle text = 0) : replacedCount needle skip text = 0 ∧
    ∀ r, replaceEvery needle r skip text = text.drop skip := by
  induction text generalizing skip with
  | nil => cases skip <;> simp [replaceEvery, replacedCount]
  | cons c cs ih =>
      rw [occurrences] at h
      by_cases hp : needle.isPrefixOf (c :: cs) = true
      · rw [if_pos hp] at h
        omega
      · rw [if_neg hp, Nat.zero_add] at h
        cases skip with
        | succ skip => exact ih h
        | zero =>
            have hrest : replacedCount needle 0 cs = 0 ∧ ∀ r, replaceEvery needle r 0 cs = cs.drop 0 := ih h
            rw [replacedCount, if_neg hp]
            refine ⟨hrest.1, fun r => ?_⟩
            rw [replaceEvery, if_neg hp, hrest.2 r]
            rfl

theorem replacedCount_pos (h : 0 < occurrences needle text) : 0 < replacedCount needle 0 text := by
  induction text with
  | nil => cases h
  | cons c cs ih =>
      rw [occurrences] at h
      rw [replacedCount]
      split
      · exact Nat.succ_pos _
      · rename_i hp
        rw [if_neg hp, Nat.zero_add] at h
        exact ih h

/-- The only occurrence is replaced by what the dollar patterns of the replacement stand for there. -/
theorem replaceFirst_of_one (hne : needle ≠ []) (h : occurrences needle text = 1) (before : JsString) :
    replacedCount needle 0 text = 1 ∧ ∃ pre post, text = pre ++ needle ++ post ∧
      replaceFirst needle replacement before text =
        before ++ replaceEvery needle (expandReplacement needle (before ++ pre) post replacement) 0 text := by
  induction text generalizing before with
  | nil => cases h
  | cons c cs ih =>
      rw [occurrences] at h
      by_cases hp : needle.isPrefixOf (c :: cs) = true
      · rw [if_pos hp] at h
        have hzero : occurrences needle cs = 0 := by omega
        obtain ⟨post, hpost⟩ := List.isPrefixOf_iff_prefix.mp hp
        obtain ⟨d, needle', rfl⟩ := List.exists_cons_of_ne_nil hne
        obtain ⟨hcount, hevery⟩ : replacedCount (d :: needle') ((d :: needle').length - 1) cs = 0 ∧
            ∀ r, replaceEvery (d :: needle') r ((d :: needle').length - 1) cs =
              cs.drop ((d :: needle').length - 1) := occurrences_eq_zero hzero
        have hdrop : (c :: cs).drop (d :: needle').length = post := by
          rw [← hpost, List.drop_left]
        refine ⟨?_, [], post, by rw [List.nil_append, hpost], ?_⟩
        · rw [replacedCount, if_pos hp, hcount]
        · rw [replaceFirst, if_pos hp, replaceEvery, if_pos hp, hevery]
          simp only [hdrop, List.append_nil, ← List.append_assoc]
          congr 1
          exact hdrop.symm
      · rw [if_neg hp, Nat.zero_add] at h
        obtain ⟨hcount, pre, post, htext, hfirst⟩ := ih h (before ++ [c])
        refine ⟨?_, c :: pre, post, by rw [htext]; rfl, ?_⟩
        · rw [replacedCount, if_neg hp, hcount]
        · rw [replaceFirst, if_neg hp, hfirst, replaceEvery, if_neg hp, List.append_assoc, List.append_assoc]
          rfl

theorem occurrences_append_pos (hne : needle ≠ []) (pre post : JsString) :
    0 < occurrences needle (pre ++ needle ++ post) := by
  induction pre with
  | nil =>
      obtain ⟨d, needle', rfl⟩ := List.exists_cons_of_ne_nil hne
      have hp : (d :: needle').isPrefixOf (d :: (needle' ++ post)) = true :=
        List.isPrefixOf_iff_prefix.mpr ⟨post, rfl⟩
      simp only [List.nil_append, List.cons_append, occurrences, hp, if_true]
      omega
  | cons c pre ih =>
      simp only [List.cons_append, occurrences] at ih ⊢
      omega

/-- A text with one occurrence has one place for it. -/
theorem one_place (hne : needle ≠ []) {pre pre' post post' : JsString}
    (h : occurrences needle (pre ++ needle ++ post) = 1)
    (heq : pre ++ needle ++ post = pre' ++ needle ++ post') : pre = pre' ∧ post = post' := by
  have key : ∀ {pre pre' post post' : JsString}, occurrences needle (pre ++ needle ++ post) = 1 →
      pre ++ needle ++ post = pre' ++ needle ++ post' → pre = pre' := by
    intro pre
    induction pre with
    | nil =>
        intro pre' post post' h heq
        cases pre' with
        | nil => rfl
        | cons c pre' =>
            have hlater := occurrences_append_pos hne pre' post'
            have hp : needle.isPrefixOf (c :: (pre' ++ needle ++ post')) = true :=
              List.isPrefixOf_iff_prefix.mpr ⟨post, heq⟩
            rw [heq, List.cons_append, List.cons_append, occurrences, if_pos hp] at h
            omega
    | cons c pre ih =>
        intro pre' post post' h heq
        cases pre' with
        | nil =>
            have hlater := occurrences_append_pos hne pre post
            have hp : needle.isPrefixOf (c :: (pre ++ needle ++ post)) = true :=
              List.isPrefixOf_iff_prefix.mpr ⟨post', heq.symm⟩
            rw [List.cons_append, List.cons_append, occurrences, if_pos hp] at h
            omega
        | cons d pre' =>
            rw [List.cons_append, List.cons_append, List.cons_append, List.cons_append] at heq
            obtain ⟨rfl, htail⟩ := List.cons.inj heq
            have hlater := occurrences_append_pos hne pre post
            rw [List.cons_append, List.cons_append, occurrences] at h
            have hone : occurrences needle (pre ++ needle ++ post) = 1 := by
              split at h <;> omega
            rw [ih hone htail]
  obtain rfl := key h heq
  exact ⟨rfl, List.append_cancel_left heq⟩

/-- Two occurrences share a unit of the text. -/
def Overlap (needle text : JsString) : Prop :=
  ∃ i j, i < j ∧ j < i + needle.length ∧ needle <+: text.drop i ∧ needle <+: text.drop j

theorem replacedCount_skip (skip : Nat) (text : JsString) :
    replacedCount needle skip text = replacedCount needle 0 (text.drop skip) := by
  induction skip generalizing text with
  | zero => rfl
  | succ skip ih =>
      cases text with
      | nil => rfl
      | cons c cs => exact ih cs

/-- What is left out before `k` are the occurrences that start there. -/
theorem occurrences_drop (hne : needle ≠ []) (k : Nat) (text : JsString) :
    occurrences needle (text.drop k) ≤ occurrences needle text ∧
      (occurrences needle text = occurrences needle (text.drop k) ↔ ∀ i < k, ¬ needle <+: text.drop i) := by
  induction k generalizing text with
  | zero => simp
  | succ k ih =>
      cases text with
      | nil => simp [hne]
      | cons c cs =>
          obtain ⟨hle, hiff⟩ := ih cs
          rw [List.drop_succ_cons, occurrences]
          by_cases hp : needle.isPrefixOf (c :: cs) = true
          · rw [if_pos hp]
            refine ⟨by omega, iff_of_false (by omega) fun h => ?_⟩
            exact h 0 (Nat.succ_pos k) (List.isPrefixOf_iff_prefix.mp hp)
          · rw [if_neg hp, Nat.zero_add, hiff]
            refine ⟨hle, fun h i hi => ?_, fun h i hi => h (i + 1) (Nat.succ_lt_succ hi)⟩
            cases i with
            | zero => exact fun hpre => hp (List.isPrefixOf_iff_prefix.mpr hpre)
            | succ i => exact h i (Nat.lt_of_succ_lt_succ hi)

/-- All occurrences are replaced exactly when no two overlap. -/
theorem occurrences_eq_replacedCount (hne : needle ≠ []) (text : JsString) :
    replacedCount needle 0 text ≤ occurrences needle text ∧
      (occurrences needle text = replacedCount needle 0 text ↔ ¬ Overlap needle text) := by
  have hpos : 0 < needle.length := List.length_pos_iff.mpr hne
  induction hn : text.length using Nat.strong_induction_on generalizing text with
  | _ n ih =>
      cases text with
      | nil =>
          refine ⟨le_refl _, iff_of_true rfl ?_⟩
          rintro ⟨i, j, -, -, hi, -⟩
          rw [List.drop_nil, List.prefix_nil] at hi
          exact hne hi
      | cons c cs =>
          rw [occurrences, replacedCount]
          by_cases hp : needle.isPrefixOf (c :: cs) = true
          · rw [if_pos hp, if_pos hp, replacedCount_skip]
            obtain ⟨hle, hiff⟩ := ih _ (by rw [← hn, List.length_drop, List.length_cons]; omega)
              (cs.drop (needle.length - 1)) rfl
            obtain ⟨hle', hiff'⟩ := occurrences_drop hne (needle.length - 1) cs
            refine ⟨by omega, ?_⟩
            have hboth : 1 + occurrences needle cs = replacedCount needle 0 (cs.drop (needle.length - 1)) + 1 ↔
                occurrences needle cs = occurrences needle (cs.drop (needle.length - 1)) ∧
                  occurrences needle (cs.drop (needle.length - 1)) =
                    replacedCount needle 0 (cs.drop (needle.length - 1)) := by omega
            rw [hboth, hiff, hiff']
            have hshift : ∀ i, (c :: cs).drop (i + needle.length) = (cs.drop (needle.length - 1)).drop i := by
              intro i
              rw [List.drop_drop]
              have hsucc : i + needle.length = (needle.length - 1 + i) + 1 := by omega
              rw [hsucc, List.drop_succ_cons]
            constructor
            · rintro ⟨hnear, hrest⟩ ⟨i, j, hij, hj, hi, hjm⟩
              rcases Nat.lt_or_ge i needle.length with hlt | hge
              · -- one of the two starts within the first occurrence
                cases i with
                | zero =>
                    cases j with
                    | zero => exact absurd hij (Nat.lt_irrefl 0)
                    | succ j => exact hnear j (by omega) hjm
                | succ i => exact hnear i (by omega) hi
              · obtain ⟨i', rfl⟩ := Nat.exists_eq_add_of_le' hge
                obtain ⟨j', rfl⟩ := Nat.exists_eq_add_of_le' (hge.trans hij.le)
                rw [hshift] at hi hjm
                exact hrest ⟨i', j', by omega, by omega, hi, hjm⟩
            · intro hno
              refine ⟨fun i hi him => hno ⟨0, i + 1, Nat.succ_pos i, by omega, ?_, him⟩, ?_⟩
              · exact List.isPrefixOf_iff_prefix.mp hp
              · rintro ⟨i, j, hij, hj, hi, hjm⟩
                rw [← hshift] at hi hjm
                exact hno ⟨i + needle.length, j + needle.length, by omega, by omega, hi, hjm⟩
          · rw [if_neg hp, if_neg hp, Nat.zero_add]
            obtain ⟨hle, hiff⟩ := ih cs.length (by rw [← hn]; exact Nat.lt_succ_self _) cs rfl
            refine ⟨hle, hiff.trans (not_congr ?_)⟩
            constructor
            · rintro ⟨i, j, hij, hj, hi, hjm⟩
              exact ⟨i + 1, j + 1, by omega, by omega, hi, hjm⟩
            · rintro ⟨i, j, hij, hj, hi, hjm⟩
              cases i with
              | zero => exact absurd (List.isPrefixOf_iff_prefix.mpr hi) hp
              | succ i =>
                  cases j with
                  | zero => exact absurd hij (Nat.not_lt_zero _)
                  | succ j => exact ⟨i, j, by omega, by omega, hi, hjm⟩

theorem replaceEvery_no_cr {r : JsString} (ht : 13 ∉ text) (hr : 13 ∉ r) :
    13 ∉ replaceEvery needle r skip text := by
  induction text generalizing skip with
  | nil => cases skip <;> simp [replaceEvery]
  | cons c cs ih =>
      rw [List.mem_cons, not_or] at ht
      cases skip with
      | succ skip => exact ih ht.2
      | zero =>
          rw [replaceEvery]
          split
          · rw [List.mem_append, not_or]
            exact ⟨hr, ih ht.2⟩
          · rw [List.mem_cons, not_or]
            exact ⟨ht.1, ih ht.2⟩

theorem expandReplacement_no_cr {matched before after r : JsString} (hm : 13 ∉ matched) (hb : 13 ∉ before)
    (ha : 13 ∉ after) (hr : 13 ∉ r) : 13 ∉ expandReplacement matched before after r := by
  fun_induction expandReplacement matched before after r <;> simp_all [unit]

end WrongStack.Utils
