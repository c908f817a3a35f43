import WrongStack.Lib.JsonParse
import WrongStack.Sse.Parser

/-!
# Where a payload is cut

The scan of `findJsonSafeSplit` keeps the mode of the text that is decoded from the bytes, so a cut that it
calls safe is between two tokens. Only a cut at the byte limit can be inside one.
-/

namespace WrongStack.Sse

open Lib JsString Utf8 JsonParse

variable {m : Mode} {c : CodeUnit} {b : UInt8} {seq : Option Sequence} {bytes rest : Bytes}

/-! ## The mode after some bytes -/

/-- After a code unit beyond ASCII. -/
def modeHigh : Mode → Mode
  | .between | .word => .word
  | .string | .escape => .string

def stepByte (m : Mode) (b : UInt8) : Mode := if b.toNat < 0x80 then m.step b.toUInt16 else modeHigh m

def afterBytes (m : Mode) (bytes : Bytes) : Mode := bytes.foldl stepByte m

/-- A cut before `rest` is inside a token. -/
def splitsBytes (m : Mode) (rest : Bytes) : Bool :=
  match m with
  | .between => false
  | .word => rest.head?.any fun b => !isDelimiter b.toUInt16
  | .string | .escape => true

theorem modeHigh_modeHigh (m : Mode) : modeHigh (modeHigh m) = modeHigh m := by cases m <;> rfl

theorem isDelimiter_low (h : isDelimiter c = true) : c < 0x80 := by
  simp only [isDelimiter, isWhitespace, isPunctuation, Bool.or_eq_true, beq_iff_eq, List.contains_eq_mem,
    decide_eq_true_eq] at h
  rcases h with ((((rfl | rfl) | rfl) | rfl) | rfl) | h
  · decide
  · decide
  · decide
  · decide
  · decide
  · have hall : (js "[]\x7b\x7d:,").all (fun d => decide (d < 0x80)) = true := by decide +kernel
    exact of_decide_eq_true (List.all_eq_true.mp hall c h)

theorem not_delimiter_high (h : 0x80 ≤ c) : isDelimiter c = false := by
  cases hdelim : isDelimiter c with
  | false => rfl
  | true => exact absurd (isDelimiter_low hdelim) (UInt16.not_lt.mpr h)

theorem step_high (h : 0x80 ≤ c) : m.step c = modeHigh m := by
  have hdelim := not_delimiter_high h
  simp only [isDelimiter, Bool.or_eq_false_iff, beq_eq_false_iff_ne, ne_eq] at hdelim
  have hslash : c ≠ unit '\\' := by
    rintro rfl
    exact absurd h (by decide)
  cases m <;> simp [Mode.step, modeHigh, hdelim.1.1, hdelim.1.2, hdelim.2, hslash]

theorem after_high {text : JsString} (hne : text ≠ []) (h : ∀ c ∈ text, 0x80 ≤ c) : m.after text = modeHigh m := by
  induction text generalizing m with
  | nil => cases hne rfl
  | cons c text ih =>
      obtain ⟨hc, htext⟩ := List.forall_mem_cons.mp h
      have hstep : m.after (c :: text) = (modeHigh m).after text := by
        rw [← step_high hc]
        rfl
      rw [hstep]
      cases text with
      | nil => rfl
      | cons d text => rw [ih (by simp) htext, modeHigh_modeHigh]

theorem after_append (m : Mode) (s t : JsString) : m.after (s ++ t) = (m.after s).after t := List.foldl_append

/-- The mode with what a sequence that has begun will give. -/
def withSequence (seq : Option Sequence) (m : Mode) : Mode := if seq.isSome then modeHigh m else m

/-- What is decoded from a byte changes the mode as the byte does. -/
theorem withSequence_next (hseq : ∀ q ∈ seq, q.Proper) :
    withSequence (next seq b.toNat).2 (m.after (next seq b.toNat).1) = stepByte (withSequence seq m) b := by
  unfold stepByte
  split
  · rename_i hlow
    cases seq with
    | none =>
        rw [next, begin_ascii hlow]
        simp [withSequence, Mode.after]
    | some q =>
        have hnot : ¬ (q.lower ≤ b.toNat ∧ b.toNat ≤ q.upper) := by
          have := (hseq q rfl).bounds.1
          omega
        have hreplaced : m.step 0xFFFD = modeHigh m := step_high (by decide)
        simp only [next, if_neg hnot, begin_ascii hlow, replacement]
        simp [withSequence, Mode.after, hreplaced]
  · rename_i hhigh
    obtain ⟨hunits, hproper⟩ := next_high hseq (Nat.not_lt.mp hhigh)
    have htarget : modeHigh (withSequence seq m) = modeHigh m := by
      cases seq with
      | none => rfl
      | some q => exact modeHigh_modeHigh m
    rw [htarget]
    cases hnone : (next seq b.toNat).1 with
    | nil => exact if_pos (next_isSome (Nat.not_lt.mp hhigh) hnone)
    | cons c units =>
        rw [hnone] at hunits
        rw [after_high (by simp) hunits]
        unfold withSequence
        split
        · exact modeHigh_modeHigh m
        · rfl

theorem after_decodeFrom (hseq : ∀ q ∈ seq, q.Proper) (bytes : Bytes) :
    m.after (decodeFrom seq bytes) = afterBytes (withSequence seq m) bytes := by
  induction bytes generalizing seq m with
  | nil =>
      cases seq with
      | none => rfl
      | some q => exact step_high (by decide)
  | cons b bytes ih =>
      have hproper : ∀ q ∈ (next seq b.toNat).2, q.Proper := proper_next hseq
      rw [decodeFrom, after_append, ih hproper, withSequence_next hseq]
      rfl

theorem after_decode (m : Mode) (bytes : Bytes) : m.after (decodeFrom none bytes) = afterBytes m bytes :=
  after_decodeFrom (by rintro _ ⟨⟩) bytes

theorem splits_decode (m : Mode) (bytes : Bytes) : m.splits (decodeFrom none bytes) = splitsBytes m bytes := by
  cases m with
  | between => rfl
  | string => rfl
  | escape => rfl
  | word =>
      cases bytes with
      | nil => rfl
      | cons b bytes =>
          by_cases hlow : b.toNat < 0x80
          · rw [decodeFrom_cons_ascii hlow]
            rfl
          · obtain ⟨c, text, htext, hc⟩ := decodeFrom_cons_high (Nat.not_lt.mp hlow) bytes
            have hb : (0x80 : CodeUnit) ≤ b.toUInt16 := by
              rw [UInt16.le_iff_toNat_le, UInt8.toNat_toUInt16]
              exact Nat.not_lt.mp hlow
            simp [htext, Mode.splits, splitsBytes, not_delimiter_high hc, not_delimiter_high hb]

theorem decodeFrom_ne_nil (h : bytes ≠ []) : decodeFrom none bytes ≠ [] := by
  obtain ⟨b, rest, rfl⟩ := List.exists_cons_of_ne_nil h
  by_cases hlow : b.toNat < 0x80
  · rw [decodeFrom_cons_ascii hlow]
    simp
  · obtain ⟨c, text, htext, -⟩ := decodeFrom_cons_high (Nat.not_lt.mp hlow) rest
    simp [htext]

/-- A mode that a sequence leaves is not the one between two tokens. -/
theorem emit_of_between (h : afterBytes m bytes = .between) : (emit none bytes).2 = none := by
  cases hseq : (emit none bytes).2 with
  | none => rfl
  | some q =>
      have hhigh : m.after (decodeFrom none bytes) = modeHigh (m.after (emit none bytes).1) := by
        rw [decodeFrom_eq, hseq, after_append]
        exact step_high (by decide)
      rw [after_decode, h] at hhigh
      cases hmode : m.after (emit none bytes).1 <;> simp [hmode, modeHigh] at hhigh

/-- A cut between two tokens is a cut of the text. -/
theorem decodeFrom_cut (h : splitsBytes (afterBytes m bytes) rest = false) :
    decodeFrom none (bytes ++ rest) = decodeFrom none bytes ++ decodeFrom none rest := by
  cases hmode : afterBytes m bytes with
  | between =>
      have hnone := emit_of_between hmode
      rw [decodeFrom_append, decodeFrom_eq none bytes, hnone]
      simp [decodeFrom]
  | word =>
      rw [hmode] at h
      cases rest with
      | nil => simp [decodeFrom]
      | cons b rest =>
          have hdelim : isDelimiter b.toUInt16 = true := by simpa [splitsBytes] using h
          refine decodeFrom_append_ascii ?_ bytes rest
          have hlow := isDelimiter_low hdelim
          rwa [UInt16.lt_iff_toNat_lt, UInt8.toNat_toUInt16] at hlow
  | string => rw [hmode] at h; cases h
  | escape => rw [hmode] at h; cases h

/-! ## The scan -/

/-- The flags are those of the mode after the bytes that have been scanned, and a position that it keeps is between
two tokens. -/
structure Scanned (s : SplitScan) (bytes : Bytes) : Prop where
  i : s.i = bytes.length
  inString : s.inString = true ↔ afterBytes .between bytes = .string ∨ afterBytes .between bytes = .escape
  escaped : s.escaped = true ↔ afterBytes .between bytes = .escape
  lastSafe : s.lastSafe ≤ bytes.length ∧ (0 < s.lastSafe → afterBytes .between (bytes.take s.lastSafe) = .between)
  lastStringEnd : s.lastStringEnd ≤ bytes.length ∧
    (0 < s.lastStringEnd → afterBytes .between (bytes.take s.lastStringEnd) = .between)

theorem afterBytes_concat (m : Mode) (bytes : Bytes) (b : UInt8) :
    afterBytes m (bytes ++ [b]) = stepByte (afterBytes m bytes) b := by simp [afterBytes]

/-- A position that was kept is kept when another byte has been scanned. -/
theorem kept_concat {n : Nat} (h : n ≤ bytes.length ∧ (0 < n → afterBytes .between (bytes.take n) = .between))
    (b : UInt8) : n ≤ (bytes ++ [b]).length ∧
      (0 < n → afterBytes .between ((bytes ++ [b]).take n) = .between) := by
  rw [List.take_append_of_le_length h.1, List.length_append]
  exact ⟨le_trans h.1 (Nat.le_add_right _ _), h.2⟩

theorem kept_here (h : afterBytes .between (bytes ++ [b]) = .between) :
    bytes.length + 1 ≤ (bytes ++ [b]).length ∧
      (0 < bytes.length + 1 → afterBytes .between ((bytes ++ [b]).take (bytes.length + 1)) = .between) := by
  have hall : (bytes ++ [b]).take (bytes.length + 1) = bytes ++ [b] := List.take_of_length_le (by simp)
  rw [hall]
  exact ⟨by simp, fun _ => h⟩

theorem unit_eq (d : UInt8) (h : c = d.toUInt16) : b.toUInt16 = c ↔ b = d := by
  rw [h]
  exact UInt8.toUInt16_inj

theorem stepByte_escape (b : UInt8) : stepByte .escape b = .string := by
  unfold stepByte
  split <;> rfl

theorem stepByte_string (b : UInt8) : stepByte .string b =
    if b = 0x22 then .between else if b = 0x5c then .escape else .string := by
  unfold stepByte
  split
  · simp only [Mode.step, unit_eq (c := unit '"') 0x22 rfl, unit_eq (c := unit '\\') 0x5c rfl]
  · rename_i hhigh
    have hquote : b ≠ 0x22 := by
      rintro rfl
      exact hhigh (by decide)
    have hslash : b ≠ 0x5c := by
      rintro rfl
      exact hhigh (by decide)
    rw [if_neg hquote, if_neg hslash]
    rfl

theorem stepByte_token (hm : m = .between ∨ m = .word) (b : UInt8) :
    if b = 0x22 then stepByte m b = .string
    else if b = 0x2c || b = 0x7d || b = 0x5d then stepByte m b = .between
    else stepByte m b = .between ∨ stepByte m b = .word := by
  have hsame : stepByte m b = stepByte .between b := by
    rcases hm with rfl | rfl
    · rfl
    · rfl
  rw [hsame]
  split
  · rename_i hquote
    rw [hquote]
    decide
  · rename_i hquote
    split
    · rename_i hsafe
      simp only [Bool.or_eq_true, decide_eq_true_eq] at hsafe
      rcases hsafe with (rfl | rfl) | rfl
      · decide
      · decide
      · decide
    · unfold stepByte
      split
      · simp only [Mode.step, unit_eq (c := unit '"') 0x22 rfl, if_neg hquote]
        split
        · exact .inl rfl
        · split
          · exact .inl rfl
          · exact .inr rfl
      · exact .inr rfl

theorem Scanned.step_token {s : SplitScan} (h : Scanned s bytes)
    (hmode : afterBytes .between bytes = .between ∨ afterBytes .between bytes = .word) (b : UInt8) :
    Scanned (s.step b) (bytes ++ [b]) := by
  obtain ⟨hi, hstring, hescaped, hsafe, hend⟩ := h
  have hlength : s.i + 1 = (bytes ++ [b]).length := by simp [hi]
  have hin : s.inString = false := by
    rcases hmode with hmode | hmode
    · simpa [hmode] using hstring
    · simpa [hmode] using hstring
  have hesc : s.escaped = false := by
    rcases hmode with hmode | hmode
    · simpa [hmode] using hescaped
    · simpa [hmode] using hescaped
  have hafter := stepByte_token hmode b
  rw [← afterBytes_concat] at hafter
  unfold SplitScan.step
  simp only [hin, ↓reduceIte, Bool.false_eq_true]
  by_cases hquote : b = 0x22
  · rw [if_pos hquote] at hafter ⊢
    exact ⟨hlength, by simp [hafter], by simp [hafter, hesc], kept_concat hsafe b, kept_concat hend b⟩
  · rw [if_neg hquote] at hafter ⊢
    by_cases hclose : (b = 0x2c || b = 0x7d || b = 0x5d) = true
    · rw [if_pos hclose] at hafter ⊢
      rw [hi]
      exact ⟨by simp, by simp [hafter], by simp [hafter, hesc], kept_here hafter, kept_concat hend b⟩
    · rw [if_neg hclose] at hafter ⊢
      rcases hafter with hafter | hafter
      · exact ⟨hlength, by simp [hafter], by simp [hafter, hesc], kept_concat hsafe b, kept_concat hend b⟩
      · exact ⟨hlength, by simp [hafter], by simp [hafter, hesc], kept_concat hsafe b, kept_concat hend b⟩

theorem Scanned.step {s : SplitScan} (h : Scanned s bytes) (b : UInt8) : Scanned (s.step b) (bytes ++ [b]) := by
  obtain ⟨hi, hstring, hescaped, hsafe, hend⟩ := h
  have hlength : s.i + 1 = (bytes ++ [b]).length := by simp [hi]
  have hafter := afterBytes_concat .between bytes b
  unfold SplitScan.step
  cases hmode : afterBytes .between bytes with
  | escape =>
      rw [hmode, stepByte_escape] at hafter
      rw [hmode] at hstring hescaped
      have hin : s.inString = true := hstring.mpr (.inr rfl)
      have hesc : s.escaped = true := hescaped.mpr rfl
      simp only [hin, hesc, ↓reduceIte]
      exact ⟨hlength, by simp [hafter], by simp [hafter], kept_concat hsafe b, kept_concat hend b⟩
  | string =>
      rw [hmode, stepByte_string] at hafter
      rw [hmode] at hstring hescaped
      have hin : s.inString = true := hstring.mpr (.inl rfl)
      have hesc : s.escaped = false := by simpa using hescaped
      simp only [hin, hesc, ↓reduceIte, Bool.false_eq_true]
      by_cases hslash : b = 0x5c
      · have hquote : b ≠ 0x22 := by simp [hslash]
        rw [if_neg hquote, if_pos hslash] at hafter
        rw [if_pos hslash]
        exact ⟨hlength, by simp [hafter], by simp [hafter], kept_concat hsafe b, kept_concat hend b⟩
      · rw [if_neg hslash]
        by_cases hquote : b = 0x22
        · rw [if_pos hquote] at hafter
          rw [if_pos hquote, hi]
          exact ⟨by simp, by simp [hafter], by simp [hafter], kept_concat hsafe b, kept_here hafter⟩
        · rw [if_neg hquote, if_neg hslash] at hafter
          rw [if_neg hquote]
          exact ⟨hlength, by simp [hafter], by simp [hafter], kept_concat hsafe b, kept_concat hend b⟩
  | between => exact Scanned.step_token ⟨hi, hstring, hescaped, hsafe, hend⟩ (.inl hmode) b
  | word => exact Scanned.step_token ⟨hi, hstring, hescaped, hsafe, hend⟩ (.inr hmode) b

theorem Scanned.foldl {s : SplitScan} (h : Scanned s bytes) (more : Bytes) :
    Scanned (more.foldl SplitScan.step s) (bytes ++ more) := by
  induction more generalizing s bytes with
  | nil => simpa using h
  | cons b more ih => simpa using ih (h.step b)

theorem Scanned.extend {s : SplitScan} (h : Scanned s bytes) (more : Bytes) :
    ∃ k, Scanned (s.extend more) (bytes ++ more.take k) := by
  induction more generalizing s bytes with
  | nil => exact ⟨0, by simpa [SplitScan.extend] using h⟩
  | cons b more ih =>
      unfold SplitScan.extend
      split
      · obtain ⟨k, hk⟩ := ih (h.step b)
        exact ⟨k + 1, by simpa using hk⟩
      · exact ⟨0, by simpa using h⟩

theorem splitScan_scanned (rest : Bytes) (max : Nat) : ∃ k, Scanned (splitScan rest max) (rest.take k) := by
  have hempty : Scanned {} [] := ⟨rfl, by decide, by decide, ⟨le_rfl, fun h => absurd h (by decide)⟩,
    ⟨le_rfl, fun h => absurd h (by decide)⟩⟩
  have hwindow := hempty.foldl (rest.take max)
  rw [List.nil_append] at hwindow
  unfold splitScan
  dsimp only
  split
  · obtain ⟨k, hk⟩ := hwindow.extend ((rest.drop max).take 4096)
    refine ⟨max + min k 4096, ?_⟩
    rwa [List.take_take, ← List.take_add] at hk
  · exact ⟨max, hwindow⟩

/-- The scan finds no place for a cut, so that the byte limit is one. -/
def atLimit (rest : Bytes) (maxLineBytes : Nat) : Bool :=
  (splitScan rest maxLineBytes).lastSafe = 0 && (splitScan rest maxLineBytes).lastStringEnd = 0

/-- A cut is between two tokens, or at the byte limit. -/
theorem findJsonSafeSplit_cases (rest : Bytes) (max : Nat) :
    (atLimit rest max = false ∧ 0 < findJsonSafeSplit rest max ∧ findJsonSafeSplit rest max ≤ rest.length ∧
      afterBytes .between (rest.take (findJsonSafeSplit rest max)) = .between) ∨
    (atLimit rest max = true ∧ findJsonSafeSplit rest max = min max rest.length) := by
  obtain ⟨k, -, -, -, hsafe, hend⟩ := splitScan_scanned rest max
  have hkept {n : Nat} (hpos : 0 < n)
      (h : n ≤ (rest.take k).length ∧ (0 < n → afterBytes .between ((rest.take k).take n) = .between)) :
      0 < n ∧ n ≤ rest.length ∧ afterBytes .between (rest.take n) = .between := by
    obtain ⟨hle, hbetween⟩ := h
    rw [List.length_take] at hle
    have hmode := hbetween hpos
    rw [List.take_take, min_eq_left (by omega)] at hmode
    exact ⟨hpos, by omega, hmode⟩
  unfold findJsonSafeSplit atLimit
  dsimp only
  by_cases hsafePos : 0 < (splitScan rest max).lastSafe
  · rw [if_pos hsafePos]
    exact .inl ⟨by simp [Nat.ne_of_gt hsafePos], hkept hsafePos hsafe⟩
  · rw [if_neg hsafePos]
    by_cases hendPos : 0 < (splitScan rest max).lastStringEnd
    · rw [if_pos hendPos]
      exact .inl ⟨by simp [Nat.ne_of_gt hendPos], hkept hendPos hend⟩
    · rw [if_neg hendPos]
      exact .inr ⟨by simp [Nat.eq_zero_of_not_pos hsafePos, Nat.eq_zero_of_not_pos hendPos], rfl⟩

/-! ## The pieces -/

/-- No cut at the byte limit is inside a token. The fuel is that of `foldPieces`. -/
def keepsTokens (maxLineBytes : Nat) : Nat → Bytes → Bool
  | 0, _ => true
  | fuel + 1, rest =>
      !(atLimit rest maxLineBytes && maxLineBytes < rest.length &&
          splitsBytes (afterBytes .between (rest.take maxLineBytes)) (rest.drop maxLineBytes)) &&
        keepsTokens maxLineBytes fuel (rest.drop (findJsonSafeSplit rest maxLineBytes))

theorem findJsonSafeSplit_pos {max : Nat} (hmax : 0 < max) (hne : rest ≠ []) : 0 < findJsonSafeSplit rest max := by
  have hlength := List.length_pos_of_ne_nil hne
  rcases findJsonSafeSplit_cases rest max with ⟨-, hpos, -⟩ | ⟨-, hlimit⟩
  · exact hpos
  · rw [hlimit]
    omega

theorem splits_cut (max : Nat) (hmore : rest.drop (findJsonSafeSplit rest max) ≠ []) :
    splitsBytes (afterBytes .between (rest.take (findJsonSafeSplit rest max)))
        (rest.drop (findJsonSafeSplit rest max)) =
      (atLimit rest max && max < rest.length &&
        splitsBytes (afterBytes .between (rest.take max)) (rest.drop max)) := by
  rcases findJsonSafeSplit_cases rest max with ⟨hlimit, -, -, hbetween⟩ | ⟨hlimit, hn⟩
  · rw [hlimit, hbetween]
    rfl
  · have hlt : findJsonSafeSplit rest max < rest.length := by
      by_contra hge
      exact hmore (List.drop_of_length_le (Nat.not_lt.mp hge))
    have hn' : findJsonSafeSplit rest max = max := by omega
    rw [hn'] at hlt ⊢
    simp [hlimit, hlt]

theorem keepsTokens_nil (max fuel : Nat) : keepsTokens max fuel [] = true := by
  induction fuel with
  | zero => rfl
  | succ fuel ih => simp [keepsTokens, ih]

/-- No cut is inside a token when there is nothing after the piece. -/
theorem cut_last {max : Nat} (hlast : rest.drop (findJsonSafeSplit rest max) = []) :
    (atLimit rest max && max < rest.length) = false := by
  rcases findJsonSafeSplit_cases rest max with ⟨hlimit, -⟩ | ⟨-, hn⟩
  · rw [hlimit]
    rfl
  · have hle := List.drop_eq_nil_iff.mp hlast
    have hnot : ¬ max < rest.length := by omega
    simp [hnot]

theorem keepsTokens_succ {max : Nat} (fuel : Nat) (rest : Bytes) : keepsTokens max (fuel + 1) rest =
    (((rest.drop (findJsonSafeSplit rest max)).isEmpty ||
        !splitsBytes (afterBytes .between (rest.take (findJsonSafeSplit rest max)))
          (rest.drop (findJsonSafeSplit rest max))) &&
      keepsTokens max fuel (rest.drop (findJsonSafeSplit rest max))) := by
  by_cases hlast : rest.drop (findJsonSafeSplit rest max) = []
  · rw [keepsTokens, cut_last hlast, hlast]
    rfl
  · rw [keepsTokens, splits_cut max hlast, List.isEmpty_eq_false_iff.mpr hlast, Bool.false_or]

theorem seamless_restart {u : JsString} {us : List JsString} (hu : u ≠ []) (h : m.splits u = false) :
    seamless m (u :: us) = seamless .between (u :: us) := by
  have hafter : m.after u = Mode.between.after u := by
    obtain ⟨c, u, rfl⟩ := List.exists_cons_of_ne_nil hu
    cases m with
    | between => rfl
    | word => rfl
    | string => cases h
    | escape => cases h
  cases us with
  | nil => rfl
  | cons v us => simp only [seamless, hafter]

/-- The pieces of a payload, decoded. -/
def pieceTexts (maxLineBytes : Nat) (payload : Bytes) : List JsString :=
  (foldPieces maxLineBytes payload.length payload).map (decodeFrom none)

theorem foldPieces_nil (max fuel : Nat) : foldPieces max fuel [] = [] := by cases fuel <;> rfl

theorem foldPieces_cons {max fuel : Nat} (hne : rest ≠ []) : foldPieces max (fuel + 1) rest =
    rest.take (findJsonSafeSplit rest max) :: foldPieces max fuel (rest.drop (findJsonSafeSplit rest max)) := by
  rw [foldPieces, if_neg (by simpa using hne)]

section
variable {max fuel : Nat} (hmax : 0 < max)
include hmax

theorem take_ne_nil (hne : rest ≠ []) : rest.take (findJsonSafeSplit rest max) ≠ [] := by
  have hpos := findJsonSafeSplit_pos hmax hne
  simp [hne, Nat.ne_of_gt hpos]

theorem drop_fuel (hne : rest ≠ []) (hfuel : rest.length ≤ fuel + 1) :
    (rest.drop (findJsonSafeSplit rest max)).length ≤ fuel := by
  have hpos := findJsonSafeSplit_pos hmax hne
  rw [List.length_drop]
  omega

theorem ne_nil_of_mem_foldPieces {piece : Bytes} (h : piece ∈ foldPieces max fuel rest) : piece ≠ [] := by
  induction fuel generalizing rest with
  | zero => cases h
  | succ fuel ih =>
      by_cases hne : rest = []
      · rw [hne, foldPieces_nil] at h
        cases h
      · rw [foldPieces_cons hne] at h
        rcases List.mem_cons.mp h with rfl | h
        · exact take_ne_nil hmax hne
        · exact ih h

theorem foldPieces_ne_nil (hne : rest ≠ []) (hfuel : rest.length ≤ fuel) :
    ∃ more pieces, foldPieces max fuel rest = more :: pieces ∧ more ≠ [] ∧ more.head? = rest.head? := by
  cases fuel with
  | zero => exact absurd (List.eq_nil_of_length_eq_zero (Nat.le_zero.mp hfuel)) hne
  | succ fuel =>
      refine ⟨_, _, foldPieces_cons hne, take_ne_nil hmax hne, ?_⟩
      rw [List.head?_take, if_neg (Nat.ne_of_gt (findJsonSafeSplit_pos hmax hne))]

/-- The pieces meet between tokens if the cuts at the byte limit do. -/
theorem seamless_foldPieces (hfuel : rest.length ≤ fuel) :
    seamless .between ((foldPieces max fuel rest).map (decodeFrom none)) = keepsTokens max fuel rest := by
  induction fuel generalizing rest with
  | zero => rfl
  | succ fuel ih =>
      by_cases hne : rest = []
      · rw [hne, foldPieces_nil, keepsTokens_nil]
        rfl
      · have hdrop := drop_fuel hmax hne hfuel
        rw [foldPieces_cons hne, keepsTokens_succ, ← ih hdrop]
        by_cases hlast : rest.drop (findJsonSafeSplit rest max) = []
        · rw [hlast, foldPieces_nil]
          rfl
        · obtain ⟨more, pieces, hpieces, hmore, hhead⟩ := foldPieces_ne_nil hmax hlast hdrop
          have hsplits (m : Mode) : m.splits (decodeFrom none more) =
              splitsBytes m (rest.drop (findJsonSafeSplit rest max)) := by
            rw [splits_decode]
            unfold splitsBytes
            rw [hhead]
          rw [hpieces, List.map_cons, List.map_cons, seamless, after_decode, hsplits,
            List.isEmpty_eq_false_iff.mpr hlast, Bool.false_or]
          cases hcut : splitsBytes (afterBytes .between (rest.take (findJsonSafeSplit rest max)))
              (rest.drop (findJsonSafeSplit rest max)) with
          | true => rfl
          | false => rw [seamless_restart (decodeFrom_ne_nil hmore) (by rw [hsplits, hcut])]

/-- Pieces that meet between tokens are the parts of the text. -/
theorem flatten_foldPieces (hfuel : rest.length ≤ fuel) (h : keepsTokens max fuel rest = true) :
    ((foldPieces max fuel rest).map (decodeFrom none)).flatten = decodeFrom none rest := by
  induction fuel generalizing rest with
  | zero =>
      obtain rfl := List.eq_nil_of_length_eq_zero (Nat.le_zero.mp hfuel)
      rfl
  | succ fuel ih =>
      by_cases hne : rest = []
      · rw [hne, foldPieces_nil]
        rfl
      · rw [keepsTokens_succ] at h
        obtain ⟨hcut, hrest⟩ := Bool.and_eq_true_iff.mp h
        rw [foldPieces_cons hne, List.map_cons, List.flatten_cons, ih (drop_fuel hmax hne hfuel) hrest]
        by_cases hlast : rest.drop (findJsonSafeSplit rest max) = []
        · have hall : rest.take (findJsonSafeSplit rest max) = rest :=
            List.take_of_length_le (List.drop_eq_nil_iff.mp hlast)
          rw [hlast, hall]
          exact List.append_nil _
        · rw [List.isEmpty_eq_false_iff.mpr hlast, Bool.false_or, Bool.not_eq_true'] at hcut
          rw [← decodeFrom_cut hcut, List.take_append_drop]

end

end WrongStack.Sse
