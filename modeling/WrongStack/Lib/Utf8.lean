import Mathlib.Algebra.Group.Nat.Defs
import WrongStack.Lib.JsString

/-!
# UTF-8

`new TextDecoder('utf-8').decode` on a whole byte string: malformed sequences are replaced by U+FFFD and a
byte order mark at the start is dropped. The decoder takes one byte after the other. A buffer's `toString('utf8')`
is `decodeFrom none`, which keeps the mark.
-/

namespace WrongStack.Lib.Utf8

abbrev Bytes := List UInt8

/-- A sequence of which `needed` bytes are still to come, the next of them between `lower` and `upper`. -/
structure Sequence where
  codePoint : Nat
  needed : Nat
  lower : Nat := 0x80
  upper : Nat := 0xBF
  deriving DecidableEq

abbrev Decoded := JsString × Option Sequence

def codeUnits (codePoint : Nat) : JsString :=
  if codePoint < 0x10000 then [codePoint.toUInt16]
  else [(0xD800 + (codePoint - 0x10000) / 0x400).toUInt16, (0xDC00 + (codePoint - 0x10000) % 0x400).toUInt16]

def replacement : JsString := [0xFFFD]

/-- A byte where no sequence has begun. -/
def begin (byte : Nat) : Decoded :=
  if byte < 0x80 then (codeUnits byte, none)
  else if 0xC2 ≤ byte ∧ byte ≤ 0xDF then ([], some { codePoint := byte % 0x20, needed := 1 })
  else if 0xE0 ≤ byte ∧ byte ≤ 0xEF then
    ([], some
      { codePoint := byte % 0x10, needed := 2
        lower := if byte = 0xE0 then 0xA0 else 0x80
        upper := if byte = 0xED then 0x9F else 0xBF })
  else if 0xF0 ≤ byte ∧ byte ≤ 0xF4 then
    ([], some
      { codePoint := byte % 8, needed := 3
        lower := if byte = 0xF0 then 0x90 else 0x80
        upper := if byte = 0xF4 then 0x8F else 0xBF })
  else (replacement, none)

/-- A byte that does not continue the sequence begins another one. -/
def next (seq : Option Sequence) (byte : Nat) : Decoded :=
  match seq with
  | none => begin byte
  | some seq =>
      if seq.lower ≤ byte ∧ byte ≤ seq.upper then
        let codePoint := seq.codePoint * 0x40 + byte % 0x40
        if seq.needed = 1 then (codeUnits codePoint, none)
        else ([], some { codePoint, needed := seq.needed - 1 })
      else (replacement ++ (begin byte).1, (begin byte).2)

def decodeFrom (seq : Option Sequence) : Bytes → JsString
  | [] => if seq.isSome then replacement else []
  | byte :: bytes => (next seq byte.toNat).1 ++ decodeFrom (next seq byte.toNat).2 bytes

/-- A byte order mark is not part of the text. -/
def dropBom : JsString → JsString
  | [] => []
  | c :: text => if c = 0xFEFF then text else c :: text

def decode (bytes : Bytes) : JsString := dropBom (decodeFrom none bytes)

/-! ## ASCII -/

variable {seq : Option Sequence} {bytes : Bytes} {byte : UInt8}

theorem begin_ascii {byte : Nat} (h : byte < 0x80) : begin byte = ([byte.toUInt16], none) := by
  have hsmall : byte < 0x10000 := by omega
  simp only [begin, if_pos h, codeUnits, if_pos hsmall]

/-- A sequence expects no ASCII byte. -/
def Expects (seq : Option Sequence) : Prop := ∀ s ∈ seq, 0x80 ≤ s.lower

theorem expects_begin (byte : Nat) : Expects (begin byte).2 := by
  intro s hs
  unfold begin at hs
  split at hs
  · cases hs
  · split at hs
    · obtain rfl := Option.some.inj hs
      exact le_refl _
    · split at hs
      · obtain rfl := Option.some.inj hs
        dsimp only
        split <;> omega
      · split at hs
        · obtain rfl := Option.some.inj hs
          dsimp only
          split <;> omega
        · cases hs

theorem expects_next (byte : Nat) : Expects (next seq byte).2 := by
  unfold next
  cases seq with
  | none => exact expects_begin byte
  | some seq =>
      dsimp only
      split
      · split
        · intro s hs
          cases hs
        · intro s hs
          obtain rfl := Option.some.inj hs
          exact le_refl _
      · exact expects_begin byte

/-- An ASCII byte at the end is decoded by itself. -/
theorem decodeFrom_concat_ascii (h : byte.toNat < 0x80) (hseq : Expects seq) :
    decodeFrom seq (bytes ++ [byte]) = decodeFrom seq bytes ++ [byte.toUInt16] := by
  induction bytes generalizing seq with
  | nil =>
      cases seq with
      | none => simp [decodeFrom, next, begin_ascii h]
      | some s =>
          have hnot : ¬ (s.lower ≤ byte.toNat ∧ byte.toNat ≤ s.upper) := by
            have := hseq s rfl
            omega
          simp [decodeFrom, next, hnot, begin_ascii h]
  | cons b bytes ih =>
      simp only [List.cons_append, decodeFrom, List.append_assoc]
      rw [ih (expects_next b.toNat)]

theorem decode_concat_ascii (h : byte.toNat < 0x80) :
    decode (bytes ++ [byte]) = decode bytes ++ [byte.toUInt16] := by
  unfold decode
  rw [decodeFrom_concat_ascii h (fun s hs => by cases hs)]
  cases decodeFrom none bytes with
  | nil =>
      have hbom : byte.toUInt16 ≠ 0xFEFF := by
        intro heq
        have := congrArg UInt16.toNat heq
        simp at this
        omega
      simp [dropBom, hbom]
  | cons c text =>
      simp only [List.cons_append, dropBom]
      split <;> rfl

/-! ## Encoding -/

open JsString

def encodePoint (codePoint : Nat) : Bytes :=
  if codePoint < 0x80 then [codePoint.toUInt8]
  else if codePoint < 0x800 then [(0xC0 + codePoint / 0x40).toUInt8, (0x80 + codePoint % 0x40).toUInt8]
  else if codePoint < 0x10000 then
    [(0xE0 + codePoint / 0x1000).toUInt8, (0x80 + codePoint / 0x40 % 0x40).toUInt8, (0x80 + codePoint % 0x40).toUInt8]
  else
    [(0xF0 + codePoint / 0x40000).toUInt8, (0x80 + codePoint / 0x1000 % 0x40).toUInt8,
      (0x80 + codePoint / 0x40 % 0x40).toUInt8, (0x80 + codePoint % 0x40).toUInt8]

theorem toNat_toUInt8 {n : Nat} (h : n < 256) : n.toUInt8.toNat = n := by
  simp [Nat.mod_eq_of_lt h]

variable {s : Sequence} {n codePoint : Nat}

theorem decodeFrom_begin (bytes : Bytes) (hn : n < 256) {seq : Option Sequence} (h : begin n = ([], seq)) :
    decodeFrom none (n.toUInt8 :: bytes) = decodeFrom seq bytes := by
  rw [decodeFrom, next, toNat_toUInt8 hn, h, List.nil_append]

theorem decodeFrom_more (bytes : Bytes) (hn : n < 0x40) (hneeded : s.needed ≠ 1)
    (hbounds : s.lower ≤ 0x80 + n ∧ 0x80 + n ≤ s.upper) :
    decodeFrom (some s) ((0x80 + n).toUInt8 :: bytes) =
      decodeFrom (some { codePoint := s.codePoint * 0x40 + n, needed := s.needed - 1 }) bytes := by
  have hbyte : (0x80 + n) % 0x40 = n := by omega
  rw [decodeFrom, toNat_toUInt8 (by omega)]
  simp only [next, hbounds, and_self, ↓reduceIte, hbyte, hneeded, List.nil_append]

theorem decodeFrom_last (bytes : Bytes) (hn : n < 0x40) (hneeded : s.needed = 1)
    (hbounds : s.lower ≤ 0x80 + n ∧ 0x80 + n ≤ s.upper) :
    decodeFrom (some s) ((0x80 + n).toUInt8 :: bytes) =
      codeUnits (s.codePoint * 0x40 + n) ++ decodeFrom none bytes := by
  have hbyte : (0x80 + n) % 0x40 = n := by omega
  rw [decodeFrom, toNat_toUInt8 (by omega)]
  simp only [next, hbounds, and_self, ↓reduceIte, hbyte, hneeded]

theorem decodeFrom_encodePoint (hmax : codePoint < 0x110000) (hsurrogate : codePoint < 0xD800 ∨ 0xE000 ≤ codePoint)
    (bytes : Bytes) :
    decodeFrom none (encodePoint codePoint ++ bytes) = codeUnits codePoint ++ decodeFrom none bytes := by
  have hlast : codePoint / 0x40 * 0x40 + codePoint % 0x40 = codePoint := by omega
  have hlow : codePoint % 0x40 < 0x40 := by omega
  rw [encodePoint]
  split
  next hone =>
    rw [List.singleton_append, decodeFrom, toNat_toUInt8 (by omega)]
    simp only [next, begin, if_pos hone]
  next hone =>
    split
    next htwo =>
      have hmod : (0xC0 + codePoint / 0x40) % 0x20 = codePoint / 0x40 := by omega
      have hbegin : begin (0xC0 + codePoint / 0x40) = ([], some { codePoint := codePoint / 0x40, needed := 1 }) := by
        rw [begin, if_neg (by omega), if_pos (by omega), hmod]
      rw [List.cons_append, decodeFrom_begin _ (by omega) hbegin, List.singleton_append,
        decodeFrom_last _ hlow rfl ⟨by dsimp only; omega, by dsimp only; omega⟩, hlast]
    next htwo =>
      have hmiddle : codePoint / 0x1000 * 0x40 + codePoint / 0x40 % 0x40 = codePoint / 0x40 := by omega
      split
      next hthree =>
        have hmod : (0xE0 + codePoint / 0x1000) % 0x10 = codePoint / 0x1000 := by omega
        have hbegin : begin (0xE0 + codePoint / 0x1000) =
            ([], some {
              codePoint := codePoint / 0x1000, needed := 2
              lower := if 0xE0 + codePoint / 0x1000 = 0xE0 then 0xA0 else 0x80
              upper := if 0xE0 + codePoint / 0x1000 = 0xED then 0x9F else 0xBF }) := by
          rw [begin, if_neg (by omega), if_neg (by omega), if_pos (by omega), hmod]
        rw [List.cons_append, decodeFrom_begin _ (by omega) hbegin, List.cons_append,
          decodeFrom_more _ (by omega) (by simp) ⟨by dsimp only; split <;> omega, by dsimp only; split <;> omega⟩,
          hmiddle, List.singleton_append,
          decodeFrom_last _ hlow rfl ⟨by dsimp only; omega, by dsimp only; omega⟩, hlast]
      next hthree =>
        have hmod : (0xF0 + codePoint / 0x40000) % 8 = codePoint / 0x40000 := by omega
        have hbegin : begin (0xF0 + codePoint / 0x40000) =
            ([], some {
              codePoint := codePoint / 0x40000, needed := 3
              lower := if 0xF0 + codePoint / 0x40000 = 0xF0 then 0x90 else 0x80
              upper := if 0xF0 + codePoint / 0x40000 = 0xF4 then 0x8F else 0xBF }) := by
          rw [begin, if_neg (by omega), if_neg (by omega), if_neg (by omega), if_pos (by omega), hmod]
        have hsecond : codePoint / 0x40000 * 0x40 + codePoint / 0x1000 % 0x40 = codePoint / 0x1000 := by omega
        rw [List.cons_append, decodeFrom_begin _ (by omega) hbegin, List.cons_append,
          decodeFrom_more _ (by omega) (by simp) ⟨by dsimp only; split <;> omega, by dsimp only; split <;> omega⟩,
          hsecond, List.cons_append,
          decodeFrom_more _ (by omega) (by simp) ⟨by dsimp only; omega, by dsimp only; omega⟩,
          hmiddle, List.singleton_append,
          decodeFrom_last _ hlow rfl ⟨by dsimp only; omega, by dsimp only; omega⟩, hlast]

/-- The code point of a surrogate pair. -/
def pairPoint (hi lo : CodeUnit) : Nat := 0x10000 + (hi.toNat - 0xD800) * 0x400 + (lo.toNat - 0xDC00)

/-- `Buffer.from(text, 'utf8')`. -/
def encode : JsString → Bytes
  | hi :: lo :: rest =>
      if isHighSurrogate hi && isLowSurrogate lo then encodePoint (pairPoint hi lo) ++ encode rest
      else encodePoint (replaceSurrogate hi).toNat ++ encode (lo :: rest)
  | [c] => encodePoint (replaceSurrogate c).toNat
  | [] => []

variable {c hi lo : CodeUnit} {s t : JsString}

theorem isHighSurrogate_iff : isHighSurrogate c = true ↔ 0xD800 ≤ c.toNat ∧ c.toNat < 0xDC00 := by
  simp [isHighSurrogate, UInt16.le_iff_toNat_le, UInt16.lt_iff_toNat_lt]

theorem isLowSurrogate_iff : isLowSurrogate c = true ↔ 0xDC00 ≤ c.toNat ∧ c.toNat < 0xE000 := by
  simp [isLowSurrogate, UInt16.le_iff_toNat_le, UInt16.lt_iff_toNat_lt]

theorem not_surrogate_bounds (h : isSurrogate c = false) : c.toNat < 0xD800 ∨ 0xE000 ≤ c.toNat := by
  have hnot : ¬(isHighSurrogate c = true ∨ isLowSurrogate c = true) := by simpa [isSurrogate] using h
  rw [isHighSurrogate_iff, isLowSurrogate_iff] at hnot
  omega

theorem codeUnits_toNat (c : CodeUnit) : codeUnits c.toNat = [c] := by
  have hsmall := c.toNat_lt
  rw [codeUnits, if_pos hsmall]
  simp

theorem codeUnits_pairPoint (hhi : isHighSurrogate hi = true) (hlo : isLowSurrogate lo = true) :
    codeUnits (pairPoint hi lo) = [hi, lo] := by
  obtain ⟨hhi₁, hhi₂⟩ := isHighSurrogate_iff.mp hhi
  obtain ⟨hlo₁, hlo₂⟩ := isLowSurrogate_iff.mp hlo
  have hhigh : 0xD800 + (pairPoint hi lo - 0x10000) / 0x400 = hi.toNat := by
    unfold pairPoint
    omega
  have hlow : 0xDC00 + (pairPoint hi lo - 0x10000) % 0x400 = lo.toNat := by
    unfold pairPoint
    omega
  rw [codeUnits, if_neg (by unfold pairPoint; omega), hhigh, hlow]
  simp

/-- A surrogate that is not in a pair is read back as U+FFFD. -/
theorem decodeFrom_encode_append (s : JsString) (bytes : Bytes) :
    decodeFrom none (encode s ++ bytes) = toWellFormed s ++ decodeFrom none bytes := by
  have hunit (c : CodeUnit) (bytes : Bytes) :
      decodeFrom none (encodePoint (replaceSurrogate c).toNat ++ bytes) =
        replaceSurrogate c :: decodeFrom none bytes := by
    have hmax := (replaceSurrogate c).toNat_lt
    rw [decodeFrom_encodePoint (by omega) (not_surrogate_bounds (isSurrogate_replaceSurrogate c)), codeUnits_toNat]
    rfl
  fun_induction encode s with
  | case1 hi lo rest hpair ih =>
      obtain ⟨hhi, hlo⟩ := Bool.and_eq_true_iff.mp hpair
      obtain ⟨hhi₁, hhi₂⟩ := isHighSurrogate_iff.mp hhi
      obtain ⟨hlo₁, hlo₂⟩ := isLowSurrogate_iff.mp hlo
      have hmax : pairPoint hi lo < 0x110000 ∧ 0x10000 ≤ pairPoint hi lo := by
        unfold pairPoint
        omega
      rw [List.append_assoc, decodeFrom_encodePoint hmax.1 (.inr (by omega)), codeUnits_pairPoint hhi hlo, ih,
        toWellFormed, if_pos hpair]
      rfl
  | case2 hi lo rest hpair ih => rw [List.append_assoc, hunit, ih, toWellFormed, if_neg hpair]; rfl
  | case3 c => rw [hunit, toWellFormed]; rfl
  | case4 => rfl

theorem encode_cons (h : isSurrogate c = false) (s : JsString) : encode (c :: s) = encodePoint c.toNat ++ encode s := by
  cases s with
  | nil => rw [encode, replaceSurrogate_of_not h, encode, List.append_nil]
  | cons d s =>
      have hhigh : isHighSurrogate c = false := (Bool.or_eq_false_iff.mp h).1
      rw [encode, hhigh, replaceSurrogate_of_not h]
      rfl

/-- What is encoded after a text in which no surrogate stands alone is encoded by itself. -/
theorem encode_append (h : toWellFormed s = s) (t : JsString) : encode (s ++ t) = encode s ++ encode t := by
  fun_induction toWellFormed s with
  | case1 hi lo rest hpair ih =>
      have hrest : toWellFormed rest = rest := by simpa using h
      rw [List.cons_append, List.cons_append, encode, if_pos hpair, ih hrest, encode, if_pos hpair, List.append_assoc]
  | case2 hi lo rest hpair ih =>
      obtain ⟨hhi, hrest⟩ := List.cons.inj h
      have hsurrogate : isSurrogate hi = false := hhi ▸ isSurrogate_replaceSurrogate hi
      rw [List.cons_append, encode_cons hsurrogate, ih hrest, encode_cons hsurrogate, List.append_assoc]
  | case3 c =>
      obtain ⟨hc, -⟩ := List.cons.inj h
      have hsurrogate : isSurrogate c = false := hc ▸ isSurrogate_replaceSurrogate c
      rw [List.singleton_append, encode_cons hsurrogate, encode_cons hsurrogate, encode, List.append_nil]
  | case4 => rfl

/-! ## Bytes that are not ASCII -/

/-- The sequence ends in a code point beyond ASCII, and in one or two code units. -/
structure Sequence.Proper (s : Sequence) : Prop where
  needed : 1 ≤ s.needed ∧ s.needed ≤ 3
  bounds : 0x80 ≤ s.lower ∧ s.upper ≤ 0xBF
  wide : 2 ≤ s.codePoint ∨ 2 ≤ s.needed ∧ (s.codePoint = 1 ∨ 0x90 ≤ s.lower)
  small : s.codePoint < 8 * 0x40 ^ (3 - s.needed)

theorem proper_begin {byte : Nat} {q : Sequence} (h : (begin byte).2 = some q) : q.Proper := by
  unfold begin at h
  split at h
  · cases h
  · split at h
    · rename_i hbyte
      obtain rfl := Option.some.inj h
      refine ⟨by simp, by simp, .inl ?_, ?_⟩ <;> dsimp only <;> omega
    · split at h
      · rename_i hbyte
        obtain rfl := Option.some.inj h
        refine ⟨by simp, ⟨by dsimp only; split <;> omega, by dsimp only; split <;> omega⟩, ?_, by dsimp only; omega⟩
        dsimp only
        by_cases hfirst : byte = 0xE0
        · exact .inr ⟨le_rfl, .inr (by rw [if_pos hfirst]; omega)⟩
        · by_cases hsecond : byte = 0xE1
          · exact .inr ⟨le_rfl, .inl (by omega)⟩
          · exact .inl (by omega)
      · split at h
        · rename_i hbyte
          obtain rfl := Option.some.inj h
          refine ⟨by simp, ⟨by dsimp only; split <;> omega, by dsimp only; split <;> omega⟩, ?_, by dsimp only; omega⟩
          dsimp only
          by_cases hfirst : byte = 0xF0
          · exact .inr ⟨by omega, .inr (by rw [if_pos hfirst])⟩
          · by_cases hsecond : byte = 0xF1
            · exact .inr ⟨by omega, .inl (by omega)⟩
            · exact .inl (by omega)
        · cases h

theorem codeUnits_high {codePoint : Nat} (hlow : 0x80 ≤ codePoint) (hhigh : codePoint < 0x200000) :
    ∀ c ∈ codeUnits codePoint, 0x80 ≤ c := by
  intro c hc
  unfold codeUnits at hc
  split at hc
  · obtain rfl := List.mem_singleton.mp hc
    rw [UInt16.le_iff_toNat_le]
    simp
    omega
  · rw [UInt16.le_iff_toNat_le]
    rcases List.mem_cons.mp hc with rfl | hc
    · simp
      omega
    · obtain rfl := List.mem_singleton.mp hc
      simp
      omega

theorem begin_high {byte : Nat} (h : 0x80 ≤ byte) : ∀ c ∈ (begin byte).1, 0x80 ≤ c := by
  unfold begin
  rw [if_neg (by omega)]
  split
  · simp
  · split
    · simp
    · split
      · simp
      · simp [replacement]

/-- A byte that is not ASCII gives code units beyond ASCII, or a sequence. -/
theorem next_high {seq : Option Sequence} {byte : Nat} (hseq : ∀ q ∈ seq, q.Proper) (h : 0x80 ≤ byte) :
    (∀ c ∈ (next seq byte).1, 0x80 ≤ c) ∧ ∀ q ∈ (next seq byte).2, q.Proper := by
  cases seq with
  | none => exact ⟨begin_high h, fun q hq => proper_begin hq⟩
  | some q =>
      obtain ⟨hneeded, hbounds, hwide, hsmall⟩ := hseq q rfl
      unfold next
      dsimp only
      split
      · rename_i hbyte
        split
        · rename_i hone
          refine ⟨codeUnits_high ?_ ?_, fun q hq => by cases hq⟩
          · omega
          · rw [hone] at hsmall
            omega
        · rename_i hmore
          refine ⟨by simp, fun q' hq => ?_⟩
          obtain rfl := Option.some.inj hq
          refine ⟨by dsimp only; omega, by simp, .inl ?_, ?_⟩
          · dsimp only
            omega
          · dsimp only
            obtain htwo | hthree : q.needed = 2 ∨ q.needed = 3 := by omega
            · rw [htwo] at hsmall ⊢
              omega
            · rw [hthree] at hsmall ⊢
              omega
      · refine ⟨fun c hc => ?_, fun q hq => proper_begin hq⟩
        rcases List.mem_append.mp hc with hc | hc
        · obtain rfl := List.mem_singleton.mp hc
          decide
        · exact begin_high h c hc

theorem codeUnits_ne_nil (codePoint : Nat) : codeUnits codePoint ≠ [] := by
  unfold codeUnits
  split <;> simp

theorem begin_isSome {byte : Nat} (h : 0x80 ≤ byte) (hunits : (begin byte).1 = []) : (begin byte).2.isSome := by
  unfold begin at hunits ⊢
  rw [if_neg (by omega)] at hunits ⊢
  split at hunits
  · rename_i htwo
    rw [if_pos htwo]
    rfl
  · rename_i htwo
    rw [if_neg htwo]
    split at hunits
    · rename_i hthree
      rw [if_pos hthree]
      rfl
    · rename_i hthree
      rw [if_neg hthree]
      split at hunits
      · rename_i hfour
        rw [if_pos hfour]
        rfl
      · cases hunits

/-- A byte that is not ASCII and gives no code unit is part of a sequence that goes on. -/
theorem next_isSome {seq : Option Sequence} {byte : Nat} (h : 0x80 ≤ byte) (hunits : (next seq byte).1 = []) :
    (next seq byte).2.isSome := by
  cases seq with
  | none => exact begin_isSome h hunits
  | some q =>
      unfold next at hunits ⊢
      dsimp only at hunits ⊢
      split at hunits
      · rename_i hbyte
        rw [if_pos hbyte]
        split at hunits
        · exact absurd hunits (codeUnits_ne_nil _)
        · rename_i hmore
          rw [if_neg hmore]
          rfl
      · cases hunits

/-- What is left of a sequence begins with a code unit beyond ASCII. -/
theorem decodeFrom_sequence {q : Sequence} (h : q.Proper) (bytes : Bytes) :
    ∃ c text, decodeFrom (some q) bytes = c :: text ∧ 0x80 ≤ c := by
  induction bytes generalizing q with
  | nil => exact ⟨0xFFFD, [], rfl, by decide⟩
  | cons b bytes ih =>
      rw [decodeFrom]
      by_cases hbyte : q.lower ≤ b.toNat ∧ b.toNat ≤ q.upper
      · by_cases hone : q.needed = 1
        · have hcode : 0x80 ≤ q.codePoint * 0x40 + b.toNat % 0x40 ∧ q.codePoint * 0x40 + b.toNat % 0x40 < 0x200000 := by
            obtain ⟨-, -, hwide, hsmall⟩ := h
            rw [hone] at hsmall
            omega
          have hhigh := codeUnits_high hcode.1 hcode.2
          obtain ⟨c, units, hunits⟩ := List.exists_cons_of_ne_nil (codeUnits_ne_nil (q.codePoint * 0x40 + b.toNat % 0x40))
          refine ⟨c, units ++ decodeFrom none bytes, ?_, hhigh c (by rw [hunits]; exact List.mem_cons_self)⟩
          simp only [next, if_pos hbyte, if_pos hone, hunits, List.cons_append]
        · have hseq : ∀ q' ∈ some q, q'.Proper := by
            rintro _ ⟨⟩
            exact h
          have hproper := (next_high hseq (le_trans h.bounds.1 hbyte.1)).2
          simp only [next, if_pos hbyte, if_neg hone] at hproper ⊢
          exact ih (hproper _ rfl)
      · refine ⟨0xFFFD, (begin b.toNat).1 ++ decodeFrom (begin b.toNat).2 bytes, ?_, by decide⟩
        simp only [next, if_neg hbyte, replacement, List.cons_append, List.nil_append]

/-- Text that begins with a byte beyond ASCII begins with a code unit beyond ASCII. -/
theorem decodeFrom_cons_high {b : UInt8} (h : 0x80 ≤ b.toNat) (bytes : Bytes) :
    ∃ c text, decodeFrom none (b :: bytes) = c :: text ∧ 0x80 ≤ c := by
  have hnone : ∀ q ∈ (none : Option Sequence), q.Proper := by rintro _ ⟨⟩
  have hnext := next_high hnone h
  rw [decodeFrom]
  cases hunits : (next none b.toNat).1 with
  | cons c units => exact ⟨c, _, rfl, hnext.1 c (by rw [hunits]; exact List.mem_cons_self)⟩
  | nil =>
      cases hseq : (next none b.toNat).2 with
      | some q => exact decodeFrom_sequence (hnext.2 q hseq) bytes
      | none => exact absurd (next_isSome h hunits) (by simp [hseq])

theorem decodeFrom_cons_ascii {b : UInt8} (h : b.toNat < 0x80) (bytes : Bytes) :
    decodeFrom none (b :: bytes) = b.toUInt16 :: decodeFrom none bytes := by
  rw [decodeFrom, next, begin_ascii h]
  simp

/-! ## Parts of a text -/

/-- The text of the complete sequences, and the sequence that is not complete. -/
def emit (seq : Option Sequence) : Bytes → Decoded
  | [] => ([], seq)
  | byte :: bytes => ((next seq byte.toNat).1 ++ (emit (next seq byte.toNat).2 bytes).1,
      (emit (next seq byte.toNat).2 bytes).2)

theorem decodeFrom_append (seq : Option Sequence) (a b : Bytes) :
    decodeFrom seq (a ++ b) = (emit seq a).1 ++ decodeFrom (emit seq a).2 b := by
  induction a generalizing seq with
  | nil => rfl
  | cons byte a ih => rw [List.cons_append, decodeFrom, ih, emit, List.append_assoc]

theorem decodeFrom_eq (seq : Option Sequence) (a : Bytes) :
    decodeFrom seq a = (emit seq a).1 ++ decodeFrom (emit seq a).2 [] := by
  rw [← decodeFrom_append, List.append_nil]

theorem proper_next {seq : Option Sequence} (h : ∀ q ∈ seq, q.Proper) {byte : Nat} :
    ∀ q ∈ (next seq byte).2, q.Proper := by
  intro q hq
  by_cases hbyte : 0x80 ≤ byte
  · exact (next_high h hbyte).2 q hq
  · cases seq with
    | none =>
        rw [next, begin_ascii (by omega)] at hq
        cases hq
    | some s =>
        have hnot : ¬ (s.lower ≤ byte ∧ byte ≤ s.upper) := by
          have := (h s rfl).bounds.1
          omega
        simp only [next, if_neg hnot, begin_ascii (Nat.not_le.mp hbyte)] at hq
        cases hq

theorem proper_emit {seq : Option Sequence} (h : ∀ q ∈ seq, q.Proper) (a : Bytes) :
    ∀ q ∈ (emit seq a).2, q.Proper := by
  induction a generalizing seq with
  | nil => exact h
  | cons byte a ih => exact ih (proper_next h)

theorem decodeFrom_append_ascii {b : UInt8} (h : b.toNat < 0x80) (a bytes : Bytes) :
    decodeFrom none (a ++ b :: bytes) = decodeFrom none a ++ decodeFrom none (b :: bytes) := by
  rw [decodeFrom_append, decodeFrom_eq none a, List.append_assoc]
  congr 1
  cases hseq : (emit none a).2 with
  | none => rfl
  | some q =>
      have hnot : ¬ (q.lower ≤ b.toNat ∧ b.toNat ≤ q.upper) := by
        have hnone : ∀ q ∈ (none : Option Sequence), q.Proper := by rintro _ ⟨⟩
        have := (proper_emit hnone a q hseq).bounds.1
        omega
      rw [decodeFrom_cons_ascii h, decodeFrom]
      simp only [next, if_neg hnot, begin_ascii h, decodeFrom, Option.isSome_some, ↓reduceIte]
      simp

/-! ## Decoding part by part -/

/-- The byte begins a sequence, or continues the one that is open. -/
def accepts : Option Sequence → Nat → Bool
  | none, byte => byte < 0x80 || (0xC2 ≤ byte && byte ≤ 0xF4)
  | some seq, byte => seq.lower ≤ byte && byte ≤ seq.upper

/-- The bytes are UTF-8: none is replaced, and the last sequence is complete. -/
def wellFormed (seq : Option Sequence) : Bytes → Bool
  | [] => seq.isNone
  | byte :: bytes => accepts seq byte.toNat && wellFormed (next seq byte.toNat).2 bytes

/-- Each part is decoded by itself. -/
def decodeParts (parts : List Bytes) : JsString := (parts.map (decodeFrom none)).flatten

/-- No part ends inside a character. -/
def Whole (parts : List Bytes) : Prop := ∀ pre, pre <+: parts → (emit none pre.flatten).2 = none

theorem emit_append (seq : Option Sequence) (a b : Bytes) :
    emit seq (a ++ b) = ((emit seq a).1 ++ (emit (emit seq a).2 b).1, (emit (emit seq a).2 b).2) := by
  induction a generalizing seq with
  | nil => rfl
  | cons byte a ih => rw [List.cons_append, emit, ih, emit, List.append_assoc]

theorem wellFormed_rest {seq : Option Sequence} {a b : Bytes} (h : wellFormed seq (a ++ b) = true) :
    wellFormed (emit seq a).2 b = true := by
  induction a generalizing seq with
  | nil => exact h
  | cons byte a ih => exact ih (Bool.and_eq_true_iff.mp h).2

theorem count_codeUnits (codePoint : Nat) : (codeUnits codePoint).count 0xFFFD ≤ 1 := by
  unfold codeUnits
  split
  · exact List.count_le_length
  · have hlow : (0xDC00 + (codePoint - 0x10000) % 0x400).toUInt16 ≠ 0xFFFD := by
      intro heq
      have hnat := congrArg UInt16.toNat heq
      simp at hnat
      omega
    rw [List.count_cons, List.count_singleton, if_neg (by simpa using hlow)]
    split <;> omega

theorem begin_continuation {byte : Nat} (h : 0x80 ≤ byte ∧ byte ≤ 0xBF) : begin byte = (replacement, none) := by
  rw [begin, if_neg (by omega), if_neg (by omega), if_neg (by omega), if_neg (by omega)]

/-- A byte that continues a sequence is replaced where no sequence is open. -/
theorem count_continued {q : Sequence} (hq : q.Proper) {byte : UInt8} {bytes : Bytes}
    (hbyte : q.lower ≤ byte.toNat ∧ byte.toNat ≤ q.upper)
    (hrest : ∀ q : Sequence, q.Proper →
      (decodeFrom (some q) bytes).count 0xFFFD ≤ (decodeFrom none bytes).count 0xFFFD + 1) :
    (decodeFrom (some q) (byte :: bytes)).count 0xFFFD ≤ (decodeFrom none (byte :: bytes)).count 0xFFFD := by
  have hcontinuation : 0x80 ≤ byte.toNat ∧ byte.toNat ≤ 0xBF :=
    ⟨hq.bounds.1.trans hbyte.1, hbyte.2.trans hq.bounds.2⟩
  have hproper : ∀ s ∈ (next (some q) byte.toNat).2, s.Proper := by
    refine proper_next fun s hs => ?_
    cases hs
    exact hq
  have hnone : (decodeFrom none (byte :: bytes)).count 0xFFFD = (decodeFrom none bytes).count 0xFFFD + 1 := by
    rw [decodeFrom, next, begin_continuation hcontinuation, replacement, List.singleton_append, List.count_cons_self]
  rw [hnone, decodeFrom, List.count_append]
  rw [next, if_pos hbyte] at hproper ⊢
  by_cases hneeded : q.needed = 1
  · rw [if_pos hneeded]
    have hunits := count_codeUnits (q.codePoint * 0x40 + byte.toNat % 0x40)
    dsimp only
    omega
  · rw [if_neg hneeded] at hproper ⊢
    have hcount := hrest _ (hproper _ rfl)
    simpa using hcount

/-- To decode from the middle of a sequence costs at most one replacement less. -/
theorem count_decodeFrom_le {q : Sequence} (hq : q.Proper) (bytes : Bytes) :
    (decodeFrom (some q) bytes).count 0xFFFD ≤ (decodeFrom none bytes).count 0xFFFD + 1 := by
  induction bytes generalizing q with
  | nil => exact Nat.le_refl _
  | cons byte bytes ih =>
      by_cases hbyte : q.lower ≤ byte.toNat ∧ byte.toNat ≤ q.upper
      · exact (count_continued hq hbyte fun q hq => ih hq).trans (Nat.le_succ _)
      · have hreplaced : decodeFrom (some q) (byte :: bytes) = 0xFFFD :: decodeFrom none (byte :: bytes) := by
          simp only [decodeFrom, next, if_neg hbyte, replacement, List.cons_append, List.nil_append]
        rw [hreplaced, List.count_cons_self]

theorem proper_emitted (part : Bytes) {q : Sequence} (h : (emit none part).2 = some q) : q.Proper := by
  refine proper_emit ?_ part q h
  intro s hs
  cases hs

theorem decodeParts_cons (part : Bytes) (parts : List Bytes) :
    decodeParts (part :: parts) = decodeFrom none part ++ decodeParts parts := rfl

theorem count_decodeParts (parts : List Bytes) :
    (decodeFrom none parts.flatten).count 0xFFFD ≤ (decodeParts parts).count 0xFFFD := by
  induction parts with
  | nil => exact Nat.le_refl _
  | cons part parts ih =>
      rw [List.flatten_cons, decodeFrom_append, decodeParts_cons, decodeFrom_eq none part, List.count_append,
        List.count_append, List.count_append]
      cases hseq : (emit none part).2 with
      | none =>
          have hend : (decodeFrom none []).count 0xFFFD = 0 := rfl
          omega
      | some q =>
          have hcount := count_decodeFrom_le (proper_emitted part hseq) parts.flatten
          have hend : (decodeFrom (some q) []).count 0xFFFD = 1 := rfl
          omega

/-- Where every part is whole nothing changes; else something more is replaced. -/
theorem decodeParts_cases {parts : List Bytes} (h : wellFormed none parts.flatten = true) :
    (Whole parts ∧ decodeParts parts = decodeFrom none parts.flatten) ∨
      (¬Whole parts ∧ (decodeFrom none parts.flatten).count 0xFFFD < (decodeParts parts).count 0xFFFD) := by
  induction parts with
  | nil =>
      refine .inl ⟨fun pre hpre => ?_, rfl⟩
      rw [List.prefix_nil] at hpre
      rw [hpre]
      rfl
  | cons part parts ih =>
      rw [List.flatten_cons] at h
      have hrest := wellFormed_rest h
      rw [List.flatten_cons, decodeFrom_append, decodeParts_cons, decodeFrom_eq none part]
      cases hseq : (emit none part).2 with
      | none =>
          rw [hseq] at hrest
          have hwhole : Whole (part :: parts) ↔ Whole parts := by
            constructor
            · intro hw pre hpre
              have hemit := hw (part :: pre) (List.cons_prefix_cons.mpr ⟨rfl, hpre⟩)
              rwa [List.flatten_cons, emit_append, hseq] at hemit
            · intro hw pre hpre
              cases pre with
              | nil => rfl
              | cons p pre =>
                  obtain ⟨rfl, htail⟩ := List.cons_prefix_cons.mp hpre
                  rw [List.flatten_cons, emit_append, hseq]
                  exact hw pre htail
          have hend : decodeFrom none [] = [] := rfl
          rw [hwhole, hend, List.append_nil, List.count_append, List.count_append]
          rcases ih hrest with ⟨hw, heq⟩ | ⟨hw, hlt⟩
          · exact .inl ⟨hw, by rw [heq]⟩
          · exact .inr ⟨hw, Nat.add_lt_add_left hlt _⟩
      | some q =>
          refine .inr ⟨fun hw => ?_, ?_⟩
          · have hemit := hw [part] (List.cons_prefix_cons.mpr ⟨rfl, List.nil_prefix⟩)
            rw [List.flatten_singleton, hseq] at hemit
            cases hemit
          · rw [hseq] at hrest
            have hend : decodeFrom (some q) [] = [0xFFFD] := rfl
            rw [hend, List.append_assoc, List.singleton_append, List.count_append, List.count_append,
              List.count_cons_self]
            cases hbytes : parts.flatten with
            | nil =>
                rw [hbytes] at hrest
                cases hrest
            | cons byte bytes =>
                rw [hbytes] at hrest
                obtain ⟨hbyte, -⟩ := Bool.and_eq_true_iff.mp hrest
                rw [accepts, Bool.and_eq_true, decide_eq_true_eq, decide_eq_true_eq] at hbyte
                have hcount := count_continued (proper_emitted part hseq) hbyte
                  (fun q hq => count_decodeFrom_le hq bytes)
                have hparts := count_decodeParts parts
                rw [hbytes] at hparts
                omega

end WrongStack.Lib.Utf8
