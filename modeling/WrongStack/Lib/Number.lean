import Mathlib.Algebra.Order.Field.Power
import Mathlib.Algebra.Order.Ring.Rat
import Mathlib.Data.Int.Log
import Mathlib.Data.Int.Order.Basic
import Mathlib.Data.Nat.Cast.Order.Ring
import Mathlib.Data.Rat.Defs
import Mathlib.Data.Rat.Floor
import Mathlib.Tactic.Positivity
import WrongStack.Lib.JsString

/-!
# Numbers as they are printed

A number is given by the decimal text that the language prints for it: digits, a fraction, an exponent.
-/

namespace WrongStack.Lib

structure Decimal where
  mantissa : Int
  exponent : Int
  deriving DecidableEq

namespace Decimal

def natural (digits : JsString) : Nat := digits.foldl (fun n c => 10 * n + (c.toNat - 48)) 0

def integer : JsString → Int
  | [] => 0
  | c :: digits =>
      if c = unit '-' then - natural digits
      else if c = unit '+' then natural digits
      else natural (c :: digits)

/-- The part without a sign. -/
def magnitude (text : JsString) : Decimal :=
  let whole := text.takeWhile isDigit
  let rest := text.dropWhile isDigit
  let fraction := match rest with
    | c :: rest => if c = unit '.' then rest.takeWhile isDigit else []
    | [] => []
  let exponent := match rest.dropWhile (· != unit 'e') with
    | _ :: exponent => integer exponent
    | [] => 0
  { mantissa := natural (whole ++ fraction), exponent := exponent - fraction.length }

def parse : JsString → Decimal
  | [] => ⟨0, 0⟩
  | c :: text =>
      if c = unit '-' then { magnitude text with mantissa := - (magnitude text).mantissa }
      else magnitude (c :: text)

/-- The mantissa at a smaller exponent. -/
def scaled (d : Decimal) (exponent : Int) : Int := d.mantissa * Nat.pow 10 (d.exponent - exponent).toNat

/-- `a >= b` -/
def ge (a b : JsString) : Bool :=
  let a := parse a
  let b := parse b
  decide (b.scaled (min a.exponent b.exponent) ≤ a.scaled (min a.exponent b.exponent))

end Decimal

/-!
# Numbers of JavaScript as bounds

Any number that a count is compared with: also `NaN`, for which every comparison is false, and the infinities.
-/

inductive JsNumber
  | nan
  | negInfinity
  | finite (q : ℚ)
  | infinity
  deriving DecidableEq

namespace JsNumber

/-- `n < b` -/
def below (n : Nat) : JsNumber → Bool
  | nan => false
  | negInfinity => false
  | finite q => n < q
  | infinity => true

/-- `n >= b` -/
def reaches (n : Nat) : JsNumber → Bool
  | nan => false
  | negInfinity => true
  | finite q => q ≤ n
  | infinity => false

/-- `n <= b` -/
def covers (n : Nat) : JsNumber → Bool
  | nan => false
  | negInfinity => false
  | finite q => n ≤ q
  | infinity => true

/-- `a > b` -/
def exceeds : JsNumber → JsNumber → Bool
  | finite a, finite b => b < a
  | infinity, finite _ | infinity, negInfinity | finite _, negInfinity => true
  | _, _ => false

theorem reaches_eq_not_below {b : JsNumber} (hb : b ≠ nan) (n : Nat) : b.reaches n = !b.below n := by
  cases b with
  | nan => exact absurd rfl hb
  | negInfinity => rfl
  | infinity => rfl
  | finite q =>
      simp only [reaches, below]
      rw [← decide_not]
      exact decide_eq_decide.mpr not_lt.symm

@[simp] theorem below_natCast {n b : Nat} : below n (finite b) = true ↔ n < b := by
  simp only [below, Nat.cast_lt, decide_eq_true_eq]

@[simp] theorem reaches_natCast {n b : Nat} : reaches n (finite b) = true ↔ b ≤ n := by
  simp only [reaches, Nat.cast_le, decide_eq_true_eq]

end JsNumber

/-!
# Arithmetic in double precision

A finite double is the rational number it stands for. Sums and texts are rounded to the nearest one, halfway cases to
the even one; numbers past the largest double are not told from it.
-/

namespace Double

/-- The nearest integer, of two the even one. -/
def nearest (q : ℚ) : ℤ :=
  let n := q.floor
  if q - n < 1 / 2 then n
  else if 1 / 2 < q - n then n + 1
  else if n % 2 = 0 then n else n + 1

/-- How far the doubles next to `q` are apart. -/
def spacing (q : ℚ) : ℚ := 2 ^ max (Int.log 2 |q| - 52) (-1074)

def round (q : ℚ) : ℚ := nearest (q / spacing q) * spacing q

/-- `Number(text)` -/
def ofText (text : JsString) : ℚ :=
  let d := Decimal.parse text
  round (d.mantissa * 10 ^ d.exponent)

/-! ## Rounding -/

theorem floor_le_nearest (q : ℚ) : q.floor ≤ nearest q := by
  unfold nearest
  simp only
  split
  · exact le_refl _
  · split
    · omega
    · split <;> omega

theorem le_nearest {n : ℤ} {q : ℚ} (h : (n : ℚ) ≤ q) : n ≤ nearest q :=
  (Rat.le_floor_iff.mpr h).trans (floor_le_nearest q)

theorem spacing_pos (q : ℚ) : 0 < spacing q := by
  unfold spacing
  positivity

/-- Rounding does not go below an integer that is a double. -/
theorem natCast_le_round {k : ℕ} {q : ℚ} (hk : k ≤ 2 ^ 53) (h : (k : ℚ) ≤ q) : (k : ℚ) ≤ round q := by
  rcases Nat.eq_zero_or_pos k with rfl | hpos
  · have hn : 0 ≤ nearest (q / spacing q) := le_nearest (by
      rw [Int.cast_zero]
      exact div_nonneg (by simpa using h) (spacing_pos q).le)
    rw [Nat.cast_zero]
    exact mul_nonneg (by exact_mod_cast hn) (spacing_pos q).le
  · have hone : (1 : ℚ) ≤ q := le_trans (by exact_mod_cast hpos) h
    have hq : 0 < q := lt_of_lt_of_le one_pos hone
    have hexp : (0 : ℤ) ≤ Int.log 2 q := by
      rw [← Int.zpow_le_iff_le_log (by norm_num) hq]
      simpa using hone
    have hspacing : spacing q = 2 ^ (Int.log 2 q - 52) := by
      rw [spacing, abs_of_pos hq, max_eq_left (by omega)]
    -- a multiple of the spacing between the integer and `q`
    have hmultiple : ∃ m : ℤ, (k : ℚ) ≤ m * spacing q ∧ m * spacing q ≤ q := by
      rw [hspacing]
      by_cases hlog : Int.log 2 q ≤ 52
      · refine ⟨k * 2 ^ (52 - Int.log 2 q).toNat, ?_⟩
        have hexact : ((k * 2 ^ (52 - Int.log 2 q).toNat : ℤ) : ℚ) * 2 ^ (Int.log 2 q - 52) = k := by
          have hpow : ((2 : ℚ) ^ (52 - Int.log 2 q).toNat) = 2 ^ (52 - Int.log 2 q) := by
            rw [← zpow_natCast, Int.toNat_of_nonneg (by omega)]
          push_cast
          rw [hpow, mul_assoc, ← zpow_add₀ (by norm_num)]
          simp
        rw [hexact]
        exact ⟨le_refl _, h⟩
      · refine ⟨2 ^ 52, ?_⟩
        have hexact : ((2 ^ 52 : ℤ) : ℚ) * 2 ^ (Int.log 2 q - 52) = 2 ^ Int.log 2 q := by
          have hpow : ((2 ^ 52 : ℤ) : ℚ) = (2 : ℚ) ^ (52 : ℤ) := by norm_num
          rw [hpow, ← zpow_add₀ (by norm_num)]
          congr 1
          omega
        rw [hexact]
        refine ⟨?_, Int.zpow_log_le_self (by norm_num) hq⟩
        have hbig : (2 : ℚ) ^ (53 : ℤ) ≤ 2 ^ Int.log 2 q := zpow_le_zpow_right₀ (by norm_num) (by omega)
        refine le_trans ?_ hbig
        exact_mod_cast hk
    obtain ⟨m, hm, hmq⟩ := hmultiple
    refine hm.trans ?_
    unfold round
    refine mul_le_mul_of_nonneg_right ?_ (spacing_pos q).le
    exact_mod_cast le_nearest ((le_div_iff₀ (spacing_pos q)).mpr hmq)

example : round (5 / 2) = 5 / 2 := by decide +kernel

end Double

end WrongStack.Lib
