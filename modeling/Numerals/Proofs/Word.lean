import Numerals.Word
import Numerals.Proofs.Integer.Multiplication
import Mathlib.Data.Int.ModEq

/-!
# Arithmetic of 32-bit words

Words are added and multiplied modulo `2 ^ 32`, and each of them stands for the one number of its
class that is in range. A word is the sum of its low half and `2 ^ 16` times its high half. In the
product of two such sums the high halves come with the factor `2 ^ 32`, so that they may be left
out; for the same reason nothing is lost when the sum of the two mixed products wraps around or is
shifted out of its word. Main statement: products, sums, differences and quotients are the words of
the exact results; a carry tells that the exact sum or difference is out of range; of the quotients
only one is.
-/

namespace Numerals.Word

variable {a b c : Int32} {n : ℤ}

/-! ## The word of a number -/

theorem fits_iff : fits n = true ↔ -2 ^ 31 ≤ n ∧ n < 2 ^ 31 := by
  simp only [fits, Bool.and_eq_true, decide_eq_true_iff]
  omega

/-- The word of a number is the only one that is congruent to it. -/
theorem modEq_iff_eq_ofInt : c.toInt ≡ n [ZMOD 2 ^ 32] ↔ c = Int32.ofInt n := by
  have hword : (Int32.ofInt n).toInt ≡ n [ZMOD 2 ^ 32] := by
    rw [Int32.toInt_ofInt]
    exact Int.bmod_emod
  constructor
  · intro h
    have hsame : c.toInt % 2 ^ 32 = (Int32.ofInt n).toInt % 2 ^ 32 := h.trans hword.symm
    have hlow := c.le_toInt
    have hhigh := c.toInt_lt
    have hlow' := (Int32.ofInt n).le_toInt
    have hhigh' := (Int32.ofInt n).toInt_lt
    apply Int32.toInt_inj.mp
    omega
  · rintro rfl
    exact hword

/-! ## Sums and differences -/

theorem carry_overflow_iff : (carry n).overflow = true ↔ n < -2 ^ 31 ∨ 2 ^ 31 - 1 < n := by
  have hflag : (carry n).overflow = true ↔ ¬fits n = true := by simp [carry]
  rw [hflag, fits_iff]
  omega

/-! ## Products of halves -/

theorem low_add_high (u : UInt32) :
    (u &&& (0xffff : UInt32)) + (65536 : UInt32) * (u >>> 16) = u := by
  have hu := u.toNat_lt
  apply UInt32.toNat_inj.mp
  rw [UInt32.toNat_add, UInt32.toNat_mul, Magnitude.toNat_low_half, Magnitude.toNat_high_half]
  change (u.toNat % 2 ^ 16 + 65536 * (u.toNat / 2 ^ 16) % 2 ^ 32) % 2 ^ 32 = u.toNat
  omega

/-- What is shifted out is a multiple of `2 ^ 32`. -/
theorem shift_half (u : UInt32) : u <<< 16 = 65536 * u := by
  have hshift := Magnitude.toNat_shift_half u
  have hlt := (u <<< 16).toNat_lt
  apply UInt32.toNat_inj.mp
  rw [UInt32.toNat_mul]
  change (u <<< 16).toNat = 65536 * u.toNat % 2 ^ 32
  omega

/-- The product of the high halves is missing on the left. -/
theorem halves_mul (low high low' high' : UInt32) :
    low * low' + 65536 * (low * high' + high * low') =
      (low + 65536 * high) * (low' + 65536 * high') := by
  -- the two sides differ by a multiple of `2 ^ 32`, which is zero in the ring of words
  grind

/-- The product put together from halves is the product that wraps around. -/
theorem mul_eq (a b : Int32) : mul a b = a * b := by
  unfold mul
  dsimp only
  rw [shift_half, halves_mul, low_add_high, low_add_high, UInt32.toInt32_mul,
    Int32.toInt32_toUInt32, Int32.toInt32_toUInt32]

theorem mul_eq_ofInt (a b : Int32) : mul a b = Int32.ofInt (a.toInt * b.toInt) := by
  rw [mul_eq, Int32.ofInt_mul, Int32.ofInt_toInt, Int32.ofInt_toInt]

/-! ## Quotients -/

theorem div_eq_ofInt (a b : Int32) : a / b = Int32.ofInt (a.toInt.tdiv b.toInt) := by
  apply Int32.toInt_inj.mp
  rw [Int32.toInt_div, Int32.toInt_ofInt]

/-- The opposite of the least word is the only quotient that is out of range. -/
theorem toInt_div_ne_iff :
    (a / b).toInt ≠ a.toInt.tdiv b.toInt ↔ a.toInt = -2 ^ 31 ∧ b.toInt = -1 := by
  constructor
  · intro hwrap
    constructor
    · by_contra ha
      refine hwrap (Int32.toInt_div_of_ne_left a b ?_)
      rintro rfl
      exact ha Int32.toInt_minValue
    · by_contra hb
      refine hwrap (Int32.toInt_div_of_ne_right a b ?_)
      rintro rfl
      exact hb rfl
  · rintro ⟨ha, hb⟩
    have hquotient := (a / b).toInt_lt
    rw [ha, hb]
    change (a / b).toInt ≠ 2 ^ 31
    omega

/-- The arithmetic of words is that of numbers modulo `2 ^ 32`. The product, the sum and the
difference are the one word that is congruent to the exact result, and a carry is reported exactly
if this result is out of range. There is a quotient by every word but zero: the word that is
congruent to the exact quotient truncated towards zero, and equal to it unless the least word is
divided by -1. -/
theorem arithmetic_modEq (a b c : Int32) :
    (c.toInt ≡ a.toInt * b.toInt [ZMOD 2 ^ 32] ↔ c = mul a b) ∧
    (c.toInt ≡ a.toInt + b.toInt [ZMOD 2 ^ 32] ↔ c = (addCarry a b).value) ∧
    ((addCarry a b).overflow = true ↔
      a.toInt + b.toInt < -2 ^ 31 ∨ 2 ^ 31 - 1 < a.toInt + b.toInt) ∧
    (c.toInt ≡ a.toInt - b.toInt [ZMOD 2 ^ 32] ↔ c = (subCarry a b).value) ∧
    ((subCarry a b).overflow = true ↔
      a.toInt - b.toInt < -2 ^ 31 ∨ 2 ^ 31 - 1 < a.toInt - b.toInt) ∧
    (b ≠ 0 → ∃ q, quot a b = .ok q ∧
      (c.toInt ≡ a.toInt.tdiv b.toInt [ZMOD 2 ^ 32] ↔ c = q) ∧
      (q.toInt ≠ a.toInt.tdiv b.toInt ↔ a.toInt = -2 ^ 31 ∧ b.toInt = -1)) := by
  refine ⟨?_, modEq_iff_eq_ofInt, carry_overflow_iff, modEq_iff_eq_ofInt, carry_overflow_iff, ?_⟩
  · rw [mul_eq_ofInt]
    exact modEq_iff_eq_ofInt
  · intro hb
    refine ⟨a / b, if_neg hb, ?_, toInt_div_ne_iff⟩
    rw [div_eq_ofInt]
    exact modEq_iff_eq_ofInt

/-- The mixed products of -1 with itself do not have room in a word, and the least word has neither
a predecessor nor an opposite. -/
theorem arithmetic_modEq_borders :
    1 = mul (-1) (-1) ∧
    Int32.maxValue = (addCarry Int32.minValue (-1)).value ∧
    (addCarry Int32.minValue (-1)).overflow = true ∧
    -2147483647 = (subCarry Int32.minValue (-1)).value ∧
    ¬(subCarry Int32.minValue (-1)).overflow = true ∧
    (-1 : Int32) ≠ 0 ∧
    ∃ q, quot Int32.minValue (-1) = .ok q ∧ Int32.minValue = q ∧ q.toInt ≠ 2 ^ 31 := by
  have hb : (-1 : Int32) ≠ 0 := by decide
  obtain ⟨hmul, -⟩ := arithmetic_modEq (-1) (-1) 1
  obtain ⟨-, hadd, hcarry, -⟩ := arithmetic_modEq Int32.minValue (-1) Int32.maxValue
  obtain ⟨-, -, -, hsub, hborrow, -⟩ := arithmetic_modEq Int32.minValue (-1) (-2147483647)
  obtain ⟨-, -, -, -, -, hquot⟩ := arithmetic_modEq Int32.minValue (-1) Int32.minValue
  obtain ⟨q, hq, hword, hwrap⟩ := hquot hb
  refine ⟨hmul.mp (by decide), hadd.mp (by decide), hcarry.mpr (by decide), hsub.mp (by decide),
    mt hborrow.mp (by decide), hb, q, hq, hword.mp (by decide), hwrap.mpr (by decide)⟩

end Numerals.Word
