import Numerals.Proofs.Integer.Multiplication
import Numerals.Proofs.Integer.Reading

/-!
# Exact powers

A power is either an entry of a table or found by repeated squaring. An entry of the first table is
one bit, and an entry of the second one is ten times the entry before. Repeated squaring goes through
the bits of the exponent from the lowest one on: what it has gathered, times the square it has come
to, raised to the bits that are left, is the power from the beginning to the end. Both ways yield
integers in the unique form, so that they yield the same words where they yield the same number.
Main statement: powers are exact on both ways, and only negative exponents fail.
-/

namespace Numerals.Integer

variable {b : Integer} {n : ℕ}

/-! ## Tables -/

/-- A bit at the position `n` stands in the word `n / 32`, above as many words without bits. -/
theorem toInt_twoPow (n : ℕ) : (twoPow n).toInt = 2 ^ n := by
  have hbit := toNat_bit (Nat.mod_lt n (show 32 > 0 by decide))
  rw [toInt_of_positive rfl, twoPow, Magnitude.toNat_zeros_append, Magnitude.toNat_singleton, hbit,
    ← pow_add, Nat.div_add_mod]
  exact Nat.cast_pow 2 n

theorem toInt_tenPow (n : ℕ) : (tenPow n).toInt = 10 ^ n := by
  induction n with
  | zero => rfl
  | succ n ih =>
    rw [tenPow, toInt_mulWord, ih, pow_succ]
    rfl

/-! ## Repeated squaring -/

/-- One bit of the exponent: an odd exponent multiplies once, and the square is raised to the half.
With no bits left after this one, the square is not needed. -/
theorem square_step (a b : ℤ) (e : ℕ) :
    (if e % 2 = 1 then a * b else a) * (if 1 < e then b * b else b) ^ (e / 2) = a * b ^ e := by
  have hsquare : (if 1 < e then b * b else b) ^ (e / 2) = b ^ (2 * (e / 2)) := by
    split
    · rw [← pow_two, ← pow_mul]
    · have hhalf : e / 2 = 0 := by omega
      rw [hhalf, mul_zero, pow_zero]
  rw [hsquare]
  split
  · rename_i hodd
    rw [mul_assoc, ← pow_succ']
    congr 2
    omega
  · rename_i heven
    congr 2
    omega

theorem toInt_powAcc (acc b : Integer) (e : ℕ) :
    (powAcc acc b e).toInt = acc.toInt * b.toInt ^ e := by
  -- the bits of the exponent that are left are those of its half
  induction e using Nat.strong_induction_on generalizing acc b with
  | h e ih =>
    rw [powAcc]
    split
    · rename_i hzero
      rw [hzero, pow_zero, mul_one]
    · rw [ih (e / 2) (by omega), ← square_step acc.toInt b.toInt e]
      simp only [apply_ite toInt, toInt_mul]

theorem toInt_powAcc_one (b : Integer) (n : ℕ) : (powAcc one b n).toInt = b.toInt ^ n := by
  have hone : one.toInt = 1 := rfl
  rw [toInt_powAcc, hone, one_mul]

/-! ## Both ways -/

theorem toInt_of_isWord {w : UInt32} (h : b.isWord w = true) : b.toInt = w.toNat := by
  rw [isWord, Bool.and_eq_true, decide_eq_true_iff, decide_eq_true_iff] at h
  rw [toInt_of_positive h.1, h.2, Magnitude.toNat_singleton]

/-- Integers in the unique form are found by repeated squaring if they are powers. -/
theorem eq_powAcc {p : Integer} (hp : p.Normalized) (h : p.toInt = b.toInt ^ n) :
    p = powAcc one b n := by
  apply (hp.toInt_inj (normalized_powAcc normalized_one n)).mp
  rw [h, toInt_powAcc_one]

theorem powerOfTwo_eq (hb : b.toInt = 2) (hn : n ≤ maxPowerOfTwo) :
    powerOfTwo n = .ok (powAcc one b n) := by
  have hpower : twoPow n = powAcc one b n := by
    refine eq_powAcc (normalized_twoPow n) ?_
    rw [toInt_twoPow, hb]
  rw [powerOfTwo, if_pos ⟨Int.natCast_nonneg n, Int.ofNat_le.mpr hn⟩, Int.toNat_natCast, hpower]

theorem powerOfTen_eq (hb : b.toInt = 10) (hn : n ≤ maxPowerOfTen) :
    powerOfTen n = .ok (powAcc one b n) := by
  have hpower : tenPow n = powAcc one b n := by
    refine eq_powAcc (normalized_tenPow n) ?_
    rw [toInt_tenPow, hb]
  rw [powerOfTen, if_pos ⟨Int.natCast_nonneg n, Int.ofNat_le.mpr hn⟩, Int.toNat_natCast, hpower]

/-- What comes from a table is what repeated squaring finds. -/
theorem pow_eq (b : Integer) (n : ℕ) : b.pow n = .ok (powAcc one b n) := by
  unfold pow
  rw [if_neg (by omega)]
  split
  · rename_i htable
    exact powerOfTwo_eq (toInt_of_isWord htable.1) (Int.ofNat_le.mp htable.2)
  · split
    · rename_i htable
      exact powerOfTen_eq (toInt_of_isWord htable.1) (Int.ofNat_le.mp htable.2)
    · rw [Int.toNat_natCast]

/-- Powers are exact, and `b ^ 0` is 1 also for zero. Where a table has the power, repeated squaring
finds the same integer, so that exponents are added by a multiplication wherever the powers come
from. A negative exponent raises a fatal fault, whatever the base is. -/
theorem pow_exact (b : Integer) :
    (∀ n : ℕ, ∃ p, b.pow n = .ok p ∧ p.Normalized ∧ p.toInt = b.toInt ^ n) ∧
    (∀ n : ℕ, n ≤ maxPowerOfTwo → b.toInt = 2 →
      b.pow n = powerOfTwo n ∧ powerOfTwo n = .ok (powAcc one b n)) ∧
    (∀ n : ℕ, n ≤ maxPowerOfTen → b.toInt = 10 →
      b.pow n = powerOfTen n ∧ powerOfTen n = .ok (powAcc one b n)) ∧
    (∀ m n : ℕ, ∃ p q, b.pow m = .ok p ∧ b.pow n = .ok q ∧ b.pow (m + n) = .ok (p.mul q)) ∧
    ∀ e < 0, ∃ f : Fault, b.pow e = Result.raise f ∧ f.category = .negativeExponent ∧
      f.category.isFatal = true := by
  refine ⟨?_, ?_, ?_, ?_, ?_⟩
  · intro n
    exact ⟨_, pow_eq b n, normalized_powAcc normalized_one n, toInt_powAcc_one b n⟩
  · intro n hn hb
    rw [powerOfTwo_eq hb hn]
    exact ⟨pow_eq b n, rfl⟩
  · intro n hn hb
    rw [powerOfTen_eq hb hn]
    exact ⟨pow_eq b n, rfl⟩
  · intro m n
    refine ⟨_, _, pow_eq b m, pow_eq b n, ?_⟩
    have hsum : (powAcc one b m).mul (powAcc one b n) = powAcc one b (m + n) := by
      refine eq_powAcc (normalized_mul _ _) ?_
      rw [toInt_mul, toInt_powAcc_one, toInt_powAcc_one, pow_add]
    rw [← Nat.cast_add, pow_eq, hsum]
  · intro e he
    exact ⟨_, pow_of_neg b he, rfl, rfl⟩

/-- The last power of two in the table and the next one, which is found by squaring, and the last
power of ten in the table. -/
theorem pow_exact_limits :
    toInt ⟨.positive, [2]⟩ = 2 ∧ toInt ⟨.positive, [10]⟩ = 10 ∧
    (∃ p q, pow ⟨.positive, [2]⟩ 1100 = .ok p ∧ powerOfTwo 1100 = .ok p ∧
      pow ⟨.positive, [2]⟩ 1 = .ok q ∧ pow ⟨.positive, [2]⟩ (1100 + 1) = .ok (p.mul q)) ∧
    powerOfTen 400 = .ok (powAcc one ⟨.positive, [10]⟩ 400) ∧
    ∃ f : Fault, pow ⟨.positive, [2]⟩ (-1) = Result.raise f ∧ f.category = .negativeExponent := by
  have htwo : toInt ⟨.positive, [2]⟩ = 2 := by decide
  have hten : toInt ⟨.positive, [10]⟩ = 10 := by decide
  obtain ⟨-, htable, -, hadd, hneg⟩ := pow_exact ⟨.positive, [2]⟩
  obtain ⟨-, -, htable', -, -⟩ := pow_exact ⟨.positive, [10]⟩
  obtain ⟨p, q, hp, hq, hpq⟩ := hadd 1100 1
  obtain ⟨f, hf, hcategory, -⟩ := hneg (-1) (by decide)
  refine ⟨htwo, hten, ⟨p, q, hp, ?_, hq, hpq⟩, (htable' 400 (by decide) hten).2, f, hf, hcategory⟩
  exact (htable 1100 (by decide) htwo).1.symm.trans hp

end Numerals.Integer
