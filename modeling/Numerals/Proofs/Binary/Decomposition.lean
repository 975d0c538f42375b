import Numerals.Binary.Decomposition
import Numerals.Proofs.Binary.Rounding

/-!
# Decompositions are exact

The search by bracketing finds the floor of the binary logarithm, so that the parts of a finite
double are the mantissa and the exponent of its rank. The rounding interval of a decomposition is
stated by its parts alone; it is the interval of the rank, and hence consists of the numbers that
round to the double.
-/

namespace Numerals

namespace FloatValue

variable {negative : Bool} {m : ℕ} {e lo hi : ℤ}

theorem atLeastTwoPow_iff (k : ℤ) :
    (FloatValue.finite negative m e).atLeastTwoPow k ↔ (2 : ℚ) ^ k ≤ m * 2 ^ e := by
  have h := FloatFormat.twoPow_le_iff (n := m) (k - e) Nat.one_pos
  rw [one_mul, neg_sub, Nat.cast_one, div_one, zpow_sub₀ two_ne_zero,
    div_le_iff₀ (by positivity)] at h
  unfold atLeastTwoPow
  rw [decide_eq_true_iff]
  exact h

/-- The search keeps the value between the powers of two at the ends of its bracket. -/
theorem searchLog2_spec (hlo : (2 : ℚ) ^ lo ≤ m * 2 ^ e) (hhi : (m * 2 ^ e : ℚ) < 2 ^ (hi + 1)) :
    (2 : ℚ) ^ (FloatValue.finite negative m e).searchLog2 lo hi ≤ m * 2 ^ e ∧
      (m * 2 ^ e : ℚ) < 2 ^ ((FloatValue.finite negative m e).searchLog2 lo hi + 1) := by
  fun_induction searchLog2 (FloatValue.finite negative m e) lo hi with
  | case1 lo hi hlt mid hmid ih =>
    rw [atLeastTwoPow_iff] at hmid
    exact ih hmid hhi
  | case2 lo hi hlt mid hmid ih =>
    rw [atLeastTwoPow_iff, not_le] at hmid
    exact ih hlo (by rwa [sub_add_cancel])
  | case3 lo hi hge =>
    refine ⟨hlo, lt_of_lt_of_le hhi (zpow_le_zpow_right₀ one_le_two (by omega))⟩

theorem floorLog2_spec (negative : Bool) (hlo : (2 : ℚ) ^ (-1074 : ℤ) ≤ m * 2 ^ e)
    (hhi : (m * 2 ^ e : ℚ) < 2 ^ (1024 : ℤ)) :
    (2 : ℚ) ^ (FloatValue.finite negative m e).floorLog2 ≤ m * 2 ^ e ∧
      (m * 2 ^ e : ℚ) < 2 ^ ((FloatValue.finite negative m e).floorLog2 + 1) :=
  searchLog2_spec hlo hhi

end FloatValue

namespace Decomposition

open FloatFormat (binary64)

variable {x : Binary64} {q : ℚ}

/-- The absolute value of the number with these parts. -/
def magnitude (d : Decomposition) : ℚ :=
  d.mantissa * 2 ^ d.exponent

/-- The distance to the half-way point below: half a unit of the mantissa, and a quarter of one at
the start of a binade other than the first. -/
def gapBelow (d : Decomposition) : ℚ :=
  if d.mantissa = 2 ^ 52 ∧ -1074 < d.exponent then 2 ^ d.exponent / 4 else 2 ^ d.exponent / 2

/-- The distance to the half-way point above: half a unit of the mantissa. -/
def gapAbove (d : Decomposition) : ℚ :=
  2 ^ d.exponent / 2

/-- The rounding interval of a double, given in parts: it reaches to the half-way points on both
sides, and has these as elements exactly if the mantissa is even. -/
def roundingInterval (d : Decomposition) : Set ℚ :=
  interval (d.mantissa % 2 = 0) (d.magnitude - d.gapBelow) (d.magnitude + d.gapAbove)

/-! ## The parts of a double -/

theorem rankBinade_le {w : ℕ} (hw : w < binary64.infinityWord) : binary64.rankBinade w ≤ 2045 := by
  have hi : binary64.infinityWord = 2047 * 2 ^ 52 := rfl
  have hdiv : w / 2 ^ 52 < 2047 := by
    rw [Nat.div_lt_iff_lt_mul (by decide)]
    omega
  change w / 2 ^ 52 - 1 ≤ 2045
  omega

theorem rankMantissa_pos {w : ℕ} (hw : 0 < w) : 0 < binary64.rankMantissa w := by
  have hr := binary64.rank_eq w
  rcases binary64.rankBinade_eq_zero_or w with h | h
  · rw [h] at hr
    omega
  · exact lt_of_lt_of_le (Nat.two_pow_pos _) h

/-- The exponent found by the search is that of the rank. -/
theorem exponent_eq {w : ℕ} (hpos : 0 < w) (hw : w < binary64.infinityWord) (negative : Bool) :
    max ((FloatValue.finite negative (binary64.rankMantissa w)
      (binary64.rankExponent w)).floorLog2 - 52) minExponent = binary64.rankExponent w := by
  have hmin : binary64.minExponent = -1074 := rfl
  have hm := rankMantissa_pos hpos
  have hmlt : binary64.rankMantissa w < 2 ^ 53 := binary64.rankMantissa_lt w
  have hb := rankBinade_le hw
  have he : binary64.rankExponent w = -1074 + binary64.rankBinade w := rfl
  set m := binary64.rankMantissa w with hmdef
  set e := binary64.rankExponent w with hedef
  have hmq : (1 : ℚ) ≤ m := by exact_mod_cast hm
  have hmltq : (m : ℚ) < 2 ^ (53 : ℤ) := by exact_mod_cast hmlt
  have hepos : (0 : ℚ) < 2 ^ e := by positivity
  have hlt : (m * 2 ^ e : ℚ) < 2 ^ (53 + e) := by
    rw [zpow_add₀ two_ne_zero]
    exact mul_lt_mul_of_pos_right hmltq hepos
  have hge : (2 : ℚ) ^ (-1074 : ℤ) ≤ m * 2 ^ e :=
    calc (2 : ℚ) ^ (-1074 : ℤ) ≤ 2 ^ e := zpow_le_zpow_right₀ one_le_two (by omega)
      _ ≤ m * 2 ^ e := le_mul_of_one_le_left hepos.le hmq
  obtain ⟨h₁, h₂⟩ := FloatValue.floorLog2_spec negative hge
    (lt_of_lt_of_le hlt (zpow_le_zpow_right₀ one_le_two (by omega)))
  set l := (FloatValue.finite negative m e).floorLog2
  have hle : l < 53 + e := (zpow_lt_zpow_iff_right₀ one_lt_two).mp (lt_of_le_of_lt h₁ hlt)
  have hmine : minExponent = -1074 := rfl
  rcases binary64.rankBinade_eq_zero_or w with h0 | hlead
  · -- the first binade: the exponent is the least one, however small the mantissa
    omega
  · have hleadq : (2 : ℚ) ^ (52 : ℤ) ≤ m := by exact_mod_cast hlead
    have hle' : (2 : ℚ) ^ (52 + e) ≤ m * 2 ^ e := by
      rw [zpow_add₀ two_ne_zero]
      exact mul_le_mul_of_nonneg_right hleadq hepos.le
    have hgt : 52 + e < l + 1 := (zpow_lt_zpow_iff_right₀ one_lt_two).mp (lt_of_le_of_lt hle' h₂)
    omega

/-- The parts of a finite double other than zero are the mantissa and the exponent of its rank. -/
theorem ofBinary64_eq (hx : x.isFinite) (hz : x.isZero = false) :
    ofBinary64 x =
      ⟨binary64.rankMantissa x.rank, binary64.rankExponent x.rank, signOf x.isNegative⟩ := by
  have hrank := Binary64.isFinite_iff.mp hx
  have hpos := Binary64.rank_pos hz
  unfold ofBinary64
  rw [Binary64.value_of_rank_lt hrank]
  dsimp only
  rw [if_neg (rankMantissa_pos hpos).ne', exponent_eq hpos hrank]
  simp

/-! ## The rounding interval -/

theorem rank_mod_two (w : ℕ) : w % 2 = binary64.rankMantissa w % 2 := by
  have hr : binary64.rankMantissa w + binary64.rankBinade w * 2 ^ 52 = w := binary64.rank_eq w
  omega

/-- The rounding interval of a double is the interval of its rank. -/
theorem roundingInterval_eq (hx : x.isFinite) (hz : x.isZero = false) :
    (ofBinary64 x).roundingInterval = binary64.rankInterval x.rank := by
  have hpos := Binary64.rank_pos hz
  have hexp : binary64.rankExponent x.rank = -1074 + binary64.rankBinade x.rank := rfl
  have hnarrow : (binary64.rankMantissa x.rank = 2 ^ binary64.fractionBits ∧
        0 < binary64.rankBinade x.rank) ↔
      binary64.rankMantissa x.rank = 2 ^ 52 ∧ -1074 < binary64.rankExponent x.rank :=
    and_congr Iff.rfl (by omega)
  have hlow : binary64.lowerEnd x.rank =
      binary64.rankValue x.rank - (ofBinary64 x).gapBelow := by
    unfold FloatFormat.lowerEnd gapBelow
    rw [binary64.rankValue_pred hpos, ofBinary64_eq hx hz]
    simp only [hnarrow]
    split <;> ring
  have hhigh : binary64.midpoint x.rank = binary64.rankValue x.rank + (ofBinary64 x).gapAbove := by
    unfold FloatFormat.midpoint gapAbove
    rw [binary64.rankValue_succ, ofBinary64_eq hx hz, FloatFormat.rankValue]
    ring
  have hmag : (ofBinary64 x).magnitude = binary64.rankValue x.rank := by
    rw [ofBinary64_eq hx hz]
    rfl
  unfold roundingInterval FloatFormat.rankInterval
  rw [hlow, hhigh, hmag, rank_mod_two x.rank, ofBinary64_eq hx hz]

/-- A number is in the rounding interval of a double exactly if it rounds to its absolute value. -/
theorem mem_roundingInterval_iff (hx : x.isFinite) (hz : x.isZero = false) :
    q ∈ (ofBinary64 x).roundingInterval ↔ x.abs.IsNearest q := by
  have hpos := Binary64.rank_pos hz
  have habs : x.abs.isFinite := by
    rw [Binary64.isFinite_iff, Binary64.rank_abs]
    exact Binary64.isFinite_iff.mp hx
  rw [roundingInterval_eq hx hz, ← Binary64.rank_abs,
    Binary64.isNearest_iff habs x.isNegative_abs (by rwa [Binary64.rank_abs])]

end Decomposition

end Numerals
