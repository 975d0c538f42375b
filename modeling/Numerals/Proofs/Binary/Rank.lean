import Numerals.Binary.Format
import Numerals.Proofs.Interval
import Mathlib.Algebra.Order.Field.Power
import Mathlib.Tactic.FieldSimp
import Mathlib.Tactic.Positivity
import Mathlib.Tactic.Ring
import Mathlib.Order.Monotone.Basic

/-!
# Ranks of data

The non-negative data of a format are counted from zero on. The datum of rank `w` has a mantissa `m`
and a binade `t` with `w = m + t · 2 ^ fractionBits`, and its value is `m · 2 ^ (minExponent + t)`.
Values increase with the rank, by one unit of the mantissa from a rank to the next.
-/

namespace Numerals

/-- A power of a base with an integer exponent, as a ratio of natural numbers. -/
theorem zpow_eq_div (b : ℚ) (hb : b ≠ 0) (e : ℤ) : b ^ e = b ^ e.toNat / b ^ (-e).toNat := by
  rw [← zpow_natCast, ← zpow_natCast, ← zpow_sub₀ hb]
  congr 1
  omega

namespace FloatFormat

variable (f : FloatFormat) {w v m t n d : ℕ} {q : ℚ}

/-! ## Mantissas and values -/

/-- The binade of the datum of rank `w`; the first one is shared with the data that have no leading
bit. -/
def rankBinade (w : ℕ) : ℕ :=
  w / 2 ^ f.fractionBits - 1

/-- The mantissa of the datum of rank `w`. -/
def rankMantissa (w : ℕ) : ℕ :=
  w - f.rankBinade w * 2 ^ f.fractionBits

/-- The exponent of the datum of rank `w`. -/
def rankExponent (w : ℕ) : ℤ :=
  f.minExponent + f.rankBinade w

/-- The value of the datum of rank `w`, also for the ranks past the largest finite datum. -/
def rankValue (w : ℕ) : ℚ :=
  f.rankMantissa w * 2 ^ f.rankExponent w

theorem rank_eq (w : ℕ) :
    f.rankMantissa w + f.rankBinade w * 2 ^ f.fractionBits = w := by
  have hle : f.rankBinade w * 2 ^ f.fractionBits ≤ w :=
    le_trans (Nat.mul_le_mul_right _ (Nat.sub_le _ _)) (Nat.div_mul_le_self w _)
  unfold rankMantissa
  omega

theorem rankMantissa_lt (w : ℕ) : f.rankMantissa w < 2 * 2 ^ f.fractionBits := by
  have hpos : 0 < 2 ^ f.fractionBits := Nat.two_pow_pos _
  have hw := Nat.div_add_mod' w (2 ^ f.fractionBits)
  have hlt := Nat.mod_lt w hpos
  have hsub := Nat.sub_one_mul (w / 2 ^ f.fractionBits) (2 ^ f.fractionBits)
  unfold rankMantissa rankBinade
  omega

/-- Only the first binade has mantissas without the leading bit. -/
theorem rankBinade_eq_zero_or (w : ℕ) :
    f.rankBinade w = 0 ∨ 2 ^ f.fractionBits ≤ f.rankMantissa w := by
  rcases Nat.eq_zero_or_pos (f.rankBinade w) with h | h
  · exact .inl h
  · right
    have hw := Nat.div_mul_le_self w (2 ^ f.fractionBits)
    have hsub := Nat.sub_one_mul (w / 2 ^ f.fractionBits) (2 ^ f.fractionBits)
    have hle : 2 ^ f.fractionBits ≤ w / 2 ^ f.fractionBits * 2 ^ f.fractionBits :=
      Nat.le_mul_of_pos_left _ (by unfold rankBinade at h; omega)
    unfold rankMantissa rankBinade
    omega

theorem rankBinade_add (hm : m < 2 * 2 ^ f.fractionBits) (h : t = 0 ∨ 2 ^ f.fractionBits ≤ m) :
    f.rankBinade (m + t * 2 ^ f.fractionBits) = t := by
  have hpos : 0 < 2 ^ f.fractionBits := Nat.two_pow_pos _
  have hdiv : m / 2 ^ f.fractionBits < 2 := Nat.div_lt_of_lt_mul (by omega)
  unfold rankBinade
  rw [Nat.add_mul_div_right _ _ hpos]
  rcases h with rfl | h
  · omega
  · have hone : 1 ≤ m / 2 ^ f.fractionBits := (Nat.one_le_div_iff hpos).mpr h
    omega

/-- The value of a rank from its parts. The mantissa may have been rounded up to the end of its
binade. -/
theorem rankValue_add (hm : m ≤ 2 * 2 ^ f.fractionBits) (h : t = 0 ∨ 2 ^ f.fractionBits ≤ m) :
    f.rankValue (m + t * 2 ^ f.fractionBits) = m * 2 ^ (f.minExponent + t) := by
  rcases hm.lt_or_eq with hlt | rfl
  · unfold rankValue rankExponent rankMantissa
    rw [f.rankBinade_add hlt h, Nat.add_sub_cancel]
  · -- the rank is that of the least mantissa in the next binade
    have hpos : 0 < 2 ^ f.fractionBits := Nat.two_pow_pos _
    have hrank : 2 * 2 ^ f.fractionBits + t * 2 ^ f.fractionBits =
        2 ^ f.fractionBits + (t + 1) * 2 ^ f.fractionBits := by ring
    unfold rankValue rankExponent rankMantissa
    rw [hrank, f.rankBinade_add (by omega) (.inr le_rfl), Nat.add_sub_cancel]
    push_cast
    rw [← add_assoc, zpow_add_one₀ (by norm_num)]
    ring

theorem rankValue_succ (w : ℕ) :
    f.rankValue (w + 1) = (f.rankMantissa w + 1) * 2 ^ f.rankExponent w := by
  have hlt := f.rankMantissa_lt w
  have h := f.rankValue_add (m := f.rankMantissa w + 1) (t := f.rankBinade w) (by omega)
    ((f.rankBinade_eq_zero_or w).imp id (by omega))
  have hw : f.rankMantissa w + 1 + f.rankBinade w * 2 ^ f.fractionBits = w + 1 := by
    have := f.rank_eq w
    omega
  rw [hw] at h
  rw [h, rankExponent]
  push_cast
  rfl

/-- The distance to the rank below is halved at the start of every binade but the first. -/
theorem rankValue_pred (hw : 0 < w) :
    f.rankValue (w - 1) = f.rankValue w -
      (if f.rankMantissa w = 2 ^ f.fractionBits ∧ 0 < f.rankBinade w then
        2 ^ f.rankExponent w / 2 else 2 ^ f.rankExponent w) := by
  have hpos : 0 < 2 ^ f.fractionBits := Nat.two_pow_pos _
  have hlt := f.rankMantissa_lt w
  have hr := f.rank_eq w
  have hm : 0 < f.rankMantissa w := by
    rcases f.rankBinade_eq_zero_or w with h | h
    · rw [h] at hr
      omega
    · omega
  split
  · rename_i h
    obtain ⟨hm, ht⟩ := h
    obtain ⟨t, ht⟩ : ∃ t, f.rankBinade w = t + 1 := ⟨f.rankBinade w - 1, by omega⟩
    have h := f.rankValue_add (m := 2 * 2 ^ f.fractionBits - 1) (t := t) (by omega)
      (.inr (by omega))
    have hw' : 2 * 2 ^ f.fractionBits - 1 + t * 2 ^ f.fractionBits = w - 1 := by
      rw [ht, hm, Nat.add_one_mul] at hr
      omega
    rw [hw'] at h
    rw [h, rankValue, rankExponent, hm, ht]
    push_cast [Nat.cast_sub (show 1 ≤ 2 * 2 ^ f.fractionBits by omega)]
    rw [← add_assoc, zpow_add_one₀ (by norm_num)]
    ring
  · rename_i h
    have h := f.rankValue_add (m := f.rankMantissa w - 1) (t := f.rankBinade w) (by omega)
      (by rcases f.rankBinade_eq_zero_or w with h0 | h0 <;> omega)
    have hw' : f.rankMantissa w - 1 + f.rankBinade w * 2 ^ f.fractionBits = w - 1 := by omega
    rw [hw'] at h
    rw [h, rankValue, rankExponent, Nat.cast_sub (show 1 ≤ f.rankMantissa w by omega)]
    push_cast
    ring

theorem rankValue_lt_succ (w : ℕ) : f.rankValue w < f.rankValue (w + 1) := by
  rw [rankValue_succ, rankValue]
  have hpos : (0 : ℚ) < 2 ^ f.rankExponent w := by positivity
  linarith

theorem rankValue_strictMono : StrictMono f.rankValue :=
  strictMono_nat_of_lt_succ f.rankValue_lt_succ

theorem rankValue_nonneg (w : ℕ) : 0 ≤ f.rankValue w := by
  unfold rankValue
  positivity

theorem rankValue_pos (hw : 0 < w) : 0 < f.rankValue w :=
  lt_of_le_of_lt (f.rankValue_nonneg 0) (f.rankValue_strictMono hw)

end FloatFormat

end Numerals
