import Numerals.Proofs.Digits.Ratios

/-!
# The scale of the first digit

Digits are generated at the exponent `k` for which the upper half-way point reaches `b ^ (k - 1)`
but not `b ^ k`. There is exactly one such exponent. Main statement: whatever the guess that `fix`
starts from, it ends at this exponent, with the interval divided by `b ^ k`.
-/

namespace Numerals

theorem LongWord.wrap_of_mem {n : ℤ} (hlo : LongWord.least ≤ n) (hhi : n < 9223372036854775808) :
    LongWord.wrap n = n := by
  unfold LongWord.least at hlo
  exact Int.bmod_eq_of_le (by omega) (by omega)

namespace Scale

variable {c d : Scale} {b : Radix} {k k' : ℤ}

/-- `k` is the exponent at which the first digit of the upper half-way point is generated. -/
def AtScale (b : Radix) (c : Scale) (k : ℤ) : Prop :=
  AtMost c.inclusive (b.val ^ (k - 1)) c.upper ∧ ¬ AtMost c.inclusive (b.val ^ k) c.upper

/-- There is at most one exponent at which the first digit is generated. -/
theorem AtScale.unique (h : AtScale b c k) (h' : AtScale b c k') : k = k' := by
  -- a greater exponent would have its power of the radix below the upper half-way point
  have key : ∀ {i j : ℤ}, AtScale b c i → AtScale b c j → ¬ i < j := by
    intro i j hi hj hlt
    have hpow : (b.val : ℚ) ^ i ≤ b.val ^ (j - 1) :=
      zpow_le_zpow_right₀ (one_lt_radix b).le (by omega)
    exact hi.2 (.of_le hpow hj.1)
  rcases lt_trichotomy k k' with hlt | heq | hgt
  · exact absurd hlt (key h h')
  · exact heq
  · exact absurd hgt (key h' h)

/-! ## One division, one multiplication -/

theorem SameRatios.div_radix (h : SameRatios d (c.atExponent b k)) :
    SameRatios (d.div b.val (radix_pos b)) (c.atExponent b (k + 1)) := by
  obtain ⟨hi, hv, hl, hu⟩ := atExponent_ratios b c k
  obtain ⟨hi', hv', hl', hu'⟩ := atExponent_ratios b c (k + 1)
  have hpow : (b.val : ℚ) ^ (k + 1) = b.val ^ k * b.val := zpow_add_one₀ (radix_pos_rat b).ne' k
  constructor
  · rw [inclusive_div, h.inclusive, hi, hi']
  · rw [value_div, h.value, hv, hv', hpow, div_div]
  · rw [lower_div, h.lower, hl, hl', hpow, div_div]
  · rw [upper_div, h.upper, hu, hu', hpow, div_div]

theorem SameRatios.mul_radix (h : SameRatios d (c.atExponent b k)) :
    SameRatios (d.mul b.val (radix_pos b)) (c.atExponent b (k - 1)) := by
  obtain ⟨hi, hv, hl, hu⟩ := atExponent_ratios b c k
  obtain ⟨hi', hv', hl', hu'⟩ := atExponent_ratios b c (k - 1)
  have hb := (radix_pos_rat b).ne'
  have hpow : (b.val : ℚ) ^ k = b.val ^ (k - 1) * b.val := by
    rw [← zpow_add_one₀ hb, sub_add_cancel]
  constructor
  · rw [inclusive_mul, h.inclusive, hi, hi']
  · rw [value_mul, h.value, hv, hv', hpow]
    field_simp
  · rw [lower_mul, h.lower, hl, hl', hpow]
    field_simp
  · rw [upper_mul, h.upper, hu, hu', hpow]
    field_simp

/-! ## The two loops -/

theorem shrink_sameRatios (h : SameRatios d (c.atExponent b k)) :
    SameRatios (shrink b d k).1 (c.atExponent b (shrink b d k).2) := by
  fun_induction shrink b d k with
  | case1 d k _ ih => exact ih h.div_radix
  | case2 d k _ => exact h

theorem not_reachesOne_shrink (d : Scale) (k : ℤ) : ¬ (shrink b d k).1.reachesOne := by
  fun_induction shrink b d k with
  | case1 d k _ ih => exact ih
  | case2 d k h => exact h

theorem grow_sameRatios (h : SameRatios d (c.atExponent b k)) :
    SameRatios (grow b d k).1 (c.atExponent b (grow b d k).2) := by
  fun_induction grow b d k with
  | case1 d k _ ih => exact ih h.mul_radix
  | case2 d k _ => exact h

theorem not_belowDigit_grow (d : Scale) (k : ℤ) : ¬ (grow b d k).1.belowDigit b.val := by
  fun_induction grow b d k with
  | case1 d k _ ih => exact ih
  | case2 d k h => exact h

/-- Growing stops before the upper half-way point reaches 1. -/
theorem not_reachesOne_grow (h : ¬ d.reachesOne) : ¬ (grow b d k).1.reachesOne := by
  fun_induction grow b d k with
  | case1 d k hbelow ih =>
    apply ih
    rw [belowDigit_iff] at hbelow
    rwa [reachesOne_iff, inclusive_mul, upper_mul]
  | case2 d k _ => exact h

/-! ## The scale found from a guess -/

/-- Whatever the guess, `fix` divides the interval by the power of the radix that it returns. -/
theorem fix_sameRatios (b : Radix) (c : Scale) (k : ℤ) :
    SameRatios (c.fix b k).1 (c.atExponent b (c.fix b k).2) :=
  grow_sameRatios (shrink_sameRatios ⟨rfl, rfl, rfl, rfl⟩)

theorem not_reachesOne_fix (b : Radix) (c : Scale) (k : ℤ) : ¬ (c.fix b k).1.reachesOne :=
  not_reachesOne_grow (not_reachesOne_shrink _ _)

/-- Whatever the guess, `fix` ends at the exponent of the first digit. -/
theorem fix_atScale (b : Radix) (c : Scale) (k : ℤ) : AtScale b c (c.fix b k).2 := by
  have hsame := fix_sameRatios b c k
  obtain ⟨hi, -, -, hu⟩ := atExponent_ratios b c (c.fix b k).2
  have hone := not_reachesOne_fix b c k
  have hdigit : ¬ (c.fix b k).1.belowDigit b.val := not_belowDigit_grow _ _
  set k' := (c.fix b k).2
  have hb := radix_pos_rat b
  have hpow : (0 : ℚ) < b.val ^ k' := zpow_pos hb k'
  rw [reachesOne_iff, hsame.inclusive, hsame.upper, hi, hu] at hone
  rw [belowDigit_iff, not_not, hsame.inclusive, hsame.upper, hi, hu] at hdigit
  constructor
  · have hcancel : c.upper / b.val ^ k' * b.val * b.val ^ (k' - 1) = c.upper := by
      rw [zpow_sub_one₀ hb.ne']
      field_simp
    rw [← atMost_mul_right (zpow_pos hb (k' - 1)), one_mul, hcancel] at hdigit
    exact hdigit
  · rwa [← atMost_mul_right hpow, one_mul, div_mul_cancel₀ _ hpow.ne'] at hone

/-- The exponent and the ratios that `fix` finds do not depend on the guess. -/
theorem fix_eq_of_guess (b : Radix) (c : Scale) (k k' : ℤ) :
    (c.fix b k).2 = (c.fix b k').2 ∧ SameRatios (c.fix b k).1 (c.fix b k').1 := by
  have hexp := (fix_atScale b c k).unique (fix_atScale b c k')
  have h := fix_sameRatios b c k
  rw [hexp] at h
  exact ⟨hexp, h.trans (fix_sameRatios b c k').symm⟩

theorem fixFrom_eq_ok (hk : LongWord.least < k) : c.fixFrom b k = .ok (c.fix b k) := by
  unfold fixFrom
  apply if_neg
  rintro ⟨hneg, hwrap⟩
  unfold LongWord.least at hk
  rw [LongWord.wrap_of_mem (by unfold LongWord.least; omega) (by omega)] at hwrap
  omega

/-- The least long word has no opposite, so that there is no power of the radix to start from. -/
theorem fixFrom_least (b : Radix) (c : Scale) :
    c.fixFrom b LongWord.least = Result.raise (.negativeExponent b.val LongWord.least) := by
  unfold fixFrom
  exact if_pos (by decide)

end Scale

end Numerals
