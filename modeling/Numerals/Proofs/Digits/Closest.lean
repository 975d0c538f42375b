import Numerals.Proofs.Digits.Shortest

/-!
# Generated digits are the closest of their number

Among all decimals with as many digits that lie in the rounding interval of a double, at whatever
exponent, the generated one is the closest to the double; of two that are equally close it is the
even one.

The generator compares neighbours on one grid only. What lies on coarser grids lies on this one too.
What lies on finer grids and has no more digits is less than the unit of the first place. That unit
is then in the interval itself, so that there is a single digit. Below a double it is closer than
what is less than it, and above a double this happens near `10 ^ (-323)` only.
-/

namespace Numerals

theorem mul_zpow_neg_lt_iff {m n p q i j : ℕ} (hp : 0 < p) (hq : 0 < q) :
    (m * p ^ (-i : ℤ) : ℚ) < n * q ^ (-j : ℤ) ↔ m * q ^ j < n * p ^ i := by
  have hp' : (0 : ℚ) < p ^ i := pow_pos (by exact_mod_cast hp) i
  have hq' : (0 : ℚ) < q ^ j := pow_pos (by exact_mod_cast hq) j
  rw [zpow_neg, zpow_neg, zpow_natCast, zpow_natCast, ← div_eq_mul_inv, ← div_eq_mul_inv,
    div_lt_div_iff₀ hp' hq']
  exact_mod_cast Iff.rfl

namespace Scale

variable {b : Radix} {c : Scale} {k : ℤ} {ds : List ℕ}

/-! ## The grid of the digits -/

theorem Generated.whole_mem (hgen : Generated b.val (c.atExponent b k) ds) :
    (wholeNumber b.val ds * b.val ^ (k - ds.length) : ℚ) ∈ c.span := by
  rw [← properFraction_mul_zpow (radix_pos b), ← mem_span_atExponent]
  exact hgen.mem

/-- Of the points of the grid none in the interval is closer, and what is equally close is ruled out
by an even last digit. -/
theorem Generated.nearest_grid (hgen : Generated b.val (c.atExponent b k) ds) {z : ℤ}
    (hz : (z * b.val ^ (k - ds.length) : ℚ) ∈ c.span) (hne : z ≠ wholeNumber b.val ds) :
    AtMost (ds.getLastD 0 % 2 = 0)
      |wholeNumber b.val ds * b.val ^ (k - ds.length) - c.value|
      |z * b.val ^ (k - ds.length) - c.value| := by
  have hb := radix_pos_rat b
  have hpow : (0 : ℚ) < b.val ^ k := zpow_pos hb k
  have hgrid : ∀ y : ℚ, y / b.val ^ ds.length * b.val ^ k = y * b.val ^ (k - ds.length) := by
    intro y
    rw [zpow_sub₀ hb.ne', zpow_natCast]
    ring
  have hdist : ∀ y : ℚ, |y / b.val ^ ds.length - (c.atExponent b k).value| * b.val ^ k =
      |y * b.val ^ (k - ds.length) - c.value| := by
    intro y
    rw [(atExponent_ratios b c k).2.1, ← hgrid, ← abs_of_pos hpow, ← abs_mul, abs_of_pos hpow,
      sub_mul, div_mul_cancel₀ _ hpow.ne']
  have hfrac := properFraction_eq (radix_pos b) ds
  have hnearest := hgen.nearest z
  rw [mem_span_atExponent, hgrid, hfrac, ← atMost_mul_right hpow, hdist, hdist] at hnearest
  refine hnearest hz fun heq => hne ?_
  rw [div_left_inj' (pow_pos hb _).ne'] at heq
  exact_mod_cast heq

/-- Equally close points of the grid are neighbours: a point between them would be closer. -/
theorem Generated.tie_adjacent (hgen : Generated b.val (c.atExponent b k) ds) {z : ℤ}
    (hz : (z * b.val ^ (k - ds.length) : ℚ) ∈ c.span) (hne : z ≠ wholeNumber b.val ds)
    (htie : |wholeNumber b.val ds * b.val ^ (k - ds.length) - c.value| =
      |z * b.val ^ (k - ds.length) - c.value|) :
    z = wholeNumber b.val ds + 1 ∨ z = wholeNumber b.val ds - 1 := by
  have hunit : (0 : ℚ) < b.val ^ (k - ds.length) := zpow_pos (radix_pos_rat b) _
  have hlt : ∀ {i j : ℤ}, i < j → (i * b.val ^ (k - ds.length) : ℚ) < j * b.val ^ (k - ds.length) :=
    fun hij => mul_lt_mul_of_pos_right (by exact_mod_cast hij) hunit
  obtain ⟨w, hw⟩ : ∃ w : ℤ, w = wholeNumber b.val ds := ⟨_, rfl⟩
  have hcast : (wholeNumber b.val ds : ℚ) = w := by rw [hw, Int.cast_natCast]
  have hmem := hgen.whole_mem
  rw [← hw] at hne ⊢
  rw [hcast] at hmem htie
  by_contra hcon
  obtain ⟨habove, hbelow⟩ := not_or.mp hcon
  rcases lt_or_gt_of_ne hne with hzw | hwz
  · -- below the generated point, `w - 1` would lie between the two
    have h₁ := hlt (show z < w - 1 by omega)
    have h₂ := hlt (show w - 1 < w by omega)
    have hin : ((w - 1 : ℤ) * b.val ^ (k - ds.length) : ℚ) ∈ c.span :=
      mem_interval_of_between hz hmem h₁.le h₂.le
    have hcloser := dist_lt_of_between htie.symm h₁ h₂
    have hle := (hgen.nearest_grid hin (by omega)).le
    rw [hcast] at hle
    linarith
  · -- above it, `w + 1` would
    have h₁ := hlt (show w < w + 1 by omega)
    have h₂ := hlt (show w + 1 < z by omega)
    have hin : ((w + 1 : ℤ) * b.val ^ (k - ds.length) : ℚ) ∈ c.span :=
      mem_interval_of_between hmem hz h₁.le h₂.le
    have hcloser := dist_lt_of_between htie h₁ h₂
    have hle := (hgen.nearest_grid hin (by omega)).le
    rw [hcast] at hle
    linarith

/-! ## Decimals -/

/-- Every other point of the grid in the interval is farther away, or as far away and odd, while the
generated one is even. -/
theorem Generated.grid_cases (hgen : Generated 10 (c.atExponent .ten k) ds) {z : ℤ}
    (hz : (z * 10 ^ (k - ds.length) : ℚ) ∈ c.span) (hne : z ≠ wholeNumber 10 ds) :
    |wholeNumber 10 ds * 10 ^ (k - ds.length) - c.value| < |z * 10 ^ (k - ds.length) - c.value| ∨
      |wholeNumber 10 ds * 10 ^ (k - ds.length) - c.value| = |z * 10 ^ (k - ds.length) - c.value| ∧
        wholeNumber 10 ds % 2 = 0 ∧ z % 2 = 1 := by
  have hnearest := Generated.nearest_grid (b := .ten) hgen hz hne
  obtain ⟨hle, htie⟩ := atMost_iff.mp hnearest
  rcases hle.lt_or_eq with hlt | heq
  · exact .inl hlt
  · have heven : ds.getLastD 0 % 2 = 0 := by simpa using htie heq.symm
    rw [← wholeNumber_mod_two] at heven
    refine .inr ⟨heq, heven, ?_⟩
    rcases Generated.tie_adjacent (b := .ten) hgen hz hne heq with h | h
    · rw [h]
      change ((wholeNumber 10 ds : ℤ) + 1) % 2 = 1
      omega
    · rw [h]
      change ((wholeNumber 10 ds : ℤ) - 1) % 2 = 1
      omega

end Scale

namespace Decomposition

open FloatFormat (binary64)

variable {x : Binary64}

/-! ## The smallest powers of ten -/

/-- Two units of the subnormal doubles are just below a power of ten. -/
theorem least_power_of_ten : (2 : ℚ) * 2 ^ (-1074 : ℤ) < 10 ^ (-323 : ℤ) ∧
    19 * (10 : ℚ) ^ (-323 : ℤ) < 40 * 2 ^ (-1074 : ℤ) := by
  have h₁ := (mul_zpow_neg_lt_iff (m := 2) (n := 1) (p := 2) (q := 10) (i := 1074) (j := 323)
    (by decide) (by decide)).mpr (by decide +kernel)
  have h₂ := (mul_zpow_neg_lt_iff (m := 19) (n := 40) (p := 10) (q := 2) (i := 323) (j := 1074)
    (by decide) (by decide)).mpr (by decide +kernel)
  rw [Nat.cast_one, one_mul] at h₁
  exact ⟨h₁, h₂⟩

/-- Only one power of ten lies between one and twenty units of the subnormal doubles. -/
theorem least_power_unique {j : ℤ} (hlo : (2 : ℚ) ^ (-1074 : ℤ) < 10 ^ j)
    (hhi : (10 : ℚ) ^ j < 20 * 2 ^ (-1074 : ℤ)) : j = -323 := by
  obtain ⟨htwo, hnear⟩ := least_power_of_ten
  rcases lt_trichotomy j (-323) with hlt | heq | hgt
  · have hpow : (10 : ℚ) ^ j ≤ 10 ^ (-323 - 1 : ℤ) := zpow_le_zpow_right₀ (by norm_num) (by omega)
    rw [zpow_sub_one₀ (by norm_num)] at hpow
    linarith
  · exact heq
  · have hpow : (10 : ℚ) ^ (-323 + 1 : ℤ) ≤ 10 ^ j := zpow_le_zpow_right₀ (by norm_num) (by omega)
    rw [zpow_add_one₀ (by norm_num)] at hpow
    linarith

theorem exponent_of_subnormal (hx : x.isFinite) (hz : x.isZero = false)
    (hlt : (ofBinary64 x).mantissa < 2 ^ 52) : (ofBinary64 x).exponent = -1074 := by
  rw [ofBinary64_eq hx hz] at hlt ⊢
  rcases binary64.rankBinade_eq_zero_or x.rank with hb | hb
  · change -1074 + (binary64.rankBinade x.rank : ℤ) = -1074
    rw [hb]
    rfl
  · exact absurd hb (not_le.mpr hlt)

/-- A power of ten just above a double is closer to it than what is a tenth less or even smaller: if
both are in the rounding interval, the double is the subnormal one next to `10 ^ (-323)`. -/
theorem unit_closer (hx : x.isFinite) (hz : x.isZero = false) {j : ℤ} {q : ℚ}
    (hunit : (10 : ℚ) ^ j ∈ (ofBinary64 x).roundingInterval)
    (hq : q ∈ (ofBinary64 x).roundingInterval) (hle : q ≤ 9 * 10 ^ (j - 1))
    (habove : (ofBinary64 x).magnitude < 10 ^ j) :
    10 ^ j - (ofBinary64 x).magnitude < (ofBinary64 x).magnitude - q := by
  have hpos := (ofBinary64_bounds hx hz).1
  have hsub := exponent_of_subnormal hx hz
  set d := ofBinary64 x
  have hp : (0 : ℚ) < 2 ^ d.exponent := by positivity
  have hgap := d.gapBelow_le
  have hlow : d.magnitude - d.gapBelow ≤ q := hq.1.le
  have hup : (10 : ℚ) ^ j ≤ d.magnitude + 2 ^ d.exponent / 2 := hunit.2.le
  have hmag : d.magnitude = d.mantissa * 2 ^ d.exponent := rfl
  rw [zpow_sub_one₀ (by norm_num)] at hle
  -- the interval is as wide as a tenth of the double, so that the mantissa has one digit
  have hfew : (d.mantissa : ℚ) < 10 := by
    have h : d.mantissa * (2 : ℚ) ^ d.exponent < 10 * 2 ^ d.exponent := by linarith
    exact lt_of_mul_lt_mul_right h hp.le
  have hfew' : d.mantissa < 10 := by exact_mod_cast hfew
  rw [hsub (by omega)] at hmag hup hp
  have hmin : (2 : ℚ) ^ (-1074 : ℤ) ≤ d.magnitude := by
    rw [hmag]
    exact le_mul_of_one_le_left hp.le (by exact_mod_cast hpos)
  have hmax : d.magnitude < 10 * (2 : ℚ) ^ (-1074 : ℤ) := by
    rw [hmag]
    exact mul_lt_mul_of_pos_right hfew hp
  obtain rfl : j = -323 := least_power_unique (by linarith) (by linarith)
  -- the double is at least two units, of which the power of ten is just above
  obtain ⟨htwo, hnear⟩ := least_power_of_ten
  have htwice : 2 * (2 : ℚ) ^ (-1074 : ℤ) ≤ d.magnitude := by
    have hne : d.mantissa ≠ 1 := by
      intro hone
      rw [hone, Nat.cast_one, one_mul] at hmag
      linarith
    rw [hmag]
    exact mul_le_mul_of_nonneg_right (by exact_mod_cast (show 2 ≤ d.mantissa by omega)) hp.le
  linarith

/-! ## All decimals with as many digits -/

section Closest

variable {k n : ℤ} {ds : List ℕ} {s : ℕ}

variable (hx : x.isFinite) (hz : x.isZero = false)
  (hscale : Scale.AtScale .ten (ofBinary64 x).scale k)
  (hgen : Scale.Generated 10 ((ofBinary64 x).scale.atExponent .ten k) ds)

include hscale in
/-- A decimal on a finer grid with no more digits than the generated ones is at most the unit of the
first place, which is then in the rounding interval. -/
theorem unit_mem_of_finer (hlt : s < 10 ^ ds.length)
    (hmem : (s * 10 ^ (n - ds.length) : ℚ) ∈ (ofBinary64 x).roundingInterval) (hn : n < k) :
    (10 : ℚ) ^ (k - 1) ∈ (ofBinary64 x).roundingInterval := by
  rw [← span_scale] at hmem ⊢
  apply hscale.unit_mem hmem
  calc (s * 10 ^ (n - ds.length) : ℚ) ≤ 10 ^ ds.length * 10 ^ (n - ds.length) := by
        gcongr
        exact_mod_cast hlt.le
    _ = 10 ^ n := by
      rw [← zpow_natCast, ← zpow_add₀ (by norm_num)]
      congr 1
      ring
    _ ≤ 10 ^ (k - 1) := zpow_le_zpow_right₀ (by norm_num) (by omega)

include hscale hgen

/-- The unit of the first place has one digit, so that no more are generated. -/
theorem length_eq_one_of_unit_mem (hunit : (10 : ℚ) ^ (k - 1) ∈ (ofBinary64 x).roundingInterval) :
    ds.length = 1 := by
  have hpos := List.length_pos_iff.mpr hgen.ne_nil
  by_contra hne
  have hfewer := Scale.Generated.not_mem_of_fewer (b := .ten) hscale hgen (n := 1) (m := 1)
    (by decide) (by decide) (by omega) (k - 1)
  rw [Nat.cast_one, one_mul, span_scale] at hfewer
  exact hfewer hunit

/-- The generated digit is as close as the unit of the first place, which is on its grid. -/
theorem dist_le_unit (hunit : (10 : ℚ) ^ (k - 1) ∈ (ofBinary64 x).roundingInterval) :
    |wholeNumber 10 ds * 10 ^ (k - ds.length) - (ofBinary64 x).magnitude| ≤
      |(10 : ℚ) ^ (k - 1) - (ofBinary64 x).magnitude| := by
  have hlen := length_eq_one_of_unit_mem hscale hgen hunit
  have hgrid := hgen.grid_cases (z := 1)
  rw [hlen, Nat.cast_one, Int.cast_one, one_mul, value_scale, span_scale] at hgrid
  rw [hlen, Nat.cast_one]
  by_cases hone : (1 : ℤ) = wholeNumber 10 ds
  · have hone' : wholeNumber 10 ds = 1 := by exact_mod_cast hone.symm
    rw [hone', Nat.cast_one, one_mul]
  · rcases hgrid hunit hone with h | ⟨h, -⟩
    · exact h.le
    · exact h.le

include hx hz

/-- A decimal that lies on a finer grid and has no more digits is farther away. -/
theorem finer_farther (hlt : s < 10 ^ ds.length)
    (hmem : (s * 10 ^ (n - ds.length) : ℚ) ∈ (ofBinary64 x).roundingInterval) (hn : n < k) :
    |wholeNumber 10 ds * 10 ^ (k - ds.length) - (ofBinary64 x).magnitude| <
      |s * 10 ^ (n - ds.length) - (ofBinary64 x).magnitude| := by
  have hunit := unit_mem_of_finer hscale hlt hmem hn
  have hlen := length_eq_one_of_unit_mem hscale hgen hunit
  refine lt_of_le_of_lt (dist_le_unit hscale hgen hunit) ?_
  rw [hlen, Nat.cast_one] at hmem ⊢
  rw [hlen, pow_one] at hlt
  have hsmall : (s * 10 ^ (n - 1) : ℚ) ≤ 9 * 10 ^ (k - 1 - 1) := by
    gcongr
    · exact_mod_cast Nat.le_of_lt_succ hlt
    · norm_num
    · omega
  rcases lt_or_ge (ofBinary64 x).magnitude (10 ^ (k - 1)) with habove | hbelow
  · -- the unit is above the double
    have hcloser := unit_closer hx hz hunit hmem hsmall habove
    rw [abs_of_pos (sub_pos.mpr habove), abs_sub_comm]
    exact lt_of_lt_of_le hcloser (le_abs_self _)
  · -- the unit lies between the double and the decimal
    have hless : (s * 10 ^ (n - 1) : ℚ) < 10 ^ (k - 1) := by
      have hpow : (0 : ℚ) < 10 ^ (k - 1) := by positivity
      rw [zpow_sub_one₀ (by norm_num) (k - 1)] at hsmall
      linarith
    rw [abs_sub_comm, abs_sub_comm (s * 10 ^ (n - 1) : ℚ), abs_of_nonneg (sub_nonneg.mpr hbelow)]
    exact lt_of_lt_of_le (by linarith) (le_abs_self _)

/-- Every other decimal with as many digits in the rounding interval is farther away from the
double, or as far away and odd, while the generated one is even. -/
theorem closest_cases (hle : 10 ^ (ds.length - 1) ≤ s) (hlt : s < 10 ^ ds.length)
    (hmem : (s * 10 ^ (n - ds.length) : ℚ) ∈ (ofBinary64 x).roundingInterval)
    (hne : ¬ (n = k ∧ s = wholeNumber 10 ds)) :
    |wholeNumber 10 ds * 10 ^ (k - ds.length) - (ofBinary64 x).magnitude| <
        |s * 10 ^ (n - ds.length) - (ofBinary64 x).magnitude| ∨
      |wholeNumber 10 ds * 10 ^ (k - ds.length) - (ofBinary64 x).magnitude| =
          |s * 10 ^ (n - ds.length) - (ofBinary64 x).magnitude| ∧
        wholeNumber 10 ds % 2 = 0 ∧ s % 2 = 1 := by
  rcases lt_or_ge n k with hn | hn
  · exact .inl (finer_farther hx hz hscale hgen hlt hmem hn)
  · -- a point of the grid of the digits
    obtain ⟨i, rfl⟩ : ∃ i : ℕ, n = k + i := ⟨(n - k).toNat, by omega⟩
    have hgrid : (s * 10 ^ (k + i - ds.length) : ℚ) =
        ((s * 10 ^ i : ℕ) : ℤ) * 10 ^ (k - ds.length) := by
      rw [add_sub_right_comm, zpow_add₀ (by norm_num), zpow_natCast]
      push_cast
      ring
    rw [hgrid] at hmem ⊢
    rw [← span_scale] at hmem
    have hcases := hgen.grid_cases hmem
    rw [value_scale] at hcases
    cases i with
    | zero =>
      rw [pow_zero, mul_one] at hcases ⊢
      have hother : (s : ℤ) ≠ wholeNumber 10 ds := by
        intro heq
        exact hne ⟨by simp, by exact_mod_cast heq⟩
      rcases hcases hother with h | ⟨htie, heven, hodd⟩
      · exact .inl h
      · exact .inr ⟨htie, heven, by omega⟩
    | succ i =>
      -- it has more digits than the grid has places for, and is even
      have hbig : 10 ^ ds.length ≤ s * 10 ^ (i + 1) :=
        calc 10 ^ ds.length ≤ 10 ^ (ds.length - 1 + (i + 1)) :=
              Nat.pow_le_pow_right (by decide) (by omega)
          _ = 10 ^ (ds.length - 1) * 10 ^ (i + 1) := pow_add _ _ _
          _ ≤ s * 10 ^ (i + 1) := Nat.mul_le_mul_right _ hle
      have hsmall := wholeNumber_lt hgen.digits_lt
      rcases hcases (by omega) with h | ⟨-, -, hodd⟩
      · exact .inl h
      · rw [pow_succ, ← Nat.mul_assoc] at hodd
        omega

end Closest

end Decomposition

end Numerals
