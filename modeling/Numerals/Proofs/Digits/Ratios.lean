import Numerals.Digits.Scale
import Numerals.Proofs.Binary.Rank

/-!
# The ratios of a scale

A scale stands for three rational numbers: the number itself and the two ends of its rounding
interval. Every test made on a scale is a comparison of these numbers with 0, 1, one half or a
power of the radix, so that two scales with the same ratios cannot be told apart.
-/

namespace Numerals.Scale

variable {c c' : Scale} {b : Radix} {n : ℕ} {q : ℚ}

/-- The number that a scale is about. -/
def value (c : Scale) : ℚ :=
  c.r / c.s

/-- The half-way point below. -/
def lower (c : Scale) : ℚ :=
  (c.r - c.below) / c.s

/-- The half-way point above. -/
def upper (c : Scale) : ℚ :=
  (c.r + c.above) / c.s

/-- The rounding interval. -/
def span (c : Scale) : Set ℚ :=
  interval c.inclusive c.lower c.upper

/-- Two scales stand for the same numbers. -/
structure SameRatios (c c' : Scale) : Prop where
  inclusive : c.inclusive = c'.inclusive
  value : c.value = c'.value
  lower : c.lower = c'.lower
  upper : c.upper = c'.upper

theorem radix_pos_rat (b : Radix) : (0 : ℚ) < b.val := by
  exact_mod_cast radix_pos b

theorem one_lt_radix (b : Radix) : (1 : ℚ) < b.val := by
  exact_mod_cast b.two_le

theorem s_pos_rat (c : Scale) : (0 : ℚ) < c.s := by
  exact_mod_cast c.s_pos

theorem value_nonneg (c : Scale) : 0 ≤ c.value := by
  unfold value
  positivity

theorem lower_le_value (c : Scale) : c.lower ≤ c.value := by
  have hs := c.s_pos_rat
  unfold lower value
  gcongr
  linarith [(Nat.cast_nonneg c.below : (0 : ℚ) ≤ c.below)]

theorem value_lt_upper (c : Scale) : c.value < c.upper := by
  have hs := c.s_pos_rat
  have ha : (0 : ℚ) < c.above := by exact_mod_cast c.above_pos
  unfold value upper
  gcongr
  linarith

/-! ## Multiplication and division -/

@[simp] theorem inclusive_mul (hn : 0 < n) : (c.mul n hn).inclusive = c.inclusive := rfl

@[simp] theorem value_mul (hn : 0 < n) : (c.mul n hn).value = c.value * n := by
  unfold value mul
  push_cast
  ring

@[simp] theorem lower_mul (hn : 0 < n) : (c.mul n hn).lower = c.lower * n := by
  unfold lower mul
  push_cast
  ring

@[simp] theorem upper_mul (hn : 0 < n) : (c.mul n hn).upper = c.upper * n := by
  unfold upper mul
  push_cast
  ring

@[simp] theorem inclusive_div (hn : 0 < n) : (c.div n hn).inclusive = c.inclusive := rfl

@[simp] theorem value_div (hn : 0 < n) : (c.div n hn).value = c.value / n := by
  unfold value div
  push_cast
  rw [div_div]

@[simp] theorem lower_div (hn : 0 < n) : (c.div n hn).lower = c.lower / n := by
  unfold lower div
  push_cast
  rw [div_div]

@[simp] theorem upper_div (hn : 0 < n) : (c.div n hn).upper = c.upper / n := by
  unfold upper div
  push_cast
  rw [div_div]

/-- The interval at the exponent `k` is the interval divided by `b ^ k`. -/
theorem atExponent_ratios (b : Radix) (c : Scale) (k : ℤ) :
    (c.atExponent b k).inclusive = c.inclusive ∧
    (c.atExponent b k).value = c.value / b.val ^ k ∧
    (c.atExponent b k).lower = c.lower / b.val ^ k ∧
    (c.atExponent b k).upper = c.upper / b.val ^ k := by
  unfold atExponent
  split
  · rename_i h
    obtain ⟨n, rfl⟩ := Int.eq_ofNat_of_zero_le h
    simp
  · rename_i h
    obtain ⟨n, rfl⟩ : ∃ n : ℕ, k = -n := ⟨(-k).toNat, by omega⟩
    simp

/-! ## The tests -/

theorem reachesOne_iff : c.reachesOne ↔ AtMost c.inclusive 1 c.upper := by
  have hs := c.s_pos_rat
  unfold reachesOne AtMost upper
  cases c.inclusive
  · simp only [Bool.false_eq_true, if_false, decide_eq_true_eq]
    rw [one_lt_div hs]
    exact_mod_cast Iff.rfl
  · simp only [if_true, decide_eq_true_eq]
    rw [one_le_div hs]
    exact_mod_cast Iff.rfl

theorem belowDigit_iff : c.belowDigit n ↔ ¬ AtMost c.inclusive 1 (c.upper * n) := by
  have hs := c.s_pos_rat
  unfold belowDigit AtMost upper
  rw [div_mul_eq_mul_div]
  cases c.inclusive
  · simp only [Bool.false_eq_true, if_false, decide_eq_true_eq]
    rw [one_lt_div hs, not_lt]
    exact_mod_cast Iff.rfl
  · simp only [if_true, decide_eq_true_eq]
    rw [one_le_div hs, not_le]
    exact_mod_cast Iff.rfl

theorem reachesZero_iff : c.reachesZero ↔ AtMost c.inclusive c.lower 0 := by
  have hs := c.s_pos_rat
  unfold reachesZero AtMost lower
  cases c.inclusive
  · simp only [Bool.false_and, Bool.or_false, Bool.false_eq_true, if_false, decide_eq_true_eq]
    rw [div_lt_iff₀ hs, zero_mul, sub_neg]
    exact_mod_cast Iff.rfl
  · simp only [Bool.true_and, Bool.or_eq_true, decide_eq_true_eq, beq_iff_eq, if_true]
    rw [div_le_iff₀ hs, zero_mul, sub_nonpos, Nat.cast_le]
    omega

theorem two_mul_r_lt_iff : 2 * c.r < c.s ↔ c.value < 1 / 2 := by
  unfold value
  rw [div_lt_div_iff₀ c.s_pos_rat two_pos, one_mul, mul_comm]
  exact_mod_cast Iff.rfl

theorem lt_two_mul_r_iff : c.s < 2 * c.r ↔ 1 / 2 < c.value := by
  unfold value
  rw [div_lt_div_iff₀ two_pos c.s_pos_rat, one_mul, mul_comm]
  exact_mod_cast Iff.rfl

/-- 0 lies in the interval if the lower end reaches it. -/
theorem zero_mem_span_iff : 0 ∈ c.span ↔ c.reachesZero := by
  rw [reachesZero_iff]
  exact ⟨fun h => h.1, fun h => ⟨h, .of_lt (lt_of_le_of_lt c.value_nonneg c.value_lt_upper)⟩⟩

/-- 1 lies in the interval of a number below 1 if the upper end reaches it. -/
theorem one_mem_span_iff (h : c.value < 1) : 1 ∈ c.span ↔ c.reachesOne := by
  rw [reachesOne_iff]
  exact ⟨fun h => h.2, fun h' => ⟨.of_lt (lt_of_le_of_lt c.lower_le_value h), h'⟩⟩

/-! ## Scales with the same ratios -/

theorem SameRatios.symm (h : SameRatios c c') : SameRatios c' c :=
  ⟨h.inclusive.symm, h.value.symm, h.lower.symm, h.upper.symm⟩

theorem SameRatios.trans {c'' : Scale} (h : SameRatios c c') (h' : SameRatios c' c'') :
    SameRatios c c'' :=
  ⟨h.inclusive.trans h'.inclusive, h.value.trans h'.value, h.lower.trans h'.lower,
    h.upper.trans h'.upper⟩

theorem SameRatios.reachesOne_eq (h : SameRatios c c') : c.reachesOne = c'.reachesOne := by
  rw [Bool.eq_iff_iff, reachesOne_iff, reachesOne_iff, h.inclusive, h.upper]

theorem SameRatios.reachesZero_eq (h : SameRatios c c') : c.reachesZero = c'.reachesZero := by
  rw [Bool.eq_iff_iff, reachesZero_iff, reachesZero_iff, h.inclusive, h.lower]

theorem SameRatios.lastDigit_eq (h : SameRatios c c') (d : ℕ) : lastDigit d c = lastDigit d c' := by
  unfold lastDigit
  simp only [two_mul_r_lt_iff, lt_two_mul_r_iff, h.value]

end Numerals.Scale
