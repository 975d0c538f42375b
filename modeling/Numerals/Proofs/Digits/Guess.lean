import Numerals.Proofs.Digits.Generate

/-!
# Digits from any guess

The exponent of the first digit is found from a guess, and nothing depends on how good the guess is.
From every long word but the least one the same exponent is reached, with the same ratios, and hence
the same digits or the same failure follow. The least long word stands for the absence of a guess;
it has no opposite, and a fault is raised.

After a guess there is a single way to fail, the bound on the number of digits, which no double
meets. The digits of a run need no finishing.
-/

namespace Numerals

namespace Scale

variable {c c' : Scale} {b : Radix} {d : Decomposition} {k k₀ : ℤ} {ds : List ℕ} {h : ℚ}

/-! ## The exponent of the first digit -/

/-- `h` lies between the powers of the radix with the exponents `k - 1` and `k`. If `closed`, it may
be equal to the lower one, and otherwise to the upper one. -/
def IsPlace (closed : Bool) (b : Radix) (h : ℚ) (k : ℤ) : Prop :=
  if closed then (b.val : ℚ) ^ (k - 1) ≤ h ∧ h < b.val ^ k
  else (b.val : ℚ) ^ (k - 1) < h ∧ h ≤ b.val ^ k

theorem atScale_iff_isPlace : AtScale b c k ↔ IsPlace c.inclusive b c.upper k := by
  unfold AtScale IsPlace
  rw [not_atMost]
  cases c.inclusive
  · exact Iff.rfl
  · exact Iff.rfl

/-- Every upper half-way point has exactly one place, which is found from any guess. -/
theorem isPlace_iff_eq_fix (b : Radix) (c : Scale) (k₀ k : ℤ) :
    IsPlace c.inclusive b c.upper k ↔ k = (c.fix b k₀).2 := by
  rw [← atScale_iff_isPlace]
  constructor
  · intro hk
    exact hk.unique (fix_atScale b c k₀)
  · rintro rfl
    exact fix_atScale b c k₀

/-! ## The ratios -/

theorem above_div (c : Scale) : (c.above / c.s : ℚ) = c.upper - c.value := by
  unfold upper value
  ring

theorem below_div (c : Scale) : (c.below / c.s : ℚ) = c.value - c.lower := by
  unfold lower value
  ring

/-- The three ratios of an interval at the exponent `k`. -/
theorem SameRatios.ratios (h : SameRatios c' (c.atExponent b k)) :
    (c'.r / c'.s : ℚ) = c.value / b.val ^ k ∧
    (c'.above / c'.s : ℚ) = (c.upper - c.value) / b.val ^ k ∧
    (c'.below / c'.s : ℚ) = (c.value - c.lower) / b.val ^ k := by
  rcases atExponent_ratios b c k with ⟨-, hvalue, hlower, hupper⟩
  refine ⟨?_, ?_, ?_⟩
  · rw [← hvalue, ← h.value]
    rfl
  · rw [above_div, h.upper, h.value, hupper, hvalue, sub_div]
  · rw [below_div, h.lower, h.value, hlower, hvalue, sub_div]

theorem SameRatios.emit_eq (h : SameRatios c c') (b : Radix) (k : ℤ) :
    c.emit b k = c'.emit b k := by
  unfold emit
  rw [h.run_eq]

theorem eq_scale_of_ofDecomposition (hc : ofDecomposition d = .ok c) : c = d.scale := by
  unfold ofDecomposition ofFloat at hc
  split_ifs at hc
  · cases hc
    rfl
  · cases hc

/-- For every decomposition whose interval is in reach of the table, one exponent and one outcome
belong to all guesses. The exponent is the place of the upper half-way point, and the interval is
divided by its power of the radix. Only the least long word is no guess. -/
theorem fixFrom_any_guess (hc : ofDecomposition d = .ok c) (b : Radix) :
    ∃ (k : ℤ) (out : Result Digits),
      (∀ j, IsPlace (d.mantissa % 2 = 0) b (d.magnitude + d.gapAbove) j ↔ j = k) ∧
      (∀ k₀, LongWord.least < k₀ → ∃ c', c.fixFrom b k₀ = .ok (c', k) ∧
        (c'.r / c'.s : ℚ) = d.magnitude / b.val ^ k ∧
        (c'.above / c'.s : ℚ) = d.gapAbove / b.val ^ k ∧
        (c'.below / c'.s : ℚ) = d.gapBelow / b.val ^ k ∧
        c'.emit b k = out) ∧
      c.fixFrom b LongWord.least = Result.raise (.negativeExponent b.val LongWord.least) := by
  have hscale := eq_scale_of_ofDecomposition hc
  -- the guess 0 stands for all of them
  refine ⟨(c.fix b 0).2, (c.atExponent b (c.fix b 0).2).emit b (c.fix b 0).2, ?_, ?_,
    fixFrom_least b c⟩
  · intro j
    rw [← d.inclusive_scale, ← d.upper_scale, ← hscale]
    exact isPlace_iff_eq_fix b c 0 j
  · intro k₀ hk₀
    have hexp := (fix_eq_of_guess b c k₀ 0).1
    have hsame : SameRatios (c.fix b k₀).1 (c.atExponent b (c.fix b 0).2) := by
      rw [← hexp]
      exact fix_sameRatios b c k₀
    rcases hsame.ratios with ⟨hvalue, habove, hbelow⟩
    refine ⟨(c.fix b k₀).1, ?_, ?_, ?_, ?_, hsame.emit_eq b _⟩
    · rw [fixFrom_eq_ok hk₀, ← hexp]
    · rw [hvalue, hscale, d.value_scale]
    · rw [habove, hscale, d.upper_scale, d.value_scale, add_sub_cancel_left]
    · rw [hbelow, hscale, d.lower_scale, d.value_scale, sub_sub_cancel]

/-- The least exponent in reach, and a mantissa of more than 64 bits. -/
theorem fixFrom_any_guess_least_exponent :
    ofDecomposition ⟨36893488147419103233, -1099, 1⟩ =
      .ok (Decomposition.scale ⟨36893488147419103233, -1099, 1⟩) ∧
    ∃ (k : ℤ) (out : Result Digits), ∀ k₀, LongWord.least < k₀ → ∃ c',
      (Decomposition.scale ⟨36893488147419103233, -1099, 1⟩).fixFrom .ten k₀ = .ok (c', k) ∧
      c'.emit .ten k = out := by
  have hc := Decomposition.ofDecomposition_eq_ok (d := ⟨36893488147419103233, -1099, 1⟩)
    (by decide) (by decide)
  rcases fixFrom_any_guess hc .ten with ⟨k, out, -, hguess, -⟩
  refine ⟨hc, k, out, ?_⟩
  intro k₀ hk₀
  rcases hguess k₀ hk₀ with ⟨c', hfix, -, -, -, hout⟩
  exact ⟨c', hfix, hout⟩

/-- A mantissa whose low 64 bits are zero has no guess, although its digit is found from others. -/
theorem fixFrom_of_no_guess :
    estimate ⟨2, by decide, by decide⟩ ⟨18446744073709551616, 0, 1⟩ = LongWord.least ∧
    Digits.generate ⟨18446744073709551616, 0, 1⟩ 2 =
      Result.raise (.negativeExponent 2 LongWord.least) ∧
    (ofDecomposition ⟨18446744073709551616, 0, 1⟩ >>= fun c =>
      Digits.ofScale ⟨2, by decide, by decide⟩ c 0) = .ok ⟨[1], 65, 2⟩ := by
  decide +kernel

/-! ## The digits of a run -/

theorem open_fix (hlow : 0 < c.lower) (b : Radix) (k₀ : ℤ) : Open (c.fix b k₀).1 := by
  have hsame := fix_sameRatios b c k₀
  have hopen := (fix_atScale b c k₀).isOpen hlow
  constructor
  · rw [hsame.reachesZero_eq]
    exact hopen.zero
  · rw [hsame.reachesOne_eq]
    exact hopen.one

/-- What a run returns at the scale of the first digit is tidy. -/
theorem tidy_of_run_fix (hlow : 0 < c.lower) (hrun : run b maxDigits (c.fix b k₀).1 = .ok ds) :
    Tidy b.val ds := by
  apply (run_generated (open_fix hlow b k₀) hrun).tidy
  have hdigit : ¬ (c.fix b k₀).1.belowDigit b.val := not_belowDigit_grow _ _
  rwa [belowDigit_iff, not_not] at hdigit

end Scale

namespace Digits

variable {c : Scale} {b : Radix} {d : Decomposition} {x : Binary64} {k₀ : ℤ}

/-- The digits `ds` come out of the interval `c` at the exponent `k`, from the guess `k₀`, and are
finished as they are: no carry, no zero at either end. -/
structure Emits (b : Radix) (c : Scale) (k₀ k : ℤ) (ds : List ℕ) : Prop where
  run : ∃ c', c.fixFrom b k₀ = .ok (c', k) ∧ Scale.run b Scale.maxDigits c' = .ok ds
  tidy : Scale.Tidy b.val ds
  carry : Scale.carry b.val ds = (0, ds)
  dropZeros : Scale.dropZeros ds = ds
  finish : Scale.finish b k ds = .ok ⟨ds.map Nat.toUInt8, k, b.val⟩

theorem Emits.ofScale_eq {k : ℤ} {ds : List ℕ} (h : Emits b c k₀ k ds) :
    ofScale b c k₀ = .ok ⟨ds.map Nat.toUInt8, k, b.val⟩ := by
  rcases h.run with ⟨c', hfix, hrun⟩
  unfold ofScale
  rw [hfix]
  change (do Scale.finish b k (← Scale.run b Scale.maxDigits c')) = _
  rw [hrun]
  exact h.finish

/-- From a guess there are digits, or the bound on their number is reached. -/
theorem emits_or_tooManyDigits (hlow : 0 < c.lower) (b : Radix) (hk₀ : LongWord.least < k₀) :
    (∃ k ds, Emits b c k₀ k ds) ∨
      ofScale b c k₀ = Result.refuse (.tooManyDigits Scale.maxDigits) := by
  have hfix := Scale.fixFrom_eq_ok (c := c) (b := b) hk₀
  rcases Scale.run_cases b Scale.maxDigits (Scale.open_fix hlow b k₀) with ⟨ds, hds⟩ | ⟨hrun, -⟩
  · left
    have htidy := Scale.tidy_of_run_fix hlow hds
    exact ⟨(c.fix b k₀).2, ds, ⟨_, hfix, hds⟩, htidy, Scale.carry_of_lt htidy.digits_lt,
      Scale.dropZeros_eq_self (.inr htidy.last_pos), htidy.finish_eq _⟩
  · right
    unfold ofScale
    rw [hfix]
    change (do Scale.finish b _ (← Scale.run b Scale.maxDigits (c.fix b k₀).1)) = _
    rw [hrun]
    rfl

/-- The digits of a decomposition are those of its interval. -/
theorem generate_eq_ofScale (hpos : 0 < d.mantissa) (hmark : d.exponent ≠ Decomposition.markExponent)
    (hlo : -1099 ≤ d.exponent) (hhi : d.exponent ≤ 1100) (b : Radix) :
    generate d b.val = ofScale b d.scale (Scale.estimate b d) := by
  have hfinite : d.isFinite = true := decide_eq_true hmark
  have hzero : d.isZero = false := decide_eq_false hpos.ne'
  unfold generate
  simp only [Decomposition.ofInt?_radix, hfinite, hzero]
  rw [Decomposition.ofDecomposition_eq_ok hlo hhi]
  rfl

/-- A double has digits in every radix: the powers of two are in the table, every digit is below the
radix, the bound on their number is not reached, and they need no finishing. A decomposition made by
hand, with an exponent in reach of the table, can fail only by the bound, whatever the guess;
but without a guess, if the low bits of the mantissa are no positive long word, a fault is
raised. -/
theorem generate_fails_only (b : Radix) :
    (∀ x : Binary64, x.isFinite → x.isZero = false → ∃ c k ds,
      Scale.ofDecomposition (.ofBinary64 x) = .ok c ∧
      Emits b c (Scale.estimate b (.ofBinary64 x)) k ds ∧
      generate (.ofBinary64 x) b.val = .ok ⟨ds.map Nat.toUInt8, k, b.val⟩) ∧
    ∀ d : Decomposition, 0 < d.mantissa → d.exponent ≠ Decomposition.markExponent →
      -1099 ≤ d.exponent → d.exponent ≤ 1100 → ∃ c, Scale.ofDecomposition d = .ok c ∧
        (∀ k₀, LongWord.least < k₀ → (∃ k ds, Emits b c k₀ k ds) ∨
          ofScale b c k₀ = Result.refuse (.tooManyDigits Scale.maxDigits)) ∧
        (0 < d.lowMantissa → LongWord.least < Scale.estimate b d ∧
          generate d b.val = ofScale b c (Scale.estimate b d)) ∧
        (d.lowMantissa ≤ 0 →
          generate d b.val = Result.raise (.negativeExponent b.val LongWord.least)) := by
  constructor
  · intro x hx hz
    rcases Decomposition.ofBinary64_bounds hx hz with ⟨hpos, hlt, hlo, hhi⟩
    rcases Decomposition.generate_generated hx hz b with ⟨k, ds, -, -, hgen, -⟩
    have hmark : (Decomposition.ofBinary64 x).exponent ≠ Decomposition.markExponent := by
      unfold Decomposition.markExponent
      omega
    have heq := generate_eq_ofScale hpos hmark (by omega) (by omega) b
    have hguess := Decomposition.least_lt_estimate (Decomposition.lowMantissa_pos hpos hlt)
      (by omega) b
    rcases emits_or_tooManyDigits (Decomposition.lower_scale_pos hpos) b hguess with
      ⟨k, ds, hemits⟩ | hmany
    · exact ⟨_, k, ds, Decomposition.ofDecomposition_eq_ok (by omega) (by omega), hemits,
        heq.trans hemits.ofScale_eq⟩
    · -- the digits of a double are not too many, since there are some
      rw [heq, hmany] at hgen
      cases hgen
  · intro d hpos hmark hlo hhi
    have heq := generate_eq_ofScale hpos hmark hlo hhi b
    refine ⟨_, Decomposition.ofDecomposition_eq_ok hlo hhi, ?_, ?_, ?_⟩
    · intro k₀ hk₀
      exact emits_or_tooManyDigits (Decomposition.lower_scale_pos hpos) b hk₀
    · intro hlow
      exact ⟨Decomposition.least_lt_estimate hlow hlo b, heq⟩
    · intro hlow
      have hleast : Scale.estimate b d = LongWord.least := if_pos hlow
      rw [heq, hleast]
      unfold ofScale
      rw [Scale.fixFrom_least]
      rfl

/-- The least subnormal double has digits in radix 36, and 2¹¹⁰⁰ + 1 has too many of them in
radix 2. -/
theorem generate_fails_only_extremes :
    (Binary64.mk 1).isFinite ∧ (Binary64.mk 1).isZero = false ∧
    (∃ c k ds, Scale.ofDecomposition (.ofBinary64 ⟨1⟩) = .ok c ∧
      Emits ⟨36, by decide, by decide⟩ c
        (Scale.estimate ⟨36, by decide, by decide⟩ (.ofBinary64 ⟨1⟩)) k ds) ∧
    0 < (Decomposition.mk (2 ^ 1100 + 1) 0 1).lowMantissa ∧
    (∃ c, Scale.ofDecomposition ⟨2 ^ 1100 + 1, 0, 1⟩ = .ok c ∧
      ∀ k₀, LongWord.least < k₀ → (∃ k ds, Emits ⟨2, by decide, by decide⟩ c k₀ k ds) ∨
        ofScale ⟨2, by decide, by decide⟩ c k₀ =
          Result.refuse (.tooManyDigits Scale.maxDigits)) ∧
    generate ⟨2 ^ 1100 + 1, 0, 1⟩ 2 = Result.refuse (.tooManyDigits Scale.maxDigits) := by
  have hfinite : (Binary64.mk 1).isFinite := by decide
  have hzero : (Binary64.mk 1).isZero = false := by decide
  rcases (generate_fails_only ⟨36, by decide, by decide⟩).1 _ hfinite hzero with
    ⟨c, k, ds, hc, hemits, -⟩
  rcases (generate_fails_only ⟨2, by decide, by decide⟩).2 ⟨2 ^ 1100 + 1, 0, 1⟩
    (Nat.succ_pos _) (by decide) (by decide) (by decide) with ⟨c', hc', hguess, -, -⟩
  exact ⟨hfinite, hzero, ⟨c, k, ds, hc, hemits⟩, by decide +kernel, ⟨c', hc', hguess⟩,
    by decide +kernel⟩

/-- The mantissa 2⁶³ fails although it has only 19 digits: its low 64 bits are a negative long
word. -/
theorem generate_raises_of_negative_word :
    generate ⟨9223372036854775808, 0, 1⟩ 10 =
      Result.raise (.negativeExponent 10 LongWord.least) ∧
    (Scale.ofDecomposition ⟨9223372036854775808, 0, 1⟩ >>= fun c => ofScale .ten c 19) =
      .ok ⟨[9, 2, 2, 3, 3, 7, 2, 0, 3, 6, 8, 5, 4, 7, 7, 5, 8, 0, 8], 19, 10⟩ := by
  decide +kernel

end Digits

end Numerals
