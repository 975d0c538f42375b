import Numerals.Digits.Shortest
import Numerals.Proofs.Binary.Decomposition
import Numerals.Proofs.Digits.Run
import Numerals.Proofs.Digits.Scaling

/-!
# Generated digit sequences

The digits of an interval, from the choice of the scale to the finished sequence. Generated digits
need no finishing: none of them is equal to the radix, the first one is not zero and neither is the
last. Main statement: for every finite double other than zero and every radix, generation succeeds,
and its result has one description, in which the guess at the exponent does not occur.
-/

namespace Numerals

/-! ## Finishing -/

namespace Scale

variable {c : Scale} {b : Radix} {k : ℤ} {ds : List ℕ}

theorem carry_of_lt {n : ℕ} (h : ∀ d ∈ ds, d < n) : carry n ds = (0, ds) := by
  induction ds with
  | nil => rfl
  | cons d ds ih =>
    have hd : d ≠ n := (h d List.mem_cons_self).ne
    rw [carry, ih fun e he => h e (List.mem_cons_of_mem d he)]
    simp [hd]

theorem dropZeros_eq_self (h : ds = [] ∨ 0 < ds.getLastD 0) : dropZeros ds = ds := by
  induction ds with
  | nil => rfl
  | cons d ds ih =>
    cases ds with
    | nil =>
      have hd : d ≠ 0 := by
        simp at h
        omega
      simp [dropZeros, hd]
    | cons e es =>
      have htail : 0 < (e :: es).getLastD 0 := by simpa using h
      rw [dropZeros, ih (.inr htail)]

/-- The first generated digit is not zero at the scale that `fix` finds: a leading zero would leave
a unit of the first place in the interval. -/
theorem Generated.head_pos (h : Generated b.val c ds)
    (hup : AtMost c.inclusive 1 (c.upper * b.val)) : ∃ d es, ds = d :: es ∧ 0 < d := by
  have hb := radix_pos_rat b
  have hlast := h.last_pos
  cases ds with
  | nil => simp at hlast
  | cons d es =>
    refine ⟨d, es, rfl, ?_⟩
    rcases Nat.eq_zero_or_pos d with rfl | hd
    · exfalso
      have hes : es ≠ [] := by
        rintro rfl
        simp at hlast
      have hlt : properFraction b.val es < 1 :=
        properFraction_lt_one (radix_pos b) fun e he => h.digits_lt e (List.mem_cons_of_mem 0 he)
      have hle : properFraction b.val (0 :: es) ≤ 1 / b.val := by
        rw [properFraction, Nat.cast_zero, zero_add]
        gcongr
      have hunit : AtMost c.inclusive (1 / b.val) c.upper := by
        rwa [← atMost_mul_right hb, div_mul_cancel₀ _ hb.ne']
      have hmem : (1 / b.val : ℚ) ∈ c.span := ⟨h.mem.1.trans_le hle, hunit⟩
      have hlen : 1 < (0 :: es).length := by
        have := List.length_pos_iff.mpr hes
        rw [List.length_cons]
        omega
      have hcoarse := h.coarser 1 hlen 1
      rw [pow_one, Int.cast_one] at hcoarse
      exact hcoarse hmem
    · exact hd

/-- There are digits, all of them below the radix, and neither the first nor the last one is zero. -/
structure Tidy (b : ℕ) (ds : List ℕ) : Prop where
  digits_lt : ∀ d ∈ ds, d < b
  head_pos : 0 < ds.headD 0
  last_pos : 0 < ds.getLastD 0

/-- Tidy digits are finished as they are. -/
theorem Tidy.finish_eq (h : Tidy b.val ds) (k : ℤ) :
    finish b k ds = .ok ⟨ds.map Nat.toUInt8, k, b.val⟩ := by
  have hcarry := carry_of_lt h.digits_lt
  have hhead := h.head_pos
  cases ds with
  | nil => exact absurd hhead (by decide)
  | cons d es =>
    have hdrop : dropZeros es = es := by
      apply dropZeros_eq_self
      cases es with
      | nil => exact .inl rfl
      | cons e es => exact .inr (by simpa using h.last_pos)
    obtain ⟨n, rfl⟩ : ∃ n, d = n + 1 := ⟨d - 1, by simp at hhead; omega⟩
    unfold finish
    rw [hcarry]
    change Except.ok (Digits.mk (((n + 1) :: dropZeros es).map Nat.toUInt8) k b.val) = _
    rw [hdrop]

theorem Generated.tidy (h : Generated b.val c ds)
    (hup : AtMost c.inclusive 1 (c.upper * b.val)) : Tidy b.val ds := by
  refine ⟨h.digits_lt, ?_, h.last_pos⟩
  rcases h.head_pos hup with ⟨d, es, rfl, hd⟩
  exact hd

/-! ## From the interval to the sequence -/

theorem mem_span_atExponent (b : Radix) (c : Scale) (k : ℤ) (x : ℚ) :
    x ∈ (c.atExponent b k).span ↔ x * b.val ^ k ∈ c.span := by
  obtain ⟨hi, -, hl, hu⟩ := atExponent_ratios b c k
  have hpow : (0 : ℚ) < b.val ^ k := zpow_pos (radix_pos_rat b) k
  unfold span
  rw [hi, hl, hu, ← mem_interval_mul hpow, div_mul_cancel₀ _ hpow.ne', div_mul_cancel₀ _ hpow.ne']

/-- At the scale of the first digit the upper half-way point reaches the unit of the first place. -/
theorem AtScale.one_le_upper (h : AtScale b c k) :
    AtMost (c.atExponent b k).inclusive 1 ((c.atExponent b k).upper * b.val) := by
  have hb := radix_pos_rat b
  obtain ⟨hi, -, -, hu⟩ := atExponent_ratios b c k
  have hcancel : c.upper / b.val ^ k * b.val * b.val ^ (k - 1) = c.upper := by
    rw [zpow_sub_one₀ hb.ne']
    field_simp
  rw [hi, hu, ← atMost_mul_right (zpow_pos hb (k - 1)), one_mul, hcancel]
  exact h.1

/-- At the scale of the first digit no whole number lies in an interval of positive numbers. -/
theorem AtScale.isOpen (h : AtScale b c k) (hlow : 0 < c.lower) : Open (c.atExponent b k) := by
  have hpow : (0 : ℚ) < b.val ^ k := zpow_pos (radix_pos_rat b) k
  rcases atExponent_ratios b c k with ⟨hi, -, hl, hu⟩
  constructor
  · rw [Bool.eq_false_iff, ne_eq, reachesZero_iff, hl]
    intro hzero
    exact absurd hzero.le (not_le.mpr (div_pos hlow hpow))
  · rw [Bool.eq_false_iff, ne_eq, reachesOne_iff, hi, hu, ← atMost_mul_right hpow, one_mul,
      div_mul_cancel₀ _ hpow.ne']
    exact h.2

/-- Digits are found for every interval of positive numbers that is not too narrow, and they do not
depend on the guess at the exponent. -/
theorem ofScale_generated (hlow : 0 < c.lower)
    (hwide : c.upper < (c.upper - c.lower) * b.val ^ (maxDigits - 1)) :
    ∃ k ds, AtScale b c k ∧ Generated b.val (c.atExponent b k) ds ∧
      ∀ k₀, LongWord.least < k₀ →
        Digits.ofScale b c k₀ = .ok ⟨ds.map Nat.toUInt8, k, b.val⟩ := by
  have hb := radix_pos_rat b
  -- the guess 0 stands for all of them
  set k := (c.fix b 0).2 with hk
  have hscale : AtScale b c k := fix_atScale b c 0
  obtain ⟨-, -, hl, hu⟩ := atExponent_ratios b c k
  have hpow : (0 : ℚ) < b.val ^ k := zpow_pos hb k
  have hsame : SameRatios (c.fix b 0).1 (c.atExponent b k) := fix_sameRatios b c 0
  have hopen := hscale.isOpen hlow
  obtain ⟨ds, hrun⟩ : ∃ ds, run b maxDigits (c.atExponent b k) = .ok ds := by
    apply run_ok hopen
    have hle : (b.val : ℚ) ^ k ≤ c.upper * b.val := by
      have h := mul_le_mul_of_nonneg_right hscale.1.le hb.le
      rwa [← zpow_add_one₀ hb.ne', sub_add_cancel] at h
    have hlt : (b.val : ℚ) ^ k < (c.upper - c.lower) * b.val ^ maxDigits :=
      calc (b.val : ℚ) ^ k ≤ c.upper * b.val := hle
        _ < (c.upper - c.lower) * b.val ^ (maxDigits - 1) * b.val :=
          mul_lt_mul_of_pos_right hwide hb
        _ = (c.upper - c.lower) * b.val ^ maxDigits := by
          rw [mul_assoc, ← pow_succ]
          rfl
    rwa [hu, hl, ← sub_div, div_mul_eq_mul_div, one_lt_div hpow]
  have hgen := run_generated hopen hrun
  refine ⟨k, ds, hscale, hgen, ?_⟩
  intro k₀ hk₀
  obtain ⟨hexp, hratios⟩ := fix_eq_of_guess b c k₀ 0
  have hrun₀ : run b maxDigits (c.fix b k₀).1 = .ok ds := by
    rw [(hratios.trans hsame).run_eq, hrun]
  unfold Digits.ofScale
  rw [fixFrom_eq_ok hk₀]
  change (do finish b (c.fix b k₀).2 (← run b maxDigits (c.fix b k₀).1)) = _
  rw [hrun₀, hexp]
  exact (hgen.tidy hscale.one_le_upper).finish_eq k

/-! ## The interval of a double -/

theorem ofScaled_ratios (f : ℕ) (e : ℤ) (narrow : Bool) :
    (ofScaled f e narrow).inclusive = decide (f % 2 = 0) ∧
    (ofScaled f e narrow).value = f * 2 ^ e ∧
    (ofScaled f e narrow).lower = f * 2 ^ e - (if narrow then 2 ^ e / 4 else 2 ^ e / 2) ∧
    (ofScaled f e narrow).upper = f * 2 ^ e + 2 ^ e / 2 := by
  by_cases he : 0 ≤ e
  · obtain ⟨n, rfl⟩ := Int.eq_ofNat_of_zero_le he
    cases narrow <;> simp only [ofScaled, if_pos he, value, lower, upper, Nat.pow_eq] <;>
      refine ⟨rfl, ?_, ?_, ?_⟩ <;> push_cast <;> simp <;> ring
  · obtain ⟨n, rfl⟩ : ∃ n : ℕ, e = -n := ⟨(-e).toNat, by omega⟩
    have h₁ : (1 - -(n : ℤ)).toNat = n + 1 := by omega
    have h₂ : (2 - -(n : ℤ)).toNat = n + 2 := by omega
    cases narrow <;> simp only [ofScaled, if_neg he, value, lower, upper, Nat.pow_eq, h₁, h₂] <;>
      refine ⟨rfl, ?_, ?_, ?_⟩ <;> push_cast <;> rw [zpow_neg, zpow_natCast] <;>
      field_simp <;> ring

end Scale

namespace Decomposition

open FloatFormat (binary64)

variable {x : Binary64}

/-- The interval from which the digits of a decomposed double are generated. -/
def scale (d : Decomposition) : Scale :=
  .ofScaled d.mantissa d.exponent (Scale.isNarrow d)

theorem isNarrow_iff (d : Decomposition) :
    Scale.isNarrow d ↔ d.mantissa = 2 ^ 52 ∧ -1074 < d.exponent := by
  unfold Scale.isNarrow minExponent
  simp

theorem value_scale (d : Decomposition) : d.scale.value = d.magnitude :=
  (Scale.ofScaled_ratios _ _ _).2.1

theorem lower_scale (d : Decomposition) : d.scale.lower = d.magnitude - d.gapBelow := by
  unfold scale gapBelow
  rw [(Scale.ofScaled_ratios _ _ _).2.2.1]
  simp only [isNarrow_iff]
  rfl

theorem upper_scale (d : Decomposition) : d.scale.upper = d.magnitude + d.gapAbove :=
  (Scale.ofScaled_ratios _ _ _).2.2.2

theorem inclusive_scale (d : Decomposition) : d.scale.inclusive = decide (d.mantissa % 2 = 0) :=
  (Scale.ofScaled_ratios _ _ _).1

theorem span_scale (d : Decomposition) : d.scale.span = d.roundingInterval := by
  unfold Scale.span roundingInterval
  rw [lower_scale, upper_scale, inclusive_scale]

/-- The parts of a finite double other than zero are in the range of the format. -/
theorem ofBinary64_bounds (hx : x.isFinite) (hz : x.isZero = false) :
    0 < (ofBinary64 x).mantissa ∧ (ofBinary64 x).mantissa < 2 ^ 53 ∧
    -1074 ≤ (ofBinary64 x).exponent ∧ (ofBinary64 x).exponent ≤ 971 := by
  have hb := rankBinade_le (Binary64.isFinite_iff.mp hx)
  have hpos := Binary64.rank_pos hz
  rw [ofBinary64_eq hx hz]
  have hexp : binary64.rankExponent x.rank = -1074 + binary64.rankBinade x.rank := rfl
  refine ⟨rankMantissa_pos hpos, binary64.rankMantissa_lt x.rank, ?_, ?_⟩
  · change -1074 ≤ binary64.rankExponent x.rank
    omega
  · change binary64.rankExponent x.rank ≤ 971
    omega

theorem gapBelow_pos (d : Decomposition) : 0 < d.gapBelow := by
  unfold gapBelow
  split <;> positivity

theorem gapBelow_le (d : Decomposition) : d.gapBelow ≤ 2 ^ d.exponent / 2 := by
  have hpos : (0 : ℚ) < 2 ^ d.exponent := by positivity
  unfold gapBelow
  split <;> linarith

theorem lower_scale_pos {d : Decomposition} (hd : 0 < d.mantissa) : 0 < d.scale.lower := by
  have hpos : (0 : ℚ) < 2 ^ d.exponent := by positivity
  have hm : (1 : ℚ) ≤ d.mantissa := by exact_mod_cast hd
  have hmag : (2 : ℚ) ^ d.exponent ≤ d.magnitude := le_mul_of_one_le_left hpos.le hm
  have hgap := d.gapBelow_le
  rw [lower_scale]
  linarith

/-- The interval of a double has a width of at least half a unit of the mantissa, so that a few
digits more than those of the mantissa are enough. -/
theorem scale_wide {d : Decomposition} (hd : d.mantissa < 2 ^ 53) (b : Radix) :
    d.scale.upper < (d.scale.upper - d.scale.lower) * b.val ^ (Scale.maxDigits - 1) := by
  have hpos : (0 : ℚ) < 2 ^ d.exponent := by positivity
  have hm : (d.mantissa : ℚ) + 1 ≤ 2 ^ 53 := by exact_mod_cast hd
  have hgap := d.gapBelow_pos
  have hbig : (2 : ℚ) ^ 54 ≤ b.val ^ (Scale.maxDigits - 1) :=
    calc (2 : ℚ) ^ 54 ≤ 2 ^ (Scale.maxDigits - 1) := pow_le_pow_right₀ one_le_two (by decide)
      _ ≤ b.val ^ (Scale.maxDigits - 1) := by
        gcongr
        exact_mod_cast b.two_le
  have hup : d.scale.upper < 2 ^ d.exponent / 2 * 2 ^ 54 := by
    rw [upper_scale, magnitude, gapAbove]
    nlinarith
  have hwidth : (2 : ℚ) ^ d.exponent / 2 ≤ d.scale.upper - d.scale.lower := by
    rw [upper_scale, lower_scale, gapAbove]
    linarith
  calc d.scale.upper < 2 ^ d.exponent / 2 * 2 ^ 54 := hup
    _ ≤ (d.scale.upper - d.scale.lower) * b.val ^ (Scale.maxDigits - 1) := by
      gcongr
      linarith

theorem ofDecomposition_eq_ok {d : Decomposition} (hlo : -1099 ≤ d.exponent)
    (hhi : d.exponent ≤ 1100) : Scale.ofDecomposition d = .ok d.scale := by
  unfold Scale.ofDecomposition Scale.ofFloat
  apply if_pos
  unfold Scale.tableExponent Integer.maxPowerOfTwo
  split_ifs with hsign hnarrow
  · exact hhi
  · -- an interval that is narrow below is not one of the least exponents
    have hexp := (d.isNarrow_iff.mp hnarrow).2
    omega
  · omega

theorem lowMantissa_toInt {d : Decomposition} (hlt : d.mantissa < 2 ^ 53) :
    d.lowMantissa.toInt = d.mantissa := by
  change (BitVec.ofNat 64 d.mantissa).toInt = d.mantissa
  rw [BitVec.toInt_ofNat']
  exact Int.bmod_eq_of_le (by omega) (by omega)

theorem lowMantissa_pos {d : Decomposition} (hpos : 0 < d.mantissa) (hlt : d.mantissa < 2 ^ 53) :
    0 < d.lowMantissa := by
  rw [Int64.lt_iff_toInt_lt, lowMantissa_toInt hlt]
  simpa using hpos

/-- A guess is a long word other than the least one. -/
theorem least_lt_estimate {d : Decomposition} (hlow : 0 < d.lowMantissa) (hlo : -1099 ≤ d.exponent)
    (b : Radix) : LongWord.least < Scale.estimate b d := by
  have hlog : (1 : ℤ) ≤ ((Nat.pow b.val 64).log2 : ℤ) := by
    have h : 1 ≤ (b.val ^ 64).log2 := by
      rw [Nat.le_log2 (Nat.pow_pos (Scale.radix_pos b)).ne', pow_one]
      exact le_trans b.two_le (Nat.le_self_pow (by decide) _)
    exact_mod_cast h
  have hguess : -70272 ≤ Scale.guess b d.mantissa d.exponent := by
    unfold Scale.guess
    rw [Int.le_ediv_iff_mul_le (by omega)]
    have hnum : -70272 ≤ 64 * ((d.mantissa.log2 : ℤ) + 1 + d.exponent) := by omega
    nlinarith
  unfold Scale.estimate LongWord.least
  rw [if_neg (Int64.not_le.mpr hlow)]
  omega

/-- The exponent of the first digit of a double is no greater in magnitude than it is in binary. -/
theorem exponent_bounds (hx : x.isFinite) (hz : x.isZero = false) {b : Radix} {k : ℤ}
    (hk : Scale.AtScale b (ofBinary64 x).scale k) : -1074 < k ∧ k ≤ 1025 := by
  obtain ⟨hpos, hlt, hlo, hhi⟩ := ofBinary64_bounds hx hz
  set d := ofBinary64 x
  have hb : (2 : ℚ) ≤ b.val := by exact_mod_cast b.two_le
  have hunit : (0 : ℚ) < 2 ^ d.exponent := by positivity
  have hm : (1 : ℚ) ≤ d.mantissa := by exact_mod_cast hpos
  have hm' : (d.mantissa : ℚ) + 1 ≤ 2 ^ 53 := by exact_mod_cast hlt
  have hupper : d.scale.upper = (d.mantissa + 1 / 2) * 2 ^ d.exponent := by
    rw [upper_scale, magnitude, gapAbove]
    ring
  constructor
  · -- the upper half-way point is above the least double, and below `b ^ k`
    have hle : d.scale.upper ≤ b.val ^ k := (not_atMost.mp hk.2).le
    have hge : (2 : ℚ) ^ (-1074 : ℤ) < d.scale.upper :=
      calc (2 : ℚ) ^ (-1074 : ℤ) ≤ 2 ^ d.exponent := zpow_le_zpow_right₀ one_le_two hlo
        _ < (d.mantissa + 1 / 2) * 2 ^ d.exponent := lt_mul_of_one_lt_left hunit (by linarith)
        _ = d.scale.upper := hupper.symm
    by_contra hcon
    have hbase : (2 : ℚ) ^ (-k) ≤ b.val ^ (-k) := zpow_le_zpow_left₀ (by omega) (by norm_num) hb
    have hneg : (b.val : ℚ) ^ k ≤ 2 ^ k := by
      rw [← neg_neg k, zpow_neg _ (-k), zpow_neg _ (-k)]
      exact inv_anti₀ (by positivity) hbase
    have hpow : (2 : ℚ) ^ k ≤ 2 ^ (-1074 : ℤ) := zpow_le_zpow_right₀ one_le_two (by omega)
    linarith
  · -- it is below the power of two past the largest double, and not below `b ^ (k - 1)`
    have hge : (b.val : ℚ) ^ (k - 1) ≤ d.scale.upper := hk.1.le
    have hle : d.scale.upper < 2 ^ (1024 : ℤ) :=
      calc d.scale.upper = (d.mantissa + 1 / 2) * 2 ^ d.exponent := hupper
        _ < 2 ^ 53 * 2 ^ d.exponent := by
          gcongr
          linarith
        _ ≤ 2 ^ 53 * 2 ^ (971 : ℤ) := by
          gcongr
          exact one_le_two
        _ = 2 ^ (1024 : ℤ) := by rw [← zpow_natCast, ← zpow_add₀ two_ne_zero]; norm_num
    by_contra hcon
    have hpow : (2 : ℚ) ^ (1024 : ℤ) ≤ 2 ^ (k - 1) := zpow_le_zpow_right₀ one_le_two (by omega)
    have hbase : (2 : ℚ) ^ (k - 1) ≤ b.val ^ (k - 1) :=
      zpow_le_zpow_left₀ (by omega) (by norm_num) hb
    linarith

/-! ## The digits of a double -/

theorem ofInt?_radix (b : Radix) : Radix.ofInt? b.val = some b := by
  have h₁ := b.two_le
  have h₂ := b.le_max
  rw [Radix.ofInt?, dif_pos (by omega)]
  rfl

/-- Digits are generated for every finite double other than zero in every radix, and they do not
depend on the guess at the exponent. -/
theorem generate_generated (hx : x.isFinite) (hz : x.isZero = false) (b : Radix) :
    ∃ k ds, Scale.AtScale b (ofBinary64 x).scale k ∧
      Scale.Generated b.val ((ofBinary64 x).scale.atExponent b k) ds ∧
      Digits.generate (ofBinary64 x) b.val = .ok ⟨ds.map Nat.toUInt8, k, b.val⟩ ∧
      ∀ k₀, LongWord.least < k₀ →
        (Scale.ofDecomposition (ofBinary64 x) >>= fun c => Digits.ofScale b c k₀) =
          .ok ⟨ds.map Nat.toUInt8, k, b.val⟩ := by
  obtain ⟨hpos, hlt, hlo, hhi⟩ := ofBinary64_bounds hx hz
  set d := ofBinary64 x
  obtain ⟨k, ds, hscale, hgen, hguess⟩ :=
    Scale.ofScale_generated (b := b) (lower_scale_pos hpos) (scale_wide hlt b)
  have hall : ∀ k₀, LongWord.least < k₀ →
      (Scale.ofDecomposition d >>= fun c => Digits.ofScale b c k₀) =
        .ok ⟨ds.map Nat.toUInt8, k, b.val⟩ := by
    intro k₀ hk₀
    rw [ofDecomposition_eq_ok (by omega) (by omega)]
    exact hguess k₀ hk₀
  refine ⟨k, ds, hscale, hgen, ?_, hall⟩
  have hfin : d.isFinite = true := decide_eq_true (show d.exponent ≠ 972 by omega)
  have hzero : d.isZero = false := decide_eq_false hpos.ne'
  unfold Digits.generate
  simp only [ofInt?_radix, hfin, hzero]
  exact hall _ (least_lt_estimate (lowMantissa_pos hpos hlt) (by omega) b)

end Decomposition

end Numerals
