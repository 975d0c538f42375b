import Numerals.Proofs.Digits.Generate

/-!
# Generated digits identify a double, and are the fewest that do

The number that generated digits stand for lies in the rounding interval of the double, so that
reading them gives the double back. No shorter sequence lies in the interval, at whatever exponent:
one at the same exponent or a greater one would be a point of a coarser grid, and one at a smaller
exponent would be less than a unit of the first place, which would then lie in the interval itself.
-/

namespace Numerals

/-! ## The value of a generated sequence -/

namespace Digits

variable {b : Radix} {k : ℤ} {ds : List ℕ}

theorem toNat_digits (h : ∀ d ∈ ds, d < b.val) : (ds.map Nat.toUInt8).map UInt8.toNat = ds := by
  have hmax := b.le_max
  rw [List.map_map]
  conv_rhs => rw [← List.map_id ds]
  apply List.map_congr_left
  intro d hd
  have hlt := h d hd
  exact UInt8.toNat_ofNat_of_lt' (show d < 256 by omega)

theorem value_mk (h : ∀ d ∈ ds, d < b.val) :
    value ⟨ds.map Nat.toUInt8, k, b.val⟩ = properFraction b.val ds * b.val ^ k := by
  rw [value_natCast, toNat_digits h]

end Digits

namespace Scale

variable {b : Radix} {c : Scale} {k : ℤ} {ds : List ℕ}

/-- The unit of the first place lies in the interval if a smaller number does. -/
theorem AtScale.unit_mem (hscale : AtScale b c k) {x : ℚ} (hx : x ∈ c.span)
    (hlt : x ≤ b.val ^ (k - 1)) : (b.val : ℚ) ^ (k - 1) ∈ c.span :=
  ⟨hx.1.trans_le hlt, hscale.1⟩

/-- The points of coarser grids do not lie in the interval. -/
theorem Generated.not_mem_of_lt_length (hgen : Generated b.val (c.atExponent b k) ds) {m : ℕ}
    (hm : m < ds.length) (z : ℤ) : (z * b.val ^ (k - m) : ℚ) ∉ c.span := by
  have h := hgen.coarser m hm z
  rwa [mem_span_atExponent, div_mul_eq_mul_div, mul_div_assoc, ← zpow_natCast,
    ← zpow_sub₀ (radix_pos_rat b).ne'] at h

/-- No number with fewer digits, at any exponent, lies in the interval. -/
theorem Generated.not_mem_of_fewer (hscale : AtScale b c k)
    (hgen : Generated b.val (c.atExponent b k) ds) {n m : ℕ} (hn : 0 < n) (hlt : n < b.val ^ m)
    (hm : m < ds.length) (j : ℤ) : (n * b.val ^ j : ℚ) ∉ c.span := by
  have hb := radix_pos_rat b
  intro hmem
  rcases le_or_gt (k - m) j with hle | hgt
  · -- a point of the grid of `m` digits
    obtain ⟨i, hi⟩ : ∃ i : ℕ, j = k - m + i := ⟨(j - (k - m)).toNat, by omega⟩
    have hgrid : (n * b.val ^ j : ℚ) = ((n * b.val ^ i : ℕ) : ℤ) * b.val ^ (k - m) := by
      rw [hi, zpow_add₀ hb.ne', zpow_natCast]
      push_cast
      ring
    rw [hgrid] at hmem
    exact hgen.not_mem_of_lt_length hm _ hmem
  · -- a number below the unit of the first place
    have hm0 : m ≠ 0 := by
      rintro rfl
      rw [pow_zero] at hlt
      omega
    have hsmall : (n * b.val ^ j : ℚ) ≤ b.val ^ (k - 1) :=
      calc (n * b.val ^ j : ℚ) ≤ b.val ^ m * b.val ^ j := by
            gcongr
            exact_mod_cast hlt.le
        _ = b.val ^ (m + j) := by rw [zpow_add₀ hb.ne', zpow_natCast]
        _ ≤ b.val ^ (k - 1) := zpow_le_zpow_right₀ (one_lt_radix b).le (by omega)
    have hunit := hscale.unit_mem hmem hsmall
    have hgrid : (b.val : ℚ) ^ (k - 1) = ((b.val ^ (m - 1) : ℕ) : ℤ) * b.val ^ (k - m) := by
      push_cast
      rw [← zpow_natCast, ← zpow_add₀ hb.ne']
      congr 1
      omega
    rw [hgrid] at hunit
    exact hgen.not_mem_of_lt_length hm _ hunit

end Scale

namespace Decomposition

open FloatFormat (binary64)

variable {x : Binary64}

theorem magnitude_ofBinary64 (hx : x.isFinite) (hz : x.isZero = false) :
    (ofBinary64 x).magnitude = |x.toRat| := by
  have hnn := binary64.rankValue_nonneg x.rank
  rw [ofBinary64_eq hx hz, Binary64.toRat_of_isFinite hx]
  change binary64.rankValue x.rank = _
  cases x.isNegative
  · simp [abs_of_nonneg hnn]
  · simp [abs_of_nonneg hnn]

theorem encodeRatio_of_mem {n m : ℕ} (hx : x.isFinite) (hz : x.isZero = false) (hm : 0 < m)
    (h : (n / m : ℚ) ∈ (ofBinary64 x).roundingInterval) (negative : Bool) :
    binary64.encodeRatio negative n m = (binary64.withSign negative x.rank, false) := by
  rw [roundingInterval_eq hx hz] at h
  exact Binary64.encodeRatio_of_mem hm (Binary64.isFinite_iff.mp hx) h negative

theorem value_mem_roundingInterval {b : Radix} {k : ℤ} {ds : List ℕ}
    (hgen : Scale.Generated b.val ((ofBinary64 x).scale.atExponent b k) ds) :
    Digits.value ⟨ds.map Nat.toUInt8, k, b.val⟩ ∈ (ofBinary64 x).roundingInterval := by
  rw [Digits.value_mk hgen.digits_lt, ← span_scale, ← Scale.mem_span_atExponent]
  exact hgen.mem

end Decomposition

namespace Digits

open FloatFormat (binary64)

/-! ## Main statements -/

/-- Digits are found for every finite double other than zero in every radix. Whatever the guess at
their exponent, the number they stand for lies in the rounding interval of the double, whose
absolute value is therefore what a correctly rounding reader finds for it, and what `encodeRatio`
finds without overflow for any ratio equal to it. -/
theorem generate_reads_back (x : Binary64) (hx : x.isFinite) (hz : x.isZero = false) (b : Radix) :
    ∃ ds, generate (.ofBinary64 x) b.val = .ok ds ∧
      (∀ k₀, LongWord.least < k₀ →
        (Scale.ofDecomposition (.ofBinary64 x) >>= fun c => ofScale b c k₀) = .ok ds) ∧
      (Decomposition.ofBinary64 x).magnitude = |x.toRat| ∧
      ds.value ∈ (Decomposition.ofBinary64 x).roundingInterval ∧
      x.abs.IsNearest ds.value ∧
      ∀ n m : ℕ, 0 < m → (n / m : ℚ) = ds.value →
        binary64.encodeRatio false n m = (x.abs.bits.toNat, false) := by
  obtain ⟨k, ds, -, hgen, hrun, hguess⟩ := Decomposition.generate_generated hx hz b
  have hmem := Decomposition.value_mem_roundingInterval hgen
  refine ⟨_, hrun, hguess, Decomposition.magnitude_ofBinary64 hx hz, hmem,
    (Decomposition.mem_roundingInterval_iff hx hz).mp hmem, ?_⟩
  intro n m hm hnm
  rw [← hnm] at hmem
  rw [Decomposition.encodeRatio_of_mem hx hz hm hmem, x.bits_abs]
  rfl

/-- The largest double is read back from its digits in radix 3, and not as an infinity. -/
theorem generate_reads_back_largest :
    (Binary64.mk 0x7FEFFFFFFFFFFFFF).isFinite ∧ (Binary64.mk 0x7FEFFFFFFFFFFFFF).isZero = false ∧
      ∃ ds, generate (.ofBinary64 ⟨0x7FEFFFFFFFFFFFFF⟩) 3 = .ok ds ∧
        (Binary64.mk 0x7FEFFFFFFFFFFFFF).abs.IsNearest ds.value := by
  obtain ⟨ds, hds, -, -, -, hnear, -⟩ := generate_reads_back ⟨0x7FEFFFFFFFFFFFFF⟩ (by decide)
    (by decide) ⟨3, by decide, by decide⟩
  exact ⟨by decide, by decide, ds, hds, hnear⟩

/-- The generated digits stand for a number in the rounding interval of the double, and no number
with fewer digits, at whatever exponent, lies in it. -/
theorem generate_fewest (x : Binary64) (hx : x.isFinite) (hz : x.isZero = false) (b : Radix) :
    ∃ ds, generate (.ofBinary64 x) b.val = .ok ds ∧
      ds.value ∈ (Decomposition.ofBinary64 x).roundingInterval ∧
      ∀ (n m : ℕ) (j : ℤ), 0 < n → n < b.val ^ m → m < ds.digits.length →
        (n * b.val ^ j : ℚ) ∉ (Decomposition.ofBinary64 x).roundingInterval := by
  obtain ⟨k, ds, hscale, hgen, hrun, -⟩ := Decomposition.generate_generated hx hz b
  refine ⟨_, hrun, Decomposition.value_mem_roundingInterval hgen, ?_⟩
  intro n m j hn hlt hm
  rw [List.length_map] at hm
  rw [← Decomposition.span_scale]
  exact hgen.not_mem_of_fewer hscale hn hlt hm j

/-- The double next to 0.3 above it has no shorter decimals than the generated one. -/
theorem generate_fewest_above_three_tenths :
    (Binary64.mk 0x3FD3333333333334).isFinite ∧ (Binary64.mk 0x3FD3333333333334).isZero = false ∧
      ∃ ds, generate (.ofBinary64 ⟨0x3FD3333333333334⟩) 10 = .ok ds ∧
        ds.value ∈ (Decomposition.ofBinary64 ⟨0x3FD3333333333334⟩).roundingInterval ∧
        ∀ (n m : ℕ) (j : ℤ), 0 < n → n < 10 ^ m → m < ds.digits.length →
          (n * 10 ^ j : ℚ) ∉ (Decomposition.ofBinary64 ⟨0x3FD3333333333334⟩).roundingInterval := by
  obtain ⟨ds, hds, hmem, hfewest⟩ :=
    generate_fewest ⟨0x3FD3333333333334⟩ (by decide) (by decide) .ten
  exact ⟨by decide, by decide, ds, hds, hmem, hfewest⟩

end Digits

end Numerals
