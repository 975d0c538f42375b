import Numerals.Proofs.Digits.Closest

/-!
# The grid of the last place

Generated digits stand for a multiple of the unit of their last place. Main statements: of all such
multiples in the rounding interval the generated one is the closest to the double, with an even last
digit where another one is equally close; and it is the double itself in the radixes that are powers
of two, and in all radixes for the whole numbers below `2 ^ 53`.

A double on the grid is its own closest point. One that lies between the points of the grid is at
most half a unit of its mantissa away from the generated point, which is too little for two
different multiples of that unit, or for two different whole numbers.
-/

namespace Numerals

/-- The unit of the last place of a digit sequence. -/
def Digits.unit (ds : Digits) : ℚ :=
  (ds.radix : ℚ) ^ (ds.exponent - ds.digits.length)

namespace Scale

variable {b : Radix} {c : Scale} {k : ℤ} {ds : List ℕ} {z : ℤ}

/-! ## The last digit -/

theorem Generated.last_lt {n : ℕ} (hgen : Generated n c ds) : ds.getLastD 0 < n := by
  apply hgen.digits_lt
  rw [List.getLastD_eq_getLast?, List.getLast?_eq_some_getLast hgen.ne_nil, Option.getD_some]
  exact List.getLast_mem hgen.ne_nil

theorem Generated.whole_mod (hgen : Generated b.val c ds) :
    wholeNumber b.val ds % b.val = ds.getLastD 0 := by
  rw [wholeNumber_mod (dvd_refl _), Nat.mod_eq_of_lt hgen.last_lt]

/-- No point of the grid in the interval ends with the digit 0: it would be a point of a coarser
grid. -/
theorem Generated.not_dvd (hgen : Generated b.val (c.atExponent b k) ds)
    (hz : (z * b.val ^ (k - ds.length) : ℚ) ∈ c.span) : ¬ (b.val : ℤ) ∣ z := by
  rintro ⟨y, rfl⟩
  have hpos := List.length_pos_iff.mpr hgen.ne_nil
  have hcoarser := hgen.not_mem_of_lt_length (m := ds.length - 1) (by omega) y
  apply hcoarser
  have hunit : (b.val : ℚ) ^ (k - (ds.length - 1 : ℕ)) = b.val * b.val ^ (k - ds.length) := by
    rw [← zpow_one_add₀ (radix_pos_rat b).ne']
    congr 1
    omega
  rw [hunit]
  convert hz using 1
  push_cast
  ring

/-- Of two points of the grid in the interval that are equally close, the generated one has an even
last digit and the other one an odd one. -/
theorem Generated.even_of_tie (hgen : Generated b.val (c.atExponent b k) ds)
    (hz : (z * b.val ^ (k - ds.length) : ℚ) ∈ c.span) (hne : z ≠ wholeNumber b.val ds)
    (htie : |wholeNumber b.val ds * b.val ^ (k - ds.length) - c.value| =
      |z * b.val ^ (k - ds.length) - c.value|) :
    ds.getLastD 0 % 2 = 0 ∧ z % b.val % 2 = 1 := by
  have hlt := hgen.last_lt
  have hpos := hgen.last_pos
  have hmod : (wholeNumber b.val ds : ℤ) % b.val = ds.getLastD 0 := by
    exact_mod_cast hgen.whole_mod
  have heven : ds.getLastD 0 % 2 = 0 := by
    have hnearest := (atMost_iff.mp (hgen.nearest_grid hz hne)).2 htie.symm
    simpa using hnearest
  have hdvd := hgen.not_dvd hz
  refine ⟨heven, ?_⟩
  -- the other point is a neighbour, so that its last digit is one more or one less
  rcases hgen.tie_adjacent hz hne htie with hnext | hprev
  · have hlast : z % b.val = (ds.getLastD 0 + 1 : ℤ) % b.val := by
      rw [hnext, ← Int.emod_add_emod, hmod]
    have hfull : (ds.getLastD 0 : ℤ) + 1 ≠ b.val := by
      intro hfull
      rw [hfull, Int.emod_self] at hlast
      exact hdvd (Int.dvd_of_emod_eq_zero hlast)
    have hdigit : (ds.getLastD 0 + 1 : ℤ) % b.val = ds.getLastD 0 + 1 :=
      Int.emod_eq_of_lt (by omega) (by omega)
    omega
  · have hlast : z % b.val = (ds.getLastD 0 + -1 : ℤ) % b.val := by
      rw [hprev, Int.sub_eq_add_neg, ← Int.emod_add_emod, hmod]
    have hdigit : (ds.getLastD 0 + -1 : ℤ) % b.val = ds.getLastD 0 + -1 :=
      Int.emod_eq_of_lt (by omega) (by omega)
    omega

/-! ## Exact digits -/

theorem value_mem_span (hbelow : c.lower < c.value) : c.value ∈ c.span :=
  mem_interval_of_lt hbelow c.value_lt_upper

/-- A number on the grid of its digits is what they stand for. -/
theorem Generated.whole_eq_value (hgen : Generated b.val (c.atExponent b k) ds)
    (hbelow : c.lower < c.value) (hz : c.value = z * b.val ^ (k - ds.length)) :
    wholeNumber b.val ds * (b.val : ℚ) ^ (k - ds.length) = c.value := by
  by_cases hne : z = wholeNumber b.val ds
  · rw [hz, hne, Int.cast_natCast]
  · have hmem := value_mem_span hbelow
    rw [hz] at hmem
    have hle := (hgen.nearest_grid hmem hne).le
    -- the other point has the distance 0
    rw [← hz, sub_self, abs_zero] at hle
    exact sub_eq_zero.mp (abs_nonpos_iff.mp hle)

end Scale

/-- Two multiples of a unit that are less than one unit apart are equal. -/
theorem eq_of_dist_lt_unit {m n : ℤ} {u : ℚ} (hdist : |m * u - n * u| < u) :
    (m * u : ℚ) = n * u := by
  have hu : 0 < u := lt_of_le_of_lt (abs_nonneg _) hdist
  rw [← sub_mul, abs_mul, abs_of_pos hu, mul_lt_iff_lt_one_left hu] at hdist
  have hone : |m - n| < 1 := by exact_mod_cast hdist
  rw [sub_eq_zero.mp (Int.abs_lt_one_iff.mp hone)]

namespace Decomposition

variable {x : Binary64} {d : Decomposition}

/-- What lies in the rounding interval is at most half a unit of the mantissa away. -/
theorem dist_le_of_mem {q : ℚ} (hq : q ∈ d.roundingInterval) :
    |q - d.magnitude| ≤ 2 ^ d.exponent / 2 := by
  have hgap := d.gapBelow_le
  have hlow : d.magnitude - d.gapBelow ≤ q := hq.1.le
  have hhigh : q ≤ d.magnitude + 2 ^ d.exponent / 2 := hq.2.le
  rw [abs_le]
  constructor
  · linarith
  · linarith

/-- A multiple of some unit in the rounding interval is the double, if the double is a multiple of
it too and the unit is more than half a unit of the mantissa. -/
theorem eq_magnitude_of_unit {m n : ℤ} {u : ℚ} (hunit : 2 ^ d.exponent / 2 < u)
    (hmem : (m * u : ℚ) ∈ d.roundingInterval) (hmag : d.magnitude = n * u) :
    (m * u : ℚ) = d.magnitude := by
  have hdist := dist_le_of_mem hmem
  rw [hmag] at hdist ⊢
  exact eq_of_dist_lt_unit (lt_of_le_of_lt hdist hunit)

/-- A whole number below `2 ^ 53` has no unit of the mantissa above 1. -/
theorem exponent_nonpos (hx : x.isFinite) (hz : x.isZero = false)
    (hlt : (ofBinary64 x).magnitude < 2 ^ 53) : (ofBinary64 x).exponent ≤ 0 := by
  have hsub := exponent_of_subnormal hx hz
  by_contra hpos
  rcases Nat.lt_or_ge (ofBinary64 x).mantissa (2 ^ 52) with hsmall | hlarge
  · rw [hsub hsmall] at hpos
    omega
  · have hmant : (2 ^ 52 : ℚ) ≤ (ofBinary64 x).mantissa := by exact_mod_cast hlarge
    have hexp : (2 : ℚ) ^ (1 : ℤ) ≤ 2 ^ (ofBinary64 x).exponent :=
      zpow_le_zpow_right₀ one_le_two (by omega)
    have hge : (2 ^ 53 : ℚ) ≤ (ofBinary64 x).magnitude :=
      calc (2 ^ 53 : ℚ) = 2 ^ 52 * 2 ^ (1 : ℤ) := by norm_num
        _ ≤ (ofBinary64 x).mantissa * 2 ^ (ofBinary64 x).exponent := by gcongr
    exact absurd hlt (not_lt.mpr hge)

section Exact

variable {b : Radix} {k : ℤ} {ds : List ℕ}
  (hgen : Scale.Generated b.val ((ofBinary64 x).scale.atExponent b k) ds)

theorem lower_lt_value (d : Decomposition) : d.scale.lower < d.scale.value := by
  have hgap := d.gapBelow_pos
  rw [lower_scale, value_scale]
  linarith

include hgen

theorem whole_mem_roundingInterval :
    (wholeNumber b.val ds * b.val ^ (k - ds.length) : ℚ) ∈ (ofBinary64 x).roundingInterval := by
  rw [← span_scale]
  exact hgen.whole_mem

theorem whole_eq_magnitude {z : ℤ}
    (hz : (ofBinary64 x).magnitude = z * b.val ^ (k - ds.length)) :
    wholeNumber b.val ds * (b.val : ℚ) ^ (k - ds.length) = (ofBinary64 x).magnitude := by
  rw [← value_scale] at hz ⊢
  exact hgen.whole_eq_value (lower_lt_value _) hz

/-- In a radix that is a power of two the grid of the digits and the grid of the mantissas are
powers of two, so that one of them is part of the other. -/
theorem exact_of_power_of_two {i : ℕ} (hb : b.val = 2 ^ i) :
    wholeNumber b.val ds * (b.val : ℚ) ^ (k - ds.length) = (ofBinary64 x).magnitude := by
  have hmem := whole_mem_roundingInterval hgen
  have hgrid := fun z : ℤ => whole_eq_magnitude (z := z) hgen
  have hpow : (b.val : ℚ) ^ (k - ds.length) = 2 ^ (i * (k - ds.length)) := by
    rw [hb, Nat.cast_pow, Nat.cast_ofNat, ← zpow_natCast, ← zpow_mul]
  set d := ofBinary64 x
  set j := i * (k - ds.length)
  rw [hpow] at hmem hgrid ⊢
  rcases le_or_gt j d.exponent with hfine | hcoarse
  · -- the double is on the grid of the digits
    obtain ⟨n, hn⟩ : ∃ n : ℕ, d.exponent = j + n := ⟨(d.exponent - j).toNat, by omega⟩
    apply hgrid (d.mantissa * 2 ^ n)
    rw [magnitude, hn, zpow_add₀ two_ne_zero, zpow_natCast]
    push_cast
    ring
  · -- the digits are on the grid of the mantissas
    obtain ⟨n, hn⟩ : ∃ n : ℕ, j = d.exponent + n := ⟨(j - d.exponent).toNat, by omega⟩
    have hpos : (0 : ℚ) < 2 ^ d.exponent := by positivity
    have hmul : (wholeNumber b.val ds * 2 ^ j : ℚ) =
        ((wholeNumber b.val ds * 2 ^ n : ℤ) : ℚ) * 2 ^ d.exponent := by
      rw [hn, zpow_add₀ two_ne_zero, zpow_natCast]
      push_cast
      ring
    rw [hmul] at hmem ⊢
    exact eq_magnitude_of_unit (n := d.mantissa) (half_lt_self hpos) hmem (by push_cast; rfl)

/-- A whole number is on the grid of its digits if these reach to the ones or past them; if not, its
digits stand for a whole number. -/
theorem exact_of_whole {n : ℤ} (hn : (ofBinary64 x).magnitude = n)
    (hexp : (ofBinary64 x).exponent ≤ 0) :
    wholeNumber b.val ds * (b.val : ℚ) ^ (k - ds.length) = (ofBinary64 x).magnitude := by
  have hmem := whole_mem_roundingInterval hgen
  have hb := Scale.radix_pos_rat b
  rcases le_or_gt (k - ds.length) 0 with hfine | hcoarse
  · obtain ⟨i, hi⟩ : ∃ i : ℕ, k - ds.length = -i := ⟨(-(k - ds.length)).toNat, by omega⟩
    apply whole_eq_magnitude hgen (z := n * b.val ^ i)
    rw [hn, hi, zpow_neg, zpow_natCast]
    push_cast
    field_simp
  · obtain ⟨i, hi⟩ : ∃ i : ℕ, k - ds.length = i := ⟨(k - ds.length).toNat, by omega⟩
    have hmul : (wholeNumber b.val ds * (b.val : ℚ) ^ (k - ds.length)) =
        ((wholeNumber b.val ds * b.val ^ i : ℤ) : ℚ) * 1 := by
      rw [hi, zpow_natCast]
      push_cast
      ring
    have hhalf : (2 : ℚ) ^ (ofBinary64 x).exponent / 2 < 1 := by
      have hle : (2 : ℚ) ^ (ofBinary64 x).exponent ≤ 2 ^ (0 : ℤ) :=
        zpow_le_zpow_right₀ one_le_two hexp
      rw [zpow_zero] at hle
      linarith
    rw [hmul] at hmem ⊢
    exact eq_magnitude_of_unit (n := n) hhalf hmem (by rw [hn, mul_one])

end Exact

end Decomposition

namespace Digits

/-! ## Main statements -/

theorem value_eq_whole {b : Radix} {k : ℤ} {ds : List ℕ} (h : ∀ d ∈ ds, d < b.val) :
    value ⟨ds.map Nat.toUInt8, k, b.val⟩ =
      wholeNumber b.val ds * unit ⟨ds.map Nat.toUInt8, k, b.val⟩ := by
  rw [value_mk h, properFraction_mul_zpow (Scale.radix_pos b), unit, List.length_map,
    Int.cast_natCast]

/-- The generated digits stand for a multiple of the unit of their last place in the rounding
interval of the double. No other one in the interval is closer to the absolute value of the double,
and where one is equally close the generated one ends with an even digit and the other one with an
odd one. -/
theorem generate_closest (x : Binary64) (hx : x.isFinite) (hz : x.isZero = false) (b : Radix) :
    ∃ ds, generate (.ofBinary64 x) b.val = .ok ds ∧ ds.radix = b.val ∧
      ds.value ∈ (Decomposition.ofBinary64 x).roundingInterval ∧
      ∃ w : ℤ, ds.value = w * ds.unit ∧ w % b.val = (ds.digits.getLastD 0).toNat ∧
        ∀ z : ℤ, z * ds.unit ∈ (Decomposition.ofBinary64 x).roundingInterval →
          |(ds.value - |x.toRat|)| ≤ |(z * ds.unit - |x.toRat|)| ∧
          (z ≠ w → |(ds.value - |x.toRat|)| = |(z * ds.unit - |x.toRat|)| →
            (ds.digits.getLastD 0).toNat % 2 = 0 ∧ z % b.val % 2 = 1) := by
  obtain ⟨k, ds, -, hgen, hrun, -⟩ := Decomposition.generate_generated hx hz b
  have hlast : ((ds.map Nat.toUInt8).getLastD 0).toNat = ds.getLastD 0 := by
    conv_rhs => rw [← toNat_digits hgen.digits_lt]
    exact (List.getLastD_map (f := UInt8.toNat) (a := 0)).symm
  have hmod : (wholeNumber b.val ds : ℤ) % b.val = ds.getLastD 0 := by
    exact_mod_cast hgen.whole_mod
  refine ⟨_, hrun, rfl, Decomposition.value_mem_roundingInterval hgen, wholeNumber b.val ds,
    ?_, ?_, ?_⟩
  · rw [value_eq_whole hgen.digits_lt, Int.cast_natCast]
  · rw [hmod, hlast]
  · intro z hmem
    have hnearest := hgen.nearest_grid (z := z)
    have htie := hgen.even_of_tie (z := z)
    rw [Decomposition.span_scale, Decomposition.value_scale,
      Decomposition.magnitude_ofBinary64 hx hz] at hnearest htie
    rw [value_eq_whole hgen.digits_lt, hlast]
    simp only [unit, List.length_map, Int.cast_natCast] at hmem ⊢
    constructor
    · by_cases hne : z = wholeNumber b.val ds
      · rw [hne, Int.cast_natCast]
      · exact (hnearest hmem hne).le
    · intro hne heq
      exact htie hmem hne heq

/-- The double `2 ^ (-44)` is a quarter of a unit of its mantissa away from the half-way point
below. The decimal with 16 digits just below it is closer than the generated one, but past that point. -/
theorem generate_closest_quarter_gap :
    (Binary64.mk 0x3D30000000000000).isFinite ∧ (Binary64.mk 0x3D30000000000000).isZero = false ∧
      generate (.ofBinary64 ⟨0x3D30000000000000⟩) 10 =
        .ok ⟨[5, 6, 8, 4, 3, 4, 1, 8, 8, 6, 0, 8, 0, 8, 0, 2], -13, 10⟩ ∧
      ∃ ds, generate (.ofBinary64 ⟨0x3D30000000000000⟩) 10 = .ok ds ∧
        ∀ z : ℤ, z * ds.unit ∈ (Decomposition.ofBinary64 ⟨0x3D30000000000000⟩).roundingInterval →
          |(ds.value - |(Binary64.mk 0x3D30000000000000).toRat|)| ≤
            |(z * ds.unit - |(Binary64.mk 0x3D30000000000000).toRat|)| := by
  obtain ⟨ds, hds, -, -, w, -, -, hclosest⟩ :=
    generate_closest ⟨0x3D30000000000000⟩ (by decide) (by decide) .ten
  exact ⟨by decide, by decide, by decide +kernel, ds, hds, fun z hz => (hclosest z hz).1⟩

/-- The generated digits stand for the absolute value of the double exactly in the radixes that are
powers of two, and in all radixes if the double is a whole number below `2 ^ 53`. -/
theorem generate_exact (x : Binary64) (hx : x.isFinite) (hz : x.isZero = false) (b : Radix)
    (h : (∃ i : ℕ, b.val = 2 ^ i) ∨ (∃ n : ℤ, x.toRat = n) ∧ |x.toRat| < 2 ^ 53) :
    ∃ ds, generate (.ofBinary64 x) b.val = .ok ds ∧ ds.value = |x.toRat| := by
  obtain ⟨k, ds, -, hgen, hrun, -⟩ := Decomposition.generate_generated hx hz b
  have hmag := Decomposition.magnitude_ofBinary64 hx hz
  refine ⟨_, hrun, ?_⟩
  rw [value_mk hgen.digits_lt, properFraction_mul_zpow (Scale.radix_pos b), ← hmag]
  rcases h with ⟨i, hi⟩ | ⟨⟨n, hn⟩, hlt⟩
  · exact Decomposition.exact_of_power_of_two hgen hi
  · rw [← hmag] at hlt
    have hwhole : (Decomposition.ofBinary64 x).magnitude = (|n| : ℤ) := by
      rw [hmag, hn, Int.cast_abs]
    exact Decomposition.exact_of_whole hgen hwhole (Decomposition.exponent_nonpos hx hz hlt)

/-- The largest whole number below `2 ^ 53` has exact digits in radix 3, and one tenth has in
radix 32. -/
theorem generate_exact_radix_three :
    (Binary64.mk 0x433FFFFFFFFFFFFF).isFinite ∧ (Binary64.mk 0x433FFFFFFFFFFFFF).isZero = false ∧
      (Binary64.mk 0x433FFFFFFFFFFFFF).toRat = (9007199254740991 : ℤ) ∧
      (∃ ds, generate (.ofBinary64 ⟨0x433FFFFFFFFFFFFF⟩) 3 = .ok ds ∧
        ds.value = |(Binary64.mk 0x433FFFFFFFFFFFFF).toRat|) ∧
      (Binary64.mk 0x3FB999999999999A).isFinite ∧ (Binary64.mk 0x3FB999999999999A).isZero = false ∧
      ∃ ds, generate (.ofBinary64 ⟨0x3FB999999999999A⟩) 32 = .ok ds ∧
        ds.value = |(Binary64.mk 0x3FB999999999999A).toRat| := by
  have hvalue : (Binary64.mk 0x433FFFFFFFFFFFFF).value = .finite false 9007199254740991 0 := by
    decide
  have hwhole : (Binary64.mk 0x433FFFFFFFFFFFFF).toRat = (9007199254740991 : ℤ) := by
    rw [Binary64.toRat, hvalue]
    norm_num [FloatValue.toRat]
  have hsmall : |(Binary64.mk 0x433FFFFFFFFFFFFF).toRat| < 2 ^ 53 := by
    rw [hwhole]
    norm_num
  exact ⟨by decide, by decide, hwhole,
    generate_exact ⟨0x433FFFFFFFFFFFFF⟩ (by decide) (by decide) ⟨3, by decide, by decide⟩
      (.inr ⟨⟨_, hwhole⟩, hsmall⟩), by decide, by decide,
    generate_exact ⟨0x3FB999999999999A⟩ (by decide) (by decide) ⟨32, by decide, by decide⟩
      (.inl ⟨5, rfl⟩)⟩

end Digits

end Numerals
