import Numerals.Proofs.Binary.Rank

/-!
# Nearest data

The numbers that round to the datum of rank `w` lie between the half-way points to the data of ranks
`w - 1` and `w + 1`; the half-way points themselves round to it if `w` is even. These intervals do
not overlap. Main statement: `nearestRank` finds the rank in whose interval a ratio lies.
-/

namespace Numerals

/-- Division that rounds half to even misses the exact ratio by one half at most, and by exactly one
half only for an even quotient. -/
theorem divHalfEven_isHalfEven (n : ℕ) {d : ℕ} (hd : 0 < d) :
    IsHalfEven (divHalfEven n d) (n / d) := by
  have hdq : (d : ℚ) ≠ 0 := by exact_mod_cast hd.ne'
  have hn : (n : ℚ) = d * (n / d : ℕ) + (n % d : ℕ) := by exact_mod_cast (Nat.div_add_mod n d).symm
  have hq : (n / d : ℚ) = (n / d : ℕ) + (n % d : ℕ) / d := by
    rw [div_eq_iff hdq, hn]
    field_simp
  have hlt := Nat.mod_lt n hd
  rw [hq]
  unfold divHalfEven
  dsimp only
  split_ifs with hlow hhigh heven
  · exact isHalfEven_down hd (.inl hlow)
  · exact isHalfEven_up hd hlt.le (.inl hhigh)
  · exact isHalfEven_down hd (.inr ⟨by omega, heven⟩)
  · exact isHalfEven_up hd hlt.le (.inr ⟨by omega, by omega⟩)

namespace FloatFormat

variable (f : FloatFormat) {w v n d : ℕ} {q r : ℚ}

/-- The half-way point between the data of ranks `w` and `w + 1`. -/
def midpoint (w : ℕ) : ℚ :=
  (f.rankValue w + f.rankValue (w + 1)) / 2

/-- The least number that is not nearer to the datum below the one of rank `w`. Nothing is below
zero. -/
def lowerEnd (w : ℕ) : ℚ :=
  (f.rankValue (w - 1) + f.rankValue w) / 2

/-- The numbers that round to the datum of rank `w`. -/
def rankInterval (w : ℕ) : Set ℚ :=
  interval (w % 2 = 0) (f.lowerEnd w) (f.midpoint w)

/-! ## The intervals do not overlap -/

theorem midpoint_eq_lowerEnd (w : ℕ) : f.midpoint w = f.lowerEnd (w + 1) := rfl

theorem midpoint_strictMono : StrictMono f.midpoint := by
  apply strictMono_nat_of_lt_succ
  intro w
  have h₁ := f.rankValue_lt_succ w
  have h₂ := f.rankValue_lt_succ (w + 1)
  unfold midpoint
  linarith

/-- The interval of a rank lies below those of greater ranks: two neighbouring intervals share an
end point, which belongs to the even rank. -/
theorem lt_of_mem_rankIntervals (hwv : w < v) (hw : q ∈ f.rankInterval w)
    (hv : r ∈ f.rankInterval v) : q < r := by
  obtain ⟨u, rfl⟩ : ∃ u, v = u + 1 := ⟨v - 1, by omega⟩
  have hup := hw.2
  have hlo := hv.1
  rw [← midpoint_eq_lowerEnd] at hlo
  rcases (show w ≤ u by omega).lt_or_eq with hlt | rfl
  · have := f.midpoint_strictMono hlt
    linarith [hup.le, hlo.le]
  · rcases Nat.mod_two_eq_zero_or_one w with h | h
    · rw [decide_eq_false (show (w + 1) % 2 ≠ 0 by omega)] at hlo
      exact lt_of_le_of_lt hup.le hlo
    · rw [decide_eq_false (show w % 2 ≠ 0 by omega)] at hup
      exact lt_of_lt_of_le hup hlo.le

theorem not_mem_rankInterval_of_lt (hwv : w < v) (hw : q ∈ f.rankInterval w) :
    q ∉ f.rankInterval v :=
  fun hv => lt_irrefl q (f.lt_of_mem_rankIntervals hwv hw hv)

theorem rankInterval_unique (hw : q ∈ f.rankInterval w) (hv : q ∈ f.rankInterval v) : w = v := by
  rcases Nat.lt_trichotomy w v with h | h | h
  · exact absurd hv (f.not_mem_rankInterval_of_lt h hw)
  · exact h
  · exact absurd hw (f.not_mem_rankInterval_of_lt h hv)

theorem zero_mem_rankInterval : (0 : ℚ) ∈ f.rankInterval 0 := by
  have hmid : 0 < f.midpoint 0 := by
    have h₁ := f.rankValue_pos Nat.zero_lt_one
    have h₀ := f.rankValue_nonneg 0
    unfold midpoint
    linarith
  refine mem_interval.mpr ⟨?_, .of_lt hmid⟩
  simp [lowerEnd, AtMost, rankValue, rankMantissa]

/-! ## The exponent of a ratio -/

theorem two_zpow_log2_le (hn : 0 < n) : (2 : ℚ) ^ (n.log2 : ℤ) ≤ n := by
  rw [zpow_natCast]
  exact_mod_cast Nat.log2_self_le hn.ne'

theorem lt_two_zpow_log2 (n : ℕ) : (n : ℚ) < 2 ^ (n.log2 + 1 : ℤ) := by
  exact_mod_cast Nat.lt_log2_self

theorem twoPow_le_iff (k : ℤ) (hd : 0 < d) :
    d * twoPow k.toNat ≤ n * twoPow (-k).toNat ↔ (2 : ℚ) ^ k ≤ n / d := by
  have hdq : (0 : ℚ) < d := by exact_mod_cast hd
  have hpq : (0 : ℚ) < 2 ^ (-k).toNat := by positivity
  rw [zpow_eq_div 2 two_ne_zero, div_le_div_iff₀ hpq hdq, mul_comm ((2 : ℚ) ^ k.toNat)]
  simp only [Nat.pow_eq]
  exact_mod_cast Iff.rfl

theorem floorLogRatio_spec (hn : 0 < n) (hd : 0 < d) :
    (2 : ℚ) ^ floorLogRatio n d ≤ n / d ∧ (n / d : ℚ) < 2 ^ (floorLogRatio n d + 1) := by
  have hdq : (0 : ℚ) < d := by exact_mod_cast hd
  have hnlo := two_zpow_log2_le hn
  have hdlo := two_zpow_log2_le hd
  have hnhi := lt_two_zpow_log2 n
  have hdhi := lt_two_zpow_log2 d
  -- the ratio lies within one binade of the quotient of the two leading powers
  have hup : (n / d : ℚ) < 2 ^ ((n.log2 : ℤ) - d.log2 + 1) := by
    rw [div_lt_iff₀ hdq]
    calc (n : ℚ) < 2 ^ (n.log2 + 1 : ℤ) := hnhi
      _ = 2 ^ ((n.log2 : ℤ) - d.log2 + 1) * 2 ^ (d.log2 : ℤ) := by
        rw [← zpow_add₀ two_ne_zero]
        congr 1
        ring
      _ ≤ 2 ^ ((n.log2 : ℤ) - d.log2 + 1) * d := by gcongr
  have hlow : (2 : ℚ) ^ ((n.log2 : ℤ) - d.log2 - 1) ≤ n / d := by
    rw [le_div_iff₀ hdq]
    calc (2 : ℚ) ^ ((n.log2 : ℤ) - d.log2 - 1) * d
        ≤ 2 ^ ((n.log2 : ℤ) - d.log2 - 1) * 2 ^ (d.log2 + 1 : ℤ) := by gcongr
      _ = 2 ^ (n.log2 : ℤ) := by
        rw [← zpow_add₀ two_ne_zero]
        congr 1
        ring
      _ ≤ n := hnlo
  unfold floorLogRatio
  dsimp only
  split
  · rename_i h
    exact ⟨(twoPow_le_iff _ hd).mp h, hup⟩
  · rename_i h
    rw [twoPow_le_iff _ hd] at h
    rw [sub_add_cancel]
    exact ⟨hlow, not_le.mp h⟩

/-! ## The nearest rank -/

/-- The ratio in units of the exponent `e`. -/
theorem scaled_ratio (e : ℤ) :
    ((n * twoPow (-e).toNat : ℕ) : ℚ) / ((d * twoPow e.toNat : ℕ) : ℚ) = n / d / 2 ^ e := by
  rw [zpow_eq_div 2 two_ne_zero]
  simp only [Nat.pow_eq]
  push_cast
  field_simp

/-- `m` is the mantissa nearest to `q` at the exponent of the binade `t`, and this is the exponent of
`q`: the greatest at which `q` still has the leading bit, or the least one. -/
structure IsRounded (m t : ℕ) (q : ℚ) : Prop where
  nonneg : 0 ≤ q
  mem : q / 2 ^ (f.minExponent + t) ∈ interval (m % 2 = 0) (m - 1 / 2) (m + 1 / 2)
  lt : q / 2 ^ (f.minExponent + t) < 2 * 2 ^ f.fractionBits
  ge : t = 0 ∨ 2 ^ f.fractionBits ≤ q / 2 ^ (f.minExponent + t)

section IsRounded

variable {f} {m t : ℕ}

theorem IsRounded.mantissa_le (h : f.IsRounded m t q) : m ≤ 2 * 2 ^ f.fractionBits := by
  have hlow := h.mem.1.le
  have hup := h.lt
  have hlt : (m : ℚ) < 2 * 2 ^ f.fractionBits + 1 := by linarith
  exact Nat.le_of_lt_succ (by exact_mod_cast hlt)

theorem IsRounded.mantissa_ge (h : f.IsRounded m t q) : t = 0 ∨ 2 ^ f.fractionBits ≤ m := by
  rcases h.ge with ht | hge
  · exact .inl ht
  · have hup := h.mem.2.le
    have hlt : (2 ^ f.fractionBits : ℚ) < m + 1 := by linarith
    exact .inr (Nat.le_of_lt_succ (by exact_mod_cast hlt))

theorem IsRounded.rankValue_eq (h : f.IsRounded m t q) :
    f.rankValue (m + t * 2 ^ f.fractionBits) = m * 2 ^ (f.minExponent + t) :=
  f.rankValue_add h.mantissa_le h.mantissa_ge

theorem eq_div_mul_unit (t : ℕ) (q : ℚ) :
    q = q / 2 ^ (f.minExponent + t) * 2 ^ (f.minExponent + t) := by
  rw [div_mul_cancel₀ _ (by positivity)]

/-- The number is not below the half-way point to the rank below. -/
theorem IsRounded.lowerEnd_atMost (h : f.IsRounded m t q) :
    AtMost (m % 2 = 0) (f.lowerEnd (m + t * 2 ^ f.fractionBits)) q := by
  have hunit : (0 : ℚ) < 2 ^ (f.minExponent + t) := by positivity
  have hpos : 0 < 2 ^ f.fractionBits := Nat.two_pow_pos _
  have hval := h.rankValue_eq
  have hmle := h.mantissa_le
  have hmge := h.mantissa_ge
  rcases Nat.eq_zero_or_pos m with rfl | hm
  · -- the rank is zero, and nothing is below
    obtain rfl : t = 0 := by omega
    rw [Nat.zero_mul, Nat.add_zero] at hval ⊢
    rw [lowerEnd, hval]
    simpa [AtMost] using h.nonneg
  by_cases hbottom : t = 0 ∨ 2 ^ f.fractionBits ≤ m - 1
  · have hpred := f.rankValue_add (m := m - 1) (by omega) hbottom
    rw [show m - 1 + t * 2 ^ f.fractionBits = m + t * 2 ^ f.fractionBits - 1 by omega,
      Nat.cast_sub hm] at hpred
    have hend : f.lowerEnd (m + t * 2 ^ f.fractionBits) =
        (m - 1 / 2) * 2 ^ (f.minExponent + t) := by
      rw [lowerEnd, hpred, hval]
      push_cast
      ring
    rw [hend, eq_div_mul_unit t q, atMost_mul_right hunit]
    exact h.mem.1
  · -- at the start of a binade `q` is not below the datum
    have hmeq : m = 2 ^ f.fractionBits := by omega
    have hle : (m : ℚ) ≤ q / 2 ^ (f.minExponent + t) := by
      rw [hmeq]
      push_cast
      exact h.ge.resolve_left (by omega)
    have hdatum : f.rankValue (m + t * 2 ^ f.fractionBits) ≤ q := by
      rw [hval, eq_div_mul_unit t q]
      exact mul_le_mul_of_nonneg_right hle hunit.le
    have hlt : f.rankValue (m + t * 2 ^ f.fractionBits - 1) <
        f.rankValue (m + t * 2 ^ f.fractionBits) := f.rankValue_strictMono (by omega)
    apply AtMost.of_lt
    unfold lowerEnd
    linarith

/-- The number is not above the half-way point to the rank above. -/
theorem IsRounded.atMost_midpoint (h : f.IsRounded m t q) :
    AtMost (m % 2 = 0) q (f.midpoint (m + t * 2 ^ f.fractionBits)) := by
  have hunit : (0 : ℚ) < 2 ^ (f.minExponent + t) := by positivity
  have hval := h.rankValue_eq
  have hmge := h.mantissa_ge
  rcases h.mantissa_le.lt_or_eq with hlt | heq
  · have hsucc := f.rankValue_add (m := m + 1) (t := t) (by omega) (by omega)
    rw [show m + 1 + t * 2 ^ f.fractionBits = m + t * 2 ^ f.fractionBits + 1 by omega] at hsucc
    have hend : f.midpoint (m + t * 2 ^ f.fractionBits) =
        (m + 1 / 2) * 2 ^ (f.minExponent + t) := by
      rw [midpoint, hsucc, hval]
      push_cast
      ring
    rw [hend, eq_div_mul_unit t q, atMost_mul_right hunit]
    exact h.mem.2
  · -- the mantissa was rounded up to the end of the binade
    have hdatum : q < f.rankValue (m + t * 2 ^ f.fractionBits) := by
      rw [hval, eq_div_mul_unit t q, heq]
      push_cast
      exact mul_lt_mul_of_pos_right h.lt hunit
    have hlt := f.rankValue_lt_succ (m + t * 2 ^ f.fractionBits)
    apply AtMost.of_lt
    unfold midpoint
    linarith

/-- The rank with the nearest mantissa is the one in whose interval the number lies. -/
theorem IsRounded.mem_rankInterval (h : f.IsRounded m t q) (hp : 0 < f.fractionBits) :
    q ∈ f.rankInterval (m + t * 2 ^ f.fractionBits) := by
  have heven : 2 ^ f.fractionBits % 2 = 0 := by
    obtain ⟨p, hp⟩ : ∃ p, f.fractionBits = p + 1 := ⟨f.fractionBits - 1, by omega⟩
    rw [hp, pow_succ]
    omega
  have hparity : (m + t * 2 ^ f.fractionBits) % 2 = m % 2 := by
    rw [Nat.add_mod, Nat.mul_mod, heven]
    simp
  unfold rankInterval
  rw [hparity]
  exact ⟨h.lowerEnd_atMost, h.atMost_midpoint⟩

end IsRounded

/-- The rank found for a ratio is the one in whose interval it lies. -/
theorem nearestRank_mem (hp : 0 < f.fractionBits) (n : ℕ) (hd : 0 < d) :
    (n / d : ℚ) ∈ f.rankInterval (f.nearestRank n d) := by
  rcases Nat.eq_zero_or_pos n with rfl | hn
  · have h : f.IsRounded 0 0 0 :=
      ⟨le_rfl, by norm_num [interval, AtMost], by simp, .inl rfl⟩
    simpa [nearestRank] using h.mem_rankInterval hp
  · obtain ⟨hlow, hhigh⟩ := floorLogRatio_spec hn hd
    have hqpos : (0 : ℚ) ≤ n / d := by positivity
    set e := f.exponentFor n d with he
    have hmin : f.minExponent ≤ e := le_max_right _ _
    have hfloor : floorLogRatio n d - f.fractionBits ≤ e := le_max_left _ _
    have het : f.minExponent + ((e - f.minExponent).toNat : ℤ) = e := by omega
    have hrank : f.nearestRank n d =
        divHalfEven (n * twoPow (-e).toNat) (d * twoPow e.toNat) +
          (e - f.minExponent).toNat * 2 ^ f.fractionBits := by
      rw [nearestRank, if_neg hn.ne']
      rfl
    have hmant := divHalfEven_isHalfEven (n * twoPow (-e).toNat) (d := d * twoPow e.toNat)
      (Nat.mul_pos hd (Nat.two_pow_pos e.toNat))
    rw [scaled_ratio] at hmant
    rw [hrank]
    refine IsRounded.mem_rankInterval ⟨hqpos, by rwa [het], ?_, ?_⟩ hp <;> rw [het]
    · rw [div_lt_iff₀ (by positivity), ← pow_succ', ← zpow_natCast, ← zpow_add₀ two_ne_zero]
      refine lt_of_lt_of_le hhigh (zpow_le_zpow_right₀ one_le_two ?_)
      push_cast
      omega
    · by_cases h : floorLogRatio n d - f.fractionBits ≤ f.minExponent
      · left
        have : e = f.minExponent := max_eq_right h
        omega
      · right
        have hek : e = floorLogRatio n d - f.fractionBits := max_eq_left (by omega)
        rw [le_div_iff₀ (by positivity), ← zpow_natCast, ← zpow_add₀ two_ne_zero, hek]
        rwa [add_sub_cancel]

theorem nearestRank_eq_iff (hp : 0 < f.fractionBits) (hd : 0 < d) :
    f.nearestRank n d = w ↔ (n / d : ℚ) ∈ f.rankInterval w := by
  constructor
  · rintro rfl
    exact f.nearestRank_mem hp n hd
  · intro h
    exact f.rankInterval_unique (f.nearestRank_mem hp n hd) h

end FloatFormat

end Numerals
