import Numerals.Proofs.Layout.Precision

/-!
# Texts keep the order of doubles

The intervals of two ranks lie one below the other, so that the digits of the greater one of two
positive doubles stand for the greater number. Rounding half to even keeps this order. Main
statement: with any precision the fixed texts of doubles denote numbers in the order of the doubles.
-/

namespace Numerals

open FloatFormat (binary64)

namespace Binary64

variable {x y : Binary64}

theorem toRat_of_isNegative (hx : x.isFinite) (hneg : x.isNegative) :
    x.toRat = -binary64.rankValue x.rank := by
  rw [toRat_of_isFinite hx, if_pos hneg, neg_one_mul]

theorem isNegative_of_toRat_pos (hx : x.isFinite) (hpos : 0 < x.toRat) : x.isNegative = false := by
  have hnonneg := binary64.rankValue_nonneg x.rank
  cases hneg : x.isNegative
  · rfl
  · rw [toRat_of_isNegative hx hneg] at hpos
    linarith

theorem isZero_of_rankValue_eq (h : binary64.rankValue x.rank = 0) : x.isZero := by
  rw [isZero_iff]
  by_contra hne
  exact absurd h (binary64.rankValue_pos (Nat.pos_of_ne_zero hne)).ne'

/-- Positive doubles are in the order of their ranks. -/
theorem rank_lt_of_toRat_lt (hx : x.isFinite) (hy : y.isFinite) (hpos : 0 < x.toRat)
    (hlt : x.toRat < y.toRat) : x.rank < y.rank := by
  have hxn := isNegative_of_toRat_pos hx hpos
  have hyn := isNegative_of_toRat_pos hy (hpos.trans hlt)
  rw [toRat_of_nonneg hx hxn, toRat_of_nonneg hy hyn] at hlt
  exact binary64.rankValue_strictMono.lt_iff_lt.mp hlt

end Binary64

namespace Decomposition

variable {x y : Binary64} {b : Radix} {ds es : Digits}

/-! ## The order of the digits -/

theorem value_of_isZero (hz : x.isZero) (hds : Digits.generate (ofBinary64 x) b.val = .ok ds) :
    ds.value = 0 := by
  rw [generate_of_isZero hz] at hds
  cases hds
  simp [Digits.value, properFraction]

/-- The digits of a finite double, zero included, lie in the interval of its rank. -/
theorem value_mem_rankInterval (hx : x.isFinite)
    (hds : Digits.generate (ofBinary64 x) b.val = .ok ds) :
    ds.value ∈ binary64.rankInterval x.rank := by
  cases hz : x.isZero
  · rcases generate_written hx hz b with ⟨ds', hds', -, hmem⟩
    obtain rfl : ds' = ds := Except.ok.inj (hds'.symm.trans hds)
    exact hmem
  · rw [value_of_isZero hz hds, Binary64.isZero_iff.mp hz]
    exact binary64.zero_mem_rankInterval

theorem value_lt_of_rank_lt (hx : x.isFinite) (hy : y.isFinite) (hrank : x.rank < y.rank)
    (hds : Digits.generate (ofBinary64 x) b.val = .ok ds)
    (hes : Digits.generate (ofBinary64 y) b.val = .ok es) : ds.value < es.value :=
  binary64.lt_of_mem_rankIntervals hrank (value_mem_rankInterval hx hds)
    (value_mem_rankInterval hy hes)

theorem value_le_of_rank_le (hx : x.isFinite) (hy : y.isFinite) (hneg : x.isNegative = y.isNegative)
    (hrank : x.rank ≤ y.rank) (hds : Digits.generate (ofBinary64 x) b.val = .ok ds)
    (hes : Digits.generate (ofBinary64 y) b.val = .ok es) : ds.value ≤ es.value := by
  rcases hrank.lt_or_eq with hlt | heq
  · exact (value_lt_of_rank_lt hx hy hlt hds hes).le
  · obtain rfl := Binary64.ext_of_rank hneg heq
    rw [Except.ok.inj (hds.symm.trans hes)]

/-! ## The order of the texts -/

theorem exists_render_fixed (hx : x.isFinite) (b : Radix) {p : ℤ}
    (hp : p + 1026 ≤ Layout.maxLength) :
    ∃ s, (ofBinary64 x).render b.val ⟨.fixed, p⟩ = .ok s := by
  rcases generate_bounded hx b with ⟨⟨ds, k, radix⟩, hds, hbounded⟩
  obtain rfl : radix = b.val := hbounded.radix
  have hroom : p + max k 0 + 1 ≤ Layout.maxLength := by
    have hupper : k ≤ 1025 := hbounded.upper
    omega
  rcases Layout.exists_fixed b.two_le b.le_max hbounded hroom with ⟨cs, hcs⟩
  rw [render_of_isFinite hx _ hds]
  exact ⟨_, Layout.render_eq_ok hbounded.below x.isNegative (.inl ⟨rfl, hcs⟩)⟩

/-- The fixed text of a finite double denotes a multiple of the unit of its last place. -/
theorem render_fixed_value (hx : x.isFinite) (hds : Digits.generate (ofBinary64 x) b.val = .ok ds)
    {p : ℤ} (hp : 0 ≤ p) {s : String} (hs : (ofBinary64 x).render b.val ⟨.fixed, p⟩ = .ok s) :
    ∃ m : ℕ, IsHalfEven m (ds.value * (b.val : ℚ) ^ p.toNat) ∧
      Text.fixedValue? b.val s = some (Text.signedRat x.isNegative (m / b.val ^ p.toNat)) := by
  rcases generate_bounded hx b with ⟨ds', hds', hbounded⟩
  obtain rfl : ds' = ds := Except.ok.inj (hds'.symm.trans hds)
  rw [render_of_isFinite hx _ hds] at hs
  exact Layout.render_fixed_isHalfEven b.two_le b.le_max hbounded.radix hbounded.below hp hs

/-- The signs and the roundings of the absolute values decide the order. -/
theorem signedRat_le (hx : x.isFinite) (hy : y.isFinite) (hle : x.toRat ≤ y.toRat)
    (hds : Digits.generate (ofBinary64 x) b.val = .ok ds)
    (hes : Digits.generate (ofBinary64 y) b.val = .ok es) {u : ℚ} (hu : 0 < u) {m n : ℕ}
    (hm : IsHalfEven m (ds.value * u)) (hn : IsHalfEven n (es.value * u)) :
    Text.signedRat x.isNegative (m / u) ≤ Text.signedRat y.isNegative (n / u) := by
  have hmono := binary64.rankValue_strictMono
  have hx0 := binary64.rankValue_nonneg x.rank
  have hy0 := binary64.rankValue_nonneg y.rank
  cases hxn : x.isNegative
  · rw [Binary64.toRat_of_nonneg hx hxn] at hle
    cases hyn : y.isNegative
    · rw [Binary64.toRat_of_nonneg hy hyn] at hle
      have hrank := hmono.le_iff_le.mp hle
      have hvalue := value_le_of_rank_le hx hy (hxn.trans hyn.symm) hrank hds hes
      have hmn := hm.le_of_le hn (mul_le_mul_of_nonneg_right hvalue hu.le)
      exact div_le_div_of_nonneg_right (Nat.cast_le.mpr hmn) hu.le
    · -- a number that is not negative is at most a negative one only if both are zeros
      rw [Binary64.toRat_of_isNegative hy hyn] at hle
      have hxz := Binary64.isZero_of_rankValue_eq (show binary64.rankValue x.rank = 0 by linarith)
      have hyz := Binary64.isZero_of_rankValue_eq (show binary64.rankValue y.rank = 0 by linarith)
      rw [value_of_isZero hxz hds, zero_mul] at hm
      rw [value_of_isZero hyz hes, zero_mul] at hn
      rw [hm.eq_zero, hn.eq_zero]
      simp
  · cases hyn : y.isNegative
    · have hm0 : (0 : ℚ) ≤ m / u := by positivity
      have hn0 : (0 : ℚ) ≤ n / u := by positivity
      rw [Text.signedRat_true, Text.signedRat_false]
      linarith
    · rw [Binary64.toRat_of_isNegative hx hxn, Binary64.toRat_of_isNegative hy hyn,
        neg_le_neg_iff] at hle
      have hrank := hmono.le_iff_le.mp hle
      have hvalue := value_le_of_rank_le hy hx (hyn.trans hxn.symm) hrank hes hds
      have hnm := hn.le_of_le hm (mul_le_mul_of_nonneg_right hvalue hu.le)
      exact neg_le_neg (div_le_div_of_nonneg_right (Nat.cast_le.mpr hnm) hu.le)

/-- The digits of positive doubles are in the same strict order as the doubles, in every radix. With
every precision that leaves room for the digits before the point finite doubles have fixed texts,
and these denote numbers in the order of the doubles. -/
theorem render_monotone (x y : Binary64) (hx : x.isFinite) (hy : y.isFinite) (b : Radix) :
    (0 < x.toRat → x.toRat < y.toRat →
      ∃ ds es, Digits.generate (ofBinary64 x) b.val = .ok ds ∧
        Digits.generate (ofBinary64 y) b.val = .ok es ∧ ds.value < es.value) ∧
    (x.toRat ≤ y.toRat → ∀ p : ℤ, 0 ≤ p →
      (p + 1026 ≤ Layout.maxLength →
        ∃ s t, (ofBinary64 x).render b.val ⟨.fixed, p⟩ = .ok s ∧
          (ofBinary64 y).render b.val ⟨.fixed, p⟩ = .ok t) ∧
      ∀ s t, (ofBinary64 x).render b.val ⟨.fixed, p⟩ = .ok s →
        (ofBinary64 y).render b.val ⟨.fixed, p⟩ = .ok t →
        ∃ q r, Text.fixedValue? b.val s = some q ∧ Text.fixedValue? b.val t = some r ∧ q ≤ r) := by
  rcases generate_bounded hx b with ⟨ds, hds, -⟩
  rcases generate_bounded hy b with ⟨es, hes, -⟩
  constructor
  · intro hpos hlt
    have hrank := Binary64.rank_lt_of_toRat_lt hx hy hpos hlt
    exact ⟨ds, es, hds, hes, value_lt_of_rank_lt hx hy hrank hds hes⟩
  · intro hle p hp
    constructor
    · intro hroom
      rcases exists_render_fixed hx b hroom with ⟨s, hs⟩
      rcases exists_render_fixed hy b hroom with ⟨t, ht⟩
      exact ⟨s, t, hs, ht⟩
    · intro s t hs ht
      rcases render_fixed_value hx hds hp hs with ⟨m, hm, hsvalue⟩
      rcases render_fixed_value hy hes hp ht with ⟨n, hn, htvalue⟩
      have hunit : (0 : ℚ) < (b.val : ℚ) ^ p.toNat := pow_pos (Scale.radix_pos_rat b) _
      exact ⟨_, _, hsvalue, htvalue, signedRat_le hx hy hle hds hes hunit hm hn⟩

/-- Across a power of two: the digits of `1 - 2 ^ (-53)` and 1 in radix 3 are in strict order, and
with two digits after the point the first one is rounded up to the second. -/
theorem render_monotone_below_one :
    (Binary64.mk 0x3FEFFFFFFFFFFFFF).isFinite ∧ (Binary64.mk 0x3FF0000000000000).isFinite ∧
      0 < (Binary64.mk 0x3FEFFFFFFFFFFFFF).toRat ∧
      (Binary64.mk 0x3FEFFFFFFFFFFFFF).toRat < (Binary64.mk 0x3FF0000000000000).toRat ∧
      (∃ ds es, Digits.generate (ofBinary64 ⟨0x3FEFFFFFFFFFFFFF⟩) 3 = .ok ds ∧
        Digits.generate (ofBinary64 ⟨0x3FF0000000000000⟩) 3 = .ok es ∧ ds.value < es.value) ∧
      (ofBinary64 ⟨0x3FEFFFFFFFFFFFFF⟩).render 3 ⟨.fixed, 2⟩ = .ok "1.00" ∧
      (ofBinary64 ⟨0x3FF0000000000000⟩).render 3 ⟨.fixed, 2⟩ = .ok "1.00" ∧
      ∃ q r, Text.fixedValue? 3 "1.00" = some q ∧ Text.fixedValue? 3 "1.00" = some r ∧ q ≤ r := by
  have hpos : 0 < (Binary64.mk 0x3FEFFFFFFFFFFFFF).toRat := by decide +kernel
  have hlt : (Binary64.mk 0x3FEFFFFFFFFFFFFF).toRat < (Binary64.mk 0x3FF0000000000000).toRat := by
    decide +kernel
  have hs : (ofBinary64 ⟨0x3FEFFFFFFFFFFFFF⟩).render 3 ⟨.fixed, 2⟩ = .ok "1.00" := by
    decide +kernel
  have ht : (ofBinary64 ⟨0x3FF0000000000000⟩).render 3 ⟨.fixed, 2⟩ = .ok "1.00" := by
    decide +kernel
  rcases render_monotone ⟨0x3FEFFFFFFFFFFFFF⟩ ⟨0x3FF0000000000000⟩ (by decide) (by decide)
    ⟨3, by decide, by decide⟩ with ⟨hdigits, htexts⟩
  exact ⟨by decide, by decide, hpos, hlt, hdigits hpos hlt, hs, ht,
    (htexts hlt.le 2 (by decide)).2 _ _ hs ht⟩

end Decomposition

end Numerals
