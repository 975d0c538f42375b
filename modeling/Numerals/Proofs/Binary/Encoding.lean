import Numerals.Proofs.Layout.RoundTrip

/-!
# Decompositions and the encoding

The parts of a finite double are found without a look at its word, and they are the fields of the
word: the fraction, with a hidden bit in front unless the biased exponent is 0, and the exponent
without its bias.

Every number with a mantissa below `2 ^ 53` and an exponent that doubles have is the value of a
double, and a value that a double has is encoded as the word of this double. So the three roundings
by which a double is put together again from its parts are all exact. Main statement: no double
other than a NaN loses anything in its decomposition.
-/

namespace Numerals

open FloatFormat (binary64)

namespace FloatFormat

/-! ## Values that doubles have -/

theorem rankValue_mem_rankInterval (f : FloatFormat) (w : ℕ) :
    f.rankValue w ∈ f.rankInterval w := by
  have hsucc := f.rankValue_lt_succ w
  have hup : f.rankValue w < f.midpoint w := by
    unfold midpoint
    linarith
  rcases Nat.eq_zero_or_pos w with rfl | hw
  · -- nothing is below zero, which is the lower end of its own interval
    have hlow : f.lowerEnd 0 ≤ f.rankValue 0 := by
      unfold lowerEnd
      linarith
    exact ⟨hlow, .of_lt hup⟩
  · have hpred : f.rankValue (w - 1) < f.rankValue w := f.rankValue_strictMono (by omega)
    have hlow : f.lowerEnd w < f.rankValue w := by
      unfold lowerEnd
      linarith
    exact mem_interval_of_lt hlow hup

theorem rankValue_lt_two_zpow {w : ℕ} (hw : w < binary64.infinityWord) :
    binary64.rankValue w < 2 ^ (1024 : ℤ) := by
  have hinf : binary64.rankValue binary64.infinityWord = (2 ^ 52 : ℕ) * 2 ^ (972 : ℤ) := rfl
  have hpow : ((2 ^ 52 : ℕ) : ℚ) * 2 ^ (972 : ℤ) = 2 ^ (1024 : ℤ) := by
    rw [Nat.cast_pow, Nat.cast_ofNat, ← zpow_natCast, ← zpow_add₀ two_ne_zero]
    rfl
  rw [← hpow, ← hinf]
  exact binary64.rankValue_strictMono hw

theorem two_zpow_le_rankValue {w : ℕ} (hw : 0 < w) :
    2 ^ (-1074 : ℤ) ≤ binary64.rankValue w := by
  have hone : binary64.rankValue 1 = (1 : ℕ) * 2 ^ (-1074 : ℤ) := rfl
  rw [Nat.cast_one, one_mul] at hone
  rw [← hone]
  exact binary64.rankValue_strictMono.monotone hw

/-- A value that a finite datum has is encoded as the word of this datum. -/
theorem encodeScaled_of_rankValue {w m : ℕ} {e : ℤ} (hw : w < binary64.infinityWord)
    (h : (m * 2 ^ e : ℚ) = binary64.rankValue w) (negative : Bool) :
    binary64.encodeScaled negative m e = binary64.withSign negative w := by
  have hbias : binary64.bias = 1023 := rfl
  have hmin : binary64.minExponent = -1074 := rfl
  rcases Nat.eq_zero_or_pos m with rfl | hm
  · have hzero : w = 0 := by
      by_contra hne
      have hpos := binary64.rankValue_pos (Nat.pos_of_ne_zero hne)
      rw [← h, Nat.cast_zero, zero_mul] at hpos
      exact lt_irrefl 0 hpos
    rw [hzero]
    rfl
  · have hunit : (0 : ℚ) < 2 ^ e := by positivity
    have hwpos : 0 < w := by
      by_contra hnot
      have hvalue : binary64.rankValue 0 = 0 := by simp [rankValue, rankMantissa]
      rw [Nat.eq_zero_of_not_pos hnot, hvalue] at h
      have hmq : (0 : ℚ) < m := by exact_mod_cast hm
      exact absurd h (mul_pos hmq hunit).ne'
    -- the leading bit of the value lies within the range of the format
    have hlead : m.log2 + e < 1024 := by
      have hle : (2 : ℚ) ^ (m.log2 + e : ℤ) ≤ m * 2 ^ e := by
        rw [zpow_add₀ two_ne_zero]
        exact mul_le_mul_of_nonneg_right (two_zpow_log2_le hm) hunit.le
      exact (zpow_lt_zpow_iff_right₀ one_lt_two).mp
        (lt_of_le_of_lt hle (h ▸ rankValue_lt_two_zpow hw))
    have htrail : -1074 < m.log2 + 1 + e := by
      have hlt : (m * 2 ^ e : ℚ) < 2 ^ (m.log2 + 1 + e : ℤ) := by
        rw [zpow_add₀ two_ne_zero]
        exact mul_lt_mul_of_pos_right (lt_two_zpow_log2 m) hunit
      exact (zpow_lt_zpow_iff_right₀ one_lt_two).mp
        (lt_of_le_of_lt (h ▸ two_zpow_le_rankValue hwpos) hlt)
    have hratio : ((m * twoPow e.toNat : ℕ) : ℚ) / ((twoPow (-e).toNat : ℕ) : ℚ) =
        binary64.rankValue w := by
      rw [← h, zpow_eq_div 2 two_ne_zero e]
      simp only [Nat.pow_eq]
      push_cast
      rw [mul_div_assoc]
    have hmem : ((m * twoPow e.toNat : ℕ) : ℚ) / ((twoPow (-e).toNat : ℕ) : ℚ) ∈
        binary64.rankInterval w := by
      rw [hratio]
      exact binary64.rankValue_mem_rankInterval w
    have hpos : 0 < twoPow (-e).toNat := Nat.two_pow_pos _
    unfold encodeScaled
    rw [if_neg hm.ne', if_neg (by omega), if_neg (by omega),
      Binary64.encodeRatio_of_mem hpos hw hmem]

/-- Every mantissa below `2 ^ 53` with an exponent of doubles is the value of a finite datum: it is
shifted until its leading bit is in place, or the exponent is the least one. -/
theorem exists_rank {m : ℕ} {e : ℤ} (hm : m < 2 ^ 53) (hlo : -1074 ≤ e) (hhi : e ≤ 971) :
    ∃ w, w < binary64.infinityWord ∧ (m * 2 ^ e : ℚ) = binary64.rankValue w := by
  have hinf : binary64.infinityWord = 2047 * 2 ^ 52 := rfl
  rcases Nat.eq_zero_or_pos m with rfl | hpos
  · exact ⟨0, by decide, by simp [rankValue, rankMantissa]⟩
  have hlog : m.log2 ≤ 52 := Nat.le_of_lt_succ ((Nat.log2_lt hpos.ne').mpr hm)
  obtain ⟨s, hs⟩ : ∃ s : ℕ, s = min (52 - m.log2) (e + 1074).toNat := ⟨_, rfl⟩
  have hlt : m * 2 ^ s < 2 * 2 ^ 52 :=
    calc m * 2 ^ s < 2 ^ (m.log2 + 1) * 2 ^ s :=
          Nat.mul_lt_mul_of_pos_right Nat.lt_log2_self (Nat.two_pow_pos s)
      _ = 2 ^ (m.log2 + 1 + s) := (pow_add 2 _ s).symm
      _ ≤ 2 ^ 53 := Nat.pow_le_pow_right two_pos (by omega)
  have hlead : (e - s + 1074).toNat = 0 ∨ 2 ^ 52 ≤ m * 2 ^ s := by
    rcases Nat.le_total (52 - m.log2) (e + 1074).toNat with hle | hle
    · right
      calc 2 ^ 52 = 2 ^ (m.log2 + s) := by
            congr 1
            omega
        _ = 2 ^ m.log2 * 2 ^ s := pow_add 2 _ s
        _ ≤ m * 2 ^ s := Nat.mul_le_mul_right _ (Nat.log2_self_le hpos.ne')
    · left
      omega
  have hvalue := binary64.rankValue_add (m := m * 2 ^ s) (t := (e - s + 1074).toNat) hlt.le hlead
  refine ⟨_, ?_, Eq.trans ?_ hvalue.symm⟩
  · have hbinade : (e - s + 1074).toNat * 2 ^ binary64.fractionBits ≤ 2045 * 2 ^ 52 :=
      Nat.mul_le_mul_right _ (by omega)
    omega
  · have hexp : binary64.minExponent + ((e - s + 1074).toNat : ℤ) = e - s := by
      change -1074 + ((e - s + 1074).toNat : ℤ) = e - s
      omega
    rw [hexp, zpow_sub₀ two_ne_zero, zpow_natCast]
    push_cast
    field_simp

end FloatFormat

namespace Binary64

variable {x : Binary64}

/-! ## Doubles of values -/

theorem bits_ofValue {negative : Bool} {m w : ℕ} {e : ℤ} (hw : w < binary64.infinityWord)
    (h : (m * 2 ^ e : ℚ) = binary64.rankValue w) :
    (ofValue (.finite negative m e)).bits.toNat = binary64.withSign negative w := by
  have hword : binary64.encode (.finite negative m e) = binary64.withSign negative w :=
    FloatFormat.encodeScaled_of_rankValue hw h negative
  have hlt : binary64.withSign negative w < 2 ^ 64 := by
    have hsign : binary64.signWord = 9223372036854775808 := rfl
    have hinf : binary64.infinityWord = 9218868437227405312 := rfl
    unfold FloatFormat.withSign
    split_ifs
    · omega
    · omega
  unfold ofValue
  rw [hword]
  exact UInt64.toNat_ofNat_of_lt' hlt

/-- The double of a value that a datum has is this datum. -/
theorem value_ofValue {negative : Bool} {m w : ℕ} {e : ℤ} (hw : w < binary64.infinityWord)
    (h : (m * 2 ^ e : ℚ) = binary64.rankValue w) :
    (ofValue (.finite negative m e)).value =
      .finite negative (binary64.rankMantissa w) (binary64.rankExponent w) := by
  rw [value, bits_ofValue hw h, binary64.decode_withSign hw]

theorem ofValue_eq {m : ℕ} {e : ℤ} (hx : x.isFinite)
    (h : (m * 2 ^ e : ℚ) = binary64.rankValue x.rank) :
    ofValue (.finite x.isNegative m e) = x := by
  have hbits : (ofValue (.finite x.isNegative m e)).bits.toNat =
      binary64.withSign x.isNegative x.rank := bits_ofValue (isFinite_iff.mp hx) h
  rw [← bits_eq_withSign] at hbits
  generalize ofValue (.finite x.isNegative m e) = y at hbits
  cases x
  cases y
  exact congrArg Binary64.mk (UInt64.toNat_inj.mp hbits)

/-- Integers below `2 ^ 53` are doubles. -/
theorem value_ofInt {n : ℤ} (hn : n.natAbs < 2 ^ 53) :
    ∃ w, w < binary64.infinityWord ∧ (n.natAbs : ℚ) = binary64.rankValue w ∧
      (ofInt n).value =
        .finite (n < 0) (binary64.rankMantissa w) (binary64.rankExponent w) := by
  rcases FloatFormat.exists_rank (e := 0) hn (by decide) (by decide) with ⟨w, hw, hvalue⟩
  refine ⟨w, hw, ?_, value_ofValue hw hvalue⟩
  rwa [zpow_zero, mul_one] at hvalue

/-! ## The classes of doubles -/

theorem isInfinite_of_isNaN (h : x.isNaN) : x.isInfinite = false := by
  have hvalue : x.value = .nan := by simpa [isNaN] using h
  rw [isInfinite, hvalue]

theorem count_classes (x : Binary64) : [x.isNaN, x.isInfinite, x.isFinite].count true = 1 := by
  unfold isFinite
  rcases x.classes with hnan | ⟨-, hnan, hinf⟩ | ⟨-, hnan, hinf⟩
  · rw [hnan, isInfinite_of_isNaN hnan]
    decide
  · rw [hnan, hinf]
    decide
  · rw [hnan, hinf]
    decide

/-! ## The fields of a word -/

/-- The biased exponent in the word of a double. -/
def biasedExponent (x : Binary64) : ℕ :=
  x.bits.toNat / 2 ^ 52 % 2 ^ 11

/-- The fraction in the word of a double. -/
def fraction (x : Binary64) : ℕ :=
  x.bits.toNat % 2 ^ 52

/-- The fraction with the hidden bit, which subnormal doubles do not have. -/
def significand (x : Binary64) : ℕ :=
  if x.biasedExponent = 0 then x.fraction else 2 ^ 52 + x.fraction

/-- The exponent of the last bit of the significand. -/
def significandExponent (x : Binary64) : ℤ :=
  if x.biasedExponent = 0 then -1074 else x.biasedExponent - 1075

theorem rank_fields (x : Binary64) :
    x.rank / 2 ^ 52 = x.biasedExponent ∧ x.rank % 2 ^ 52 = x.fraction := by
  have hrank : x.rank = x.bits.toNat % 9223372036854775808 := rfl
  unfold biasedExponent fraction
  rw [hrank]
  constructor
  · omega
  · omega

theorem rankMantissa_eq_significand (x : Binary64) :
    binary64.rankMantissa x.rank = x.significand := by
  rcases x.rank_fields with ⟨hexp, hfrac⟩
  have hsub : binary64.rankMantissa x.rank = x.rank - (x.rank / 2 ^ 52 - 1) * 2 ^ 52 := rfl
  have hdiv := Nat.div_add_mod' x.rank (2 ^ 52)
  unfold significand
  rw [hsub]
  split_ifs with hzero
  · omega
  · omega

theorem rankExponent_eq_significandExponent (x : Binary64) :
    binary64.rankExponent x.rank = x.significandExponent := by
  have hexp := x.rank_fields.1
  have hadd : binary64.rankExponent x.rank = -1074 + ((x.rank / 2 ^ 52 - 1 : ℕ) : ℤ) := rfl
  unfold significandExponent
  rw [hadd, hexp]
  split_ifs with hzero
  · omega
  · omega

end Binary64

namespace Decomposition

variable {x : Binary64} {d : Decomposition}

/-! ## The parts of a double -/

theorem mantissa_lt (x : Binary64) : (ofBinary64 x).mantissa < 2 ^ 53 := by
  rcases x.classes with hnan | ⟨hinf, -⟩ | ⟨hx, -⟩
  · rw [ofBinary64_of_isNaN hnan]
    decide
  · rw [ofBinary64_of_rank_eq hinf]
    exact (by decide : infinityMantissa < 2 ^ 53)
  · cases hz : x.isZero
    · exact (ofBinary64_bounds hx hz).2.1
    · rw [ofBinary64_of_isZero hz]
      exact Nat.two_pow_pos 53

/-- The marks of a decomposition agree with the double: no finite one has the exponent of a
mark. -/
theorem marks_ofBinary64 (x : Binary64) :
    (ofBinary64 x).isNaN = x.isNaN ∧ (ofBinary64 x).isInfinite = x.isInfinite ∧
      (ofBinary64 x).isFinite = x.isFinite := by
  unfold Binary64.isFinite
  rcases x.classes with hnan | ⟨hinf, hnan, hinfinite⟩ | ⟨hx, hnan, hinfinite⟩
  · rw [ofBinary64_of_isNaN hnan, hnan, Binary64.isInfinite_of_isNaN hnan]
    decide
  · rw [ofBinary64_of_rank_eq hinf, hnan, hinfinite]
    cases x.isNegative
    · decide
    · decide
  · have hexp := exponent_ne_markExponent hx
    rw [hnan, hinfinite]
    unfold isNaN isInfinite isFinite
    simp [hexp]

/-! ## Putting a double together -/

theorem ofInt_signOf (negative : Bool) :
    ∃ w, w < binary64.infinityWord ∧ binary64.rankValue w = 1 ∧
      (Binary64.ofInt (signOf negative)).value =
        .finite negative (binary64.rankMantissa w) (binary64.rankExponent w) := by
  have hsign : (signOf negative).natAbs = 1 ∧ decide (signOf negative < 0) = negative := by
    cases negative
    · decide
    · decide
  rcases hsign with ⟨habs, hneg⟩
  have hlt : (signOf negative).natAbs < 2 ^ 53 := by
    rw [habs]
    decide
  rcases Binary64.value_ofInt hlt with ⟨w, hw, hone, hvalue⟩
  rw [habs, Nat.cast_one] at hone
  rw [hneg] at hvalue
  exact ⟨w, hw, hone.symm, hvalue⟩

/-- The mantissa is a double, and scaling it by the exponent gives the absolute value. -/
theorem value_scale_lowMantissa {w : ℕ} (hw : w < binary64.infinityWord) (hm : d.mantissa < 2 ^ 53)
    (hlo : -1074 ≤ d.exponent) (hhi : d.exponent ≤ 971)
    (hvalue : d.magnitude = binary64.rankValue w) :
    ((Binary64.ofInt d.lowMantissa.toInt).scale d.exponent).value =
      .finite false (binary64.rankMantissa w) (binary64.rankExponent w) := by
  rw [lowMantissa_toInt hm]
  rcases Binary64.value_ofInt (n := d.mantissa) hm with ⟨v, hv, hmantissa, hread⟩
  rw [Int.natAbs_natCast] at hmantissa
  rw [decide_eq_false (by omega)] at hread
  set n := binary64.rankMantissa v with hn
  set e := binary64.rankExponent v with he
  -- the exponent of the leading bit stays a long word
  have hwrap : LongWord.wrap (n.log2 + e + d.exponent) - n.log2 = e + d.exponent := by
    have hlog : n.log2 ≤ 53 := by
      rcases Nat.eq_zero_or_pos n with hzero | hpos
      · rw [hzero]
        decide
      · have hlt : n < 2 ^ 53 := binary64.rankMantissa_lt v
        exact ((Nat.log2_lt hpos.ne').mpr hlt).le
    have hbinade := rankBinade_le hv
    have hexp : e = -1074 + binary64.rankBinade v := rfl
    rw [LongWord.wrap_of_mem (by unfold LongWord.least; omega) (by omega)]
    omega
  have hproduct : (n * 2 ^ (e + d.exponent) : ℚ) = binary64.rankValue w := by
    rw [zpow_add₀ two_ne_zero, ← mul_assoc, ← hvalue, magnitude, hmantissa]
    rfl
  unfold Binary64.scale
  rw [hread]
  dsimp only
  rw [hwrap]
  exact Binary64.value_ofValue hw hproduct

/-- The parts of a finite double determine it. -/
theorem toBinary64_eq (hx : x.isFinite) (hm : d.mantissa < 2 ^ 53) (hlo : -1074 ≤ d.exponent)
    (hhi : d.exponent ≤ 971) (hsign : d.sign = signOf x.isNegative)
    (hvalue : d.magnitude = binary64.rankValue x.rank) : d.toBinary64 = x := by
  have hmark : d.exponent ≠ markExponent := by
    unfold markExponent
    omega
  have hnan : d.isNaN = false := by simp [isNaN, hmark]
  have hinf : d.isInfinite = false := by simp [isInfinite, hmark]
  have hscaled := value_scale_lowMantissa (Binary64.isFinite_iff.mp hx) hm hlo hhi hvalue
  rcases ofInt_signOf x.isNegative with ⟨w, hw, hone, hunit⟩
  unfold toBinary64 Binary64.mul
  rw [hnan, hinf, hsign, hunit, hscaled]
  simp only [Bool.false_eq_true, if_false, FloatValue.mul, Bool.bne_false]
  apply Binary64.ofValue_eq hx
  calc ((binary64.rankMantissa w * binary64.rankMantissa x.rank : ℕ) : ℚ) *
        2 ^ (binary64.rankExponent w + binary64.rankExponent x.rank)
      = binary64.rankValue w * binary64.rankValue x.rank := by
        unfold FloatFormat.rankValue
        rw [zpow_add₀ two_ne_zero]
        push_cast
        ring
    _ = binary64.rankValue x.rank := by rw [hone, one_mul]

theorem toBinary64_of_isFinite (hx : x.isFinite) : (ofBinary64 x).toBinary64 = x := by
  cases hz : x.isZero
  · rcases ofBinary64_bounds hx hz with ⟨-, hm, hlo, hhi⟩
    refine toBinary64_eq hx hm hlo hhi ?_ ?_
    · rw [ofBinary64_eq hx hz]
    · rw [ofBinary64_eq hx hz]
      rfl
  · have hzero : binary64.rankValue 0 = 0 := by
      simp [FloatFormat.rankValue, FloatFormat.rankMantissa]
    rw [ofBinary64_of_isZero hz]
    refine toBinary64_eq hx (Nat.two_pow_pos 53) (by decide : (-1074 : ℤ) ≤ 0)
      (by decide : (0 : ℤ) ≤ 971) rfl ?_
    rw [Binary64.isZero_iff.mp hz, hzero]
    exact zero_mul _

theorem toBinary64_of_rank_eq (h : x.rank = binary64.infinityWord) :
    (ofBinary64 x).toBinary64 = x := by
  have hbits := x.bits_eq_withSign
  rw [ofBinary64_of_rank_eq h]
  rw [h] at hbits
  cases hneg : x.isNegative
  · rw [hneg] at hbits
    cases x
    exact congrArg Binary64.mk (UInt64.toNat_inj.mp hbits.symm)
  · rw [hneg] at hbits
    cases x
    exact congrArg Binary64.mk (UInt64.toNat_inj.mp hbits.symm)

end Decomposition

/-! ## The mantissa in two words -/

namespace WordDecomposition

/-- Two halves joined are the word that was cut. -/
theorem toNat_join_halves (m : UInt64) :
    ((m >>> 32).toUInt32.toUInt64 <<< 32 ||| m.toUInt32.toUInt64).toNat = m.toNat := by
  have hlt := m.toNat_lt
  have hhigh : m.toNat >>> 32 % 4294967296 = m.toNat / 2 ^ 32 := by
    rw [Nat.shiftRight_eq_div_pow]
    omega
  have hroom : (m.toNat / 2 ^ 32) <<< 32 % 18446744073709551616 = (m.toNat / 2 ^ 32) <<< 32 := by
    rw [Nat.shiftLeft_eq]
    omega
  have hlow : m.toNat % 4294967296 < 2 ^ 32 := Nat.mod_lt _ (by decide)
  simp only [UInt64.toNat_or, UInt64.toNat_shiftLeft, UInt32.toNat_toUInt64, UInt64.toNat_toUInt32,
    UInt64.toNat_shiftRight]
  change (m.toNat >>> 32 % 4294967296) <<< 32 % 18446744073709551616 ||| m.toNat % 4294967296 =
    m.toNat
  rw [hhigh, hroom, ← Nat.shiftLeft_add_eq_or_of_lt hlow, Nat.shiftLeft_eq]
  omega

theorem mantissa_ofBinary64 (x : Binary64) :
    (ofBinary64 x).mantissa.toNat = (Decomposition.ofBinary64 x).mantissa := by
  have hlt := Decomposition.mantissa_lt x
  have hword : (Decomposition.ofBinary64 x).lowMantissa.toUInt64.toNat =
      (Decomposition.ofBinary64 x).mantissa :=
    UInt64.toNat_ofNat_of_lt' (hlt.trans (by decide))
  rw [← hword]
  exact toNat_join_halves _

end WordDecomposition

namespace Decomposition

/-- The decomposition of a finite double other than zero has the significand and the exponent of the
word, and its sign. Every double but a NaN is put together again from its parts bit by bit, and a
NaN from those of a NaN. Exactly one of the marks for a NaN, an infinity and a finite double is set,
as it is for the double, and the mantissa in two words is the mantissa. -/
theorem ofBinary64_invertible (x : Binary64) :
    (x.isFinite → x.isZero = false →
      ofBinary64 x = ⟨x.significand, x.significandExponent, signOf x.isNegative⟩) ∧
    (x.isNaN = false → (ofBinary64 x).toBinary64 = x) ∧
    (x.isNaN → (ofBinary64 x).toBinary64.isNaN) ∧
    ((ofBinary64 x).isNaN = x.isNaN ∧ (ofBinary64 x).isInfinite = x.isInfinite ∧
      (ofBinary64 x).isFinite = x.isFinite) ∧
    [(ofBinary64 x).isNaN, (ofBinary64 x).isInfinite, (ofBinary64 x).isFinite].count true = 1 ∧
    (WordDecomposition.ofBinary64 x).mantissa.toNat = (ofBinary64 x).mantissa := by
  have hmarks := marks_ofBinary64 x
  refine ⟨?_, ?_, ?_, hmarks, ?_, WordDecomposition.mantissa_ofBinary64 x⟩
  · intro hx hz
    rw [ofBinary64_eq hx hz, x.rankMantissa_eq_significand, x.rankExponent_eq_significandExponent]
  · intro hnumber
    rcases x.classes with hnan | ⟨hinf, -⟩ | ⟨hx, -⟩
    · rw [hnumber] at hnan
      cases hnan
    · exact toBinary64_of_rank_eq hinf
    · exact toBinary64_of_isFinite hx
  · intro hnan
    rw [ofBinary64_of_isNaN hnan]
    decide
  · rcases hmarks with ⟨hnan, hinf, hfin⟩
    rw [hnan, hinf, hfin]
    exact x.count_classes

/-- The greatest subnormal double with a sign, the largest finite double, whose exponent is next to
that of the marks, the negative zero, and a NaN with a payload. -/
theorem ofBinary64_invertible_borders :
    (Binary64.mk 0x800FFFFFFFFFFFFF).isFinite ∧ (Binary64.mk 0x800FFFFFFFFFFFFF).isZero = false ∧
      ofBinary64 ⟨0x800FFFFFFFFFFFFF⟩ = ⟨0xFFFFFFFFFFFFF, -1074, -1⟩ ∧
      (ofBinary64 ⟨0x800FFFFFFFFFFFFF⟩).toBinary64 = ⟨0x800FFFFFFFFFFFFF⟩ ∧
      (Binary64.mk 0x7FEFFFFFFFFFFFFF).isFinite ∧ (Binary64.mk 0x7FEFFFFFFFFFFFFF).isZero = false ∧
      ofBinary64 ⟨0x7FEFFFFFFFFFFFFF⟩ = ⟨0x1FFFFFFFFFFFFF, 971, 1⟩ ∧
      (ofBinary64 ⟨0x8000000000000000⟩).toBinary64 = ⟨0x8000000000000000⟩ ∧
      (Binary64.mk 0xFFF0000000000001).isNaN ∧
      (ofBinary64 ⟨0xFFF0000000000001⟩).toBinary64.isNaN := by
  rcases ofBinary64_invertible ⟨0x800FFFFFFFFFFFFF⟩ with ⟨hsubnormal, hback, -⟩
  rcases ofBinary64_invertible ⟨0x7FEFFFFFFFFFFFFF⟩ with ⟨hlargest, -⟩
  rcases ofBinary64_invertible ⟨0x8000000000000000⟩ with ⟨-, hzero, -⟩
  rcases ofBinary64_invertible ⟨0xFFF0000000000001⟩ with ⟨-, -, hnan, -⟩
  exact ⟨by decide, by decide, hsubnormal (by decide) (by decide), hback (by decide), by decide,
    by decide, hlargest (by decide) (by decide), hzero (by decide), by decide, hnan (by decide)⟩

end Decomposition

end Numerals
