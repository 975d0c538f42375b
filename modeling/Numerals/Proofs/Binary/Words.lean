import Numerals.Binary.Double
import Numerals.Proofs.Binary.Nearest

/-!
# Words and values

A word is a sign and a rank. The ranks below that of infinity are those of the finite data, whose
values are the values of the ranks with the sign; the word of infinity has no fraction, and the
words past it are NaNs.
-/

namespace Numerals

namespace FloatFormat

variable (f : FloatFormat) {w : ℕ} {negative : Bool}

theorem infinityWord_lt_signWord : f.infinityWord < f.signWord := by
  unfold infinityWord signWord
  simp only [Nat.pow_eq, pow_add]
  exact Nat.mul_lt_mul_of_pos_right (by have := Nat.two_pow_pos f.exponentBits; omega)
    (Nat.two_pow_pos _)

/-- The fields of a word: the sign, the biased exponent and the fraction. -/
theorem fields_withSign (negative : Bool) (hw : w < f.signWord) :
    decide (f.withSign negative w / f.signWord % 2 = 1) = negative ∧
    f.withSign negative w / 2 ^ f.fractionBits % 2 ^ f.exponentBits = w / 2 ^ f.fractionBits ∧
    f.withSign negative w % 2 ^ f.fractionBits = w % 2 ^ f.fractionBits := by
  have hp : 0 < 2 ^ f.fractionBits := Nat.two_pow_pos _
  have hs : f.signWord = 2 ^ f.exponentBits * 2 ^ f.fractionBits := by
    simp only [signWord, Nat.pow_eq, pow_add]
  have hspos : 0 < f.signWord := by omega
  have hdiv : w / 2 ^ f.fractionBits < 2 ^ f.exponentBits := by
    rw [Nat.div_lt_iff_lt_mul hp]
    omega
  cases negative
  · have hzero : w / f.signWord = 0 := Nat.div_eq_of_lt hw
    refine ⟨?_, ?_, rfl⟩
    · simp [withSign, hzero]
    · simp only [withSign]
      exact Nat.mod_eq_of_lt hdiv
  · have hone : (f.signWord + w) / f.signWord = 1 := by
      rw [Nat.add_div_left _ hspos, Nat.div_eq_of_lt hw]
    refine ⟨?_, ?_, ?_⟩
    · simp [withSign, hone]
    · simp only [withSign, if_true]
      rw [hs, Nat.add_comm, Nat.add_mul_div_right _ _ hp, Nat.add_mod_right,
        Nat.mod_eq_of_lt hdiv]
    · simp only [withSign, if_true]
      rw [hs, Nat.add_comm, Nat.add_mul_mod_self_right]

/-- The value of a finite word is that of its rank. -/
theorem decode_withSign (hw : w < f.infinityWord) :
    f.decode (f.withSign negative w) =
      .finite negative (f.rankMantissa w) (f.rankExponent w) := by
  have hp : 0 < 2 ^ f.fractionBits := Nat.two_pow_pos _
  obtain ⟨hneg, hexp, hfrac⟩ := f.fields_withSign negative
    (hw.trans f.infinityWord_lt_signWord)
  have hlt : w / 2 ^ f.fractionBits < 2 ^ f.exponentBits - 1 := by
    rw [Nat.div_lt_iff_lt_mul hp]
    exact hw
  unfold decode
  simp only [Nat.pow_eq, hexp, hfrac, hneg]
  rw [if_neg hlt.ne]
  split
  · rename_i hzero
    have hw' : w < 2 ^ f.fractionBits := (Nat.div_eq_zero_iff_lt hp).mp hzero
    rw [rankMantissa, rankExponent, rankBinade, hzero, Nat.mod_eq_of_lt hw']
    simp
  · rename_i hpos
    have hmod := Nat.div_add_mod' w (2 ^ f.fractionBits)
    have hsub := Nat.sub_one_mul (w / 2 ^ f.fractionBits) (2 ^ f.fractionBits)
    have hge : 2 ^ f.fractionBits ≤ w / 2 ^ f.fractionBits * 2 ^ f.fractionBits :=
      Nat.le_mul_of_pos_left _ (Nat.pos_of_ne_zero hpos)
    rw [rankMantissa, rankExponent, rankBinade]
    congr 1
    · omega
    · push_cast [Nat.cast_sub (Nat.pos_of_ne_zero hpos)]
      rfl

theorem decode_infinityWord :
    f.decode (f.withSign negative f.infinityWord) = .infinite negative := by
  have hp : 0 < 2 ^ f.fractionBits := Nat.two_pow_pos _
  obtain ⟨hneg, hexp, hfrac⟩ := f.fields_withSign negative f.infinityWord_lt_signWord
  unfold decode
  simp only [Nat.pow_eq, hexp, hfrac, hneg]
  simp [infinityWord, Nat.mul_div_cancel _ hp]

theorem decode_nan (hinf : f.infinityWord < w) (hw : w < f.signWord) :
    f.decode (f.withSign negative w) = .nan := by
  have hp : 0 < 2 ^ f.fractionBits := Nat.two_pow_pos _
  obtain ⟨hneg, hexp, hfrac⟩ := f.fields_withSign negative hw
  have hs : f.signWord = 2 ^ f.exponentBits * 2 ^ f.fractionBits := by
    simp only [signWord, Nat.pow_eq, pow_add]
  have hi : f.infinityWord = (2 ^ f.exponentBits - 1) * 2 ^ f.fractionBits := rfl
  have hlt : w / 2 ^ f.fractionBits < 2 ^ f.exponentBits := by
    rw [Nat.div_lt_iff_lt_mul hp]
    omega
  have hge : 2 ^ f.exponentBits - 1 ≤ w / 2 ^ f.fractionBits := by
    rw [Nat.le_div_iff_mul_le hp]
    omega
  have hne : w % 2 ^ f.fractionBits ≠ 0 := by
    intro h
    have hmod := Nat.div_add_mod' w (2 ^ f.fractionBits)
    rw [h, show w / 2 ^ f.fractionBits = 2 ^ f.exponentBits - 1 by omega] at hmod
    omega
  unfold decode
  simp only [Nat.pow_eq, hexp, hfrac]
  rw [if_pos (by omega), if_neg hne]

end FloatFormat

/-- The rational number that a finite value is. -/
def FloatValue.toRat : FloatValue → ℚ
  | .finite negative m e => (if negative then -1 else 1) * (m * 2 ^ e)
  | _ => 0

namespace Binary64

open FloatFormat (binary64)

variable {x y : Binary64} {q : ℚ}

/-! ## The rank of a double -/

/-- The rank of the absolute value: the word without its sign bit. -/
def rank (x : Binary64) : ℕ :=
  x.bits.toNat % binary64.signWord

/-- Whether `x` is neither a NaN nor an infinity. -/
def isFinite (x : Binary64) : Bool :=
  !x.isNaN && !x.isInfinite

/-- The rational number that a finite double is. -/
def toRat (x : Binary64) : ℚ :=
  x.value.toRat

/-- The absolute value: the sign bit is cleared. -/
def abs (x : Binary64) : Binary64 :=
  ⟨x.bits &&& 0x7FFFFFFFFFFFFFFF⟩

/-- The non-negative double of rank `w`. -/
def ofRank (w : ℕ) : Binary64 :=
  ⟨w.toUInt64⟩

theorem rank_lt (x : Binary64) : x.rank < binary64.signWord :=
  Nat.mod_lt _ (by decide)

theorem bits_eq_withSign (x : Binary64) :
    x.bits.toNat = binary64.withSign x.isNegative x.rank := by
  have hlt := x.bits.toNat_lt
  have hs : binary64.signWord = 9223372036854775808 := rfl
  have hneg : x.isNegative = decide (9223372036854775808 ≤ x.bits.toNat) := by
    unfold isNegative
    rw [decide_eq_decide, UInt64.le_iff_toNat_le]
    rfl
  unfold rank FloatFormat.withSign
  rw [hneg, hs]
  split <;> rename_i h <;> simp at h <;> omega

theorem ext_of_rank (hneg : x.isNegative = y.isNegative) (hrank : x.rank = y.rank) : x = y := by
  have hx := x.bits_eq_withSign
  have hy := y.bits_eq_withSign
  rw [hneg, hrank, ← hy] at hx
  cases x
  cases y
  exact congrArg Binary64.mk (UInt64.toNat_inj.mp hx)

theorem value_eq_decode (x : Binary64) :
    x.value = binary64.decode (binary64.withSign x.isNegative x.rank) := by
  rw [← bits_eq_withSign]
  rfl

theorem value_of_rank_lt (h : x.rank < binary64.infinityWord) :
    x.value = .finite x.isNegative (binary64.rankMantissa x.rank)
      (binary64.rankExponent x.rank) := by
  rw [value_eq_decode, binary64.decode_withSign h]

theorem value_of_rank_eq (h : x.rank = binary64.infinityWord) :
    x.value = .infinite x.isNegative := by
  rw [value_eq_decode, h, binary64.decode_infinityWord]

theorem value_of_lt_rank (h : binary64.infinityWord < x.rank) : x.value = .nan := by
  rw [value_eq_decode, binary64.decode_nan h x.rank_lt]

theorem isFinite_iff : x.isFinite ↔ x.rank < binary64.infinityWord := by
  unfold isFinite isNaN isInfinite
  rcases Nat.lt_trichotomy x.rank binary64.infinityWord with h | h | h
  · simp [value_of_rank_lt h, h]
  · simp [value_of_rank_eq h, h]
  · simp [value_of_lt_rank h, h.le]

theorem isNaN_iff : x.isNaN ↔ binary64.infinityWord < x.rank := by
  unfold isNaN
  rcases Nat.lt_trichotomy x.rank binary64.infinityWord with h | h | h
  · simp [value_of_rank_lt h, h.le]
  · simp [value_of_rank_eq h, h]
  · simp [value_of_lt_rank h, h]

theorem isZero_iff : x.isZero ↔ x.rank = 0 := by
  unfold isZero
  rcases Nat.lt_trichotomy x.rank binary64.infinityWord with h | h | h
  · have hr := binary64.rank_eq x.rank
    simp only [value_of_rank_lt h, decide_eq_true_eq]
    constructor
    · intro hm
      rcases binary64.rankBinade_eq_zero_or x.rank with hb | hb
      · rw [hm, hb] at hr
        omega
      · have := Nat.two_pow_pos binary64.fractionBits
        omega
    · intro h0
      rw [h0] at hr ⊢
      omega
  · have hi : binary64.infinityWord ≠ 0 := by decide
    simp [value_of_rank_eq h, h, hi]
  · simp [value_of_lt_rank h]
    omega

theorem rank_pos (h : x.isZero = false) : 0 < x.rank := by
  rw [Bool.eq_false_iff, ne_eq, isZero_iff] at h
  omega

theorem toRat_of_isFinite (h : x.isFinite) :
    x.toRat = (if x.isNegative then -1 else 1) * binary64.rankValue x.rank := by
  unfold toRat
  rw [value_of_rank_lt (isFinite_iff.mp h)]
  rfl

theorem bits_abs (x : Binary64) : x.abs.bits.toNat = x.rank := by
  unfold abs
  rw [UInt64.toNat_and]
  exact Nat.and_two_pow_sub_one_eq_mod _ 63

theorem rank_abs (x : Binary64) : x.abs.rank = x.rank := by
  rw [rank, bits_abs, Nat.mod_eq_of_lt x.rank_lt]

theorem isNegative_eq_false_iff : x.isNegative = false ↔ x.bits.toNat = x.rank := by
  have h := x.bits_eq_withSign
  have hs : 0 < binary64.signWord := by decide
  cases hx : x.isNegative
  · rw [hx] at h
    exact ⟨fun _ => h, fun _ => rfl⟩
  · rw [hx] at h
    simp only [FloatFormat.withSign, if_true] at h
    simp
    omega

theorem isNegative_abs (x : Binary64) : x.abs.isNegative = false := by
  rw [isNegative_eq_false_iff, rank_abs, bits_abs]

theorem bits_ofRank {w : ℕ} (hw : w < binary64.signWord) : (ofRank w).bits.toNat = w := by
  have hs : binary64.signWord = 9223372036854775808 := rfl
  exact UInt64.toNat_ofNat_of_lt' (by rw [hs] at hw; exact lt_trans hw (by decide))

theorem rank_ofRank {w : ℕ} (hw : w < binary64.signWord) : (ofRank w).rank = w := by
  unfold rank
  rw [bits_ofRank hw, Nat.mod_eq_of_lt hw]

theorem isNegative_ofRank {w : ℕ} (hw : w < binary64.signWord) :
    (ofRank w).isNegative = false := by
  rw [isNegative_eq_false_iff, bits_ofRank hw, rank_ofRank hw]

end Binary64

end Numerals
