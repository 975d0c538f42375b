import Numerals.Integer.Numeral
import Numerals.Integer.Power
import Numerals.Proofs.Integer.Magnitude
import Mathlib.Algebra.Group.Even
import Mathlib.Algebra.Ring.Parity
import Mathlib.Algebra.Order.Group.Int

/-!
# The unique form of integers

Every operation yields integers in the form `Normalized` if its operands are in that form. A few of
them take care of the form themselves, by leaving words unchanged or by choosing them; the others
leave it to `ofWords`. Main statements: of integers in that form, the sign and the words are
determined by the number they denote, and the tests on signs and words are tests on that number.
-/

namespace Numerals.Integer

variable {x y : Integer} {s : Sign} {a : Magnitude}

/-! ## Integers in the unique form -/

namespace Normalized

theorem trimmed (hx : x.Normalized) : x.mag.Trimmed := hx.2

theorem mag_eq_nil (hx : x.Normalized) (hs : x.sign = .zero) : x.mag = [] := hx.1.mp hs

theorem mag_ne_nil (hx : x.Normalized) (hs : x.sign ≠ .zero) : x.mag ≠ [] := mt hx.1.mpr hs

theorem mag_pos (hx : x.Normalized) (hs : x.sign ≠ .zero) : 0 < x.mag.toNat :=
  Magnitude.toNat_pos hx.trimmed (hx.mag_ne_nil hs)

end Normalized

theorem normalized_mk (hs : s ≠ .zero) (ha : a.Trimmed) (hne : a ≠ []) :
    Normalized ⟨s, a⟩ :=
  ⟨⟨fun h => absurd h hs, fun h => absurd h hne⟩, ha⟩

theorem normalized_zero : zero.Normalized := by
  decide

theorem normalized_one : one.Normalized := by
  decide

/-! ## Operations -/

theorem normalized_ofWords (hs : s ≠ .zero) : (ofWords s a).Normalized := by
  have htrim := a.trim_trimmed
  unfold ofWords
  split
  · exact normalized_zero
  · rename_i d ds heq
    rw [heq] at htrim
    exact normalized_mk hs htrim (by simp)

theorem normalized_ofWord (hs : s ≠ .zero) {u : UInt64} (hu : u ≠ 0) :
    Normalized ⟨s, .ofWord u⟩ :=
  normalized_mk hs (Magnitude.ofWord_trimmed hu) (Magnitude.ofWord_ne_nil u)

/-- The magnitude of a negative word is not zero, not even that of the least one. -/
theorem negatedWord_ne_zero {n : Int64} (hn : n ≠ 0) : (-(n + 1)).toUInt64 + 1 ≠ 0 := by
  intro h
  apply hn
  have hbits : -(n.toBitVec + 1) + 1 = 0 := congrArg UInt64.toBitVec h
  apply Int64.toBitVec_inj.mp
  change n.toBitVec = 0
  bv_omega

theorem normalized_ofInt64 (n : Int64) : (ofInt64 n).Normalized := by
  unfold ofInt64
  split
  · exact normalized_zero
  · rename_i hne
    split
    · exact normalized_ofWord (by decide) (negatedWord_ne_zero hne)
    · refine normalized_ofWord (by decide) fun h => hne ?_
      exact Int64.toBitVec_inj.mp (congrArg UInt64.toBitVec h)

theorem normalized_ofUInt64 (u : UInt64) : (ofUInt64 u).Normalized := by
  unfold ofUInt64
  split
  · exact normalized_zero
  · rename_i hne
    exact normalized_ofWord (by decide) hne

theorem normalized_neg (hx : x.Normalized) : x.neg.Normalized := by
  unfold neg
  split
  · exact hx
  · rename_i hs
    refine normalized_mk ?_ hx.trimmed (hx.mag_ne_nil hs)
    cases hsign : x.sign <;> simp_all [Sign.neg]

theorem normalized_abs (hx : x.Normalized) : x.abs.Normalized := by
  unfold abs
  split
  · rename_i hs
    exact normalized_mk (by decide) hx.trimmed (hx.mag_ne_nil (by rw [hs]; decide))
  · exact hx

theorem normalized_map_ofWords {r : Result Magnitude} {z : Integer} (hs : s ≠ .zero)
    (h : r.map (ofWords s) = .ok z) : z.Normalized := by
  cases r with
  | error e => cases h
  | ok a =>
    cases h
    exact normalized_ofWords hs

theorem normalized_add {z : Integer} (hx : x.Normalized) (hy : y.Normalized)
    (h : x.add y = .ok z) : z.Normalized := by
  unfold add at h
  split at h
  · cases h
    exact hy
  · rename_i hxs
    split at h
    · cases h
      exact hx
    · rename_i hys
      split at h
      · cases h
        exact normalized_ofWords hxs
      · -- of different signs, the lesser magnitude is taken from the greater one
        split at h
        · cases h
          exact normalized_zero
        · exact normalized_map_ofWords hxs h
        · exact normalized_map_ofWords hys h

theorem sign_mul_ne_zero {s t : Sign} (hs : s ≠ .zero) (ht : t ≠ .zero) : s.mul t ≠ .zero := by
  cases s <;> cases t <;> simp_all [Sign.mul, Sign.neg]

theorem normalized_mul (x y : Integer) : (x.mul y).Normalized := by
  unfold mul
  split
  · exact normalized_zero
  · rename_i h
    simp only [Bool.or_eq_true, decide_eq_true_eq, not_or] at h
    exact normalized_ofWords (sign_mul_ne_zero h.1 h.2)

theorem normalized_mulWord (x : Integer) (m : UInt32) : (x.mulWord m).Normalized := by
  unfold mulWord
  split
  · exact normalized_zero
  · rename_i h
    simp only [Bool.or_eq_true, decide_eq_true_eq, not_or] at h
    exact normalized_ofWords h.1

theorem normalized_divWord {d : UInt32} {r : Integer × UInt32} (hx : x.Normalized)
    (h : x.divWord d = .ok r) : r.1.Normalized := by
  unfold divWord at h
  split at h
  · cases h
  · cases h
    by_cases hs : x.sign = .zero
    · -- the sign of a quotient of zero stays zero, and so it must have no words
      rw [hs, hx.mag_eq_nil hs]
      exact normalized_zero
    · exact normalized_ofWords hs

theorem normalized_shiftLeft (hx : x.Normalized) (n : ℕ) : (x.shiftLeft n).Normalized := by
  unfold shiftLeft
  split
  · exact hx
  · rename_i h
    simp only [Bool.or_eq_true, decide_eq_true_eq, not_or] at h
    exact normalized_ofWords h.1

theorem toNat_bit {k : ℕ} (hk : k < 32) : ((1 : UInt32) <<< k.toUInt32).toNat = 2 ^ k := by
  have hmod : k.toUInt32.toNat % 32 = k := by
    simp
    omega
  rw [UInt32.toNat_shiftLeft, hmod, UInt32.toNat_one, Nat.one_shiftLeft]
  exact Nat.mod_eq_of_lt (Nat.pow_lt_pow_right one_lt_two hk)

theorem one_shiftLeft_ne_zero {k : ℕ} (hk : k < 32) : (1 : UInt32) <<< k.toUInt32 ≠ 0 := by
  intro h
  have hval := congrArg UInt32.toNat h
  rw [toNat_bit hk, UInt32.toNat_zero] at hval
  exact (Nat.two_pow_pos k).ne' hval

theorem normalized_twoPow (n : ℕ) : (twoPow n).Normalized := by
  have hbit : (1 : UInt32) <<< (n % 32).toUInt32 ≠ 0 :=
    one_shiftLeft_ne_zero (Nat.mod_lt n (by decide))
  exact normalized_mk (by decide) (Magnitude.trimmed_append_singleton.mpr hbit) (by simp)

theorem normalized_tenPow (n : ℕ) : (tenPow n).Normalized := by
  cases n with
  | zero => exact normalized_one
  | succ n => exact normalized_mulWord _ _

theorem normalized_powerOfTwo {e : ℤ} (h : powerOfTwo e = .ok x) : x.Normalized := by
  unfold powerOfTwo at h
  split at h
  · cases h
    exact normalized_twoPow _
  · cases h

theorem normalized_powerOfTen {e : ℤ} (h : powerOfTen e = .ok x) : x.Normalized := by
  unfold powerOfTen at h
  split at h
  · cases h
    exact normalized_tenPow _
  · cases h

theorem normalized_powAcc (hx : x.Normalized) (e : ℕ) : (powAcc x y e).Normalized := by
  induction e using Nat.strong_induction_on generalizing x y with
  | h e ih =>
    rw [powAcc]
    split
    · exact hx
    · refine ih (e / 2) (by omega) ?_
      split
      · exact normalized_mul _ _
      · exact hx

theorem normalized_pow {e : ℤ} {z : Integer} (h : x.pow e = .ok z) : z.Normalized := by
  unfold pow at h
  split at h
  · cases h
  · split at h
    · exact normalized_powerOfTwo h
    · split at h
      · exact normalized_powerOfTen h
      · cases h
        exact normalized_powAcc normalized_one _

theorem normalized_readDigits {b i : ℕ} {bytes : List UInt8} (hx : x.Normalized)
    (h : readDigits b i x bytes = .ok y) : y.Normalized := by
  induction bytes generalizing i x with
  | nil =>
    cases h
    exact hx
  | cons c cs ih =>
    rw [readDigits] at h
    split at h
    · cases h
    · rename_i d hd
      cases hadd : (x.mulWord b.toUInt32).add (ofInt64 (Int64.ofNat d)) with
      | error e => simp [hadd, bind, Except.bind] at h
      | ok acc =>
        rw [hadd] at h
        exact ih (normalized_add (normalized_mulWord _ _) (normalized_ofInt64 _) hadd) h

theorem normalized_readBytes {bytes : List UInt8} {base : ℤ} (h : readBytes bytes base = .ok x) :
    x.Normalized := by
  unfold readBytes at h
  split at h
  · split at h
    · cases h
    · rename_i minus c cs hsplit
      cases hread : readDigits base.toNat 0 zero (c :: cs) with
      | error e => simp [hread, bind, Except.bind] at h
      | ok y =>
        have hy := normalized_readDigits normalized_zero hread
        rw [hread] at h
        cases h
        cases minus with
        | false => exact hy
        | true => exact normalized_neg hy
  · cases h

/-! ## Tests on signs and words -/

theorem sign_toInt_injective : Function.Injective Sign.toInt := by
  intro s t h
  cases s <;> cases t <;> simp_all [Sign.toInt]

theorem toInt_of_zero (hs : x.sign = .zero) : x.toInt = 0 := by
  simp [toInt, hs, Sign.toInt]

theorem toInt_of_positive (hs : x.sign = .positive) : x.toInt = x.mag.toNat := by
  simp [toInt, hs, Sign.toInt]

theorem toInt_of_negative (hs : x.sign = .negative) : x.toInt = -x.mag.toNat := by
  simp [toInt, hs, Sign.toInt]

namespace Normalized

theorem toInt_eq_zero_iff (hx : x.Normalized) : x.toInt = 0 ↔ x.sign = .zero := by
  constructor
  · intro h
    by_contra hs
    have hpos := hx.mag_pos hs
    cases hsign : x.sign with
    | zero => exact hs hsign
    | positive =>
      rw [toInt_of_positive hsign] at h
      omega
    | negative =>
      rw [toInt_of_negative hsign] at h
      omega
  · exact toInt_of_zero

theorem toInt_lt_of_sign_lt (hx : x.Normalized) (hy : y.Normalized)
    (h : x.sign.toInt < y.sign.toInt) : x.toInt < y.toInt := by
  have hxpos := hx.mag_pos
  have hypos := hy.mag_pos
  unfold toInt
  cases hxs : x.sign <;> cases hys : y.sign <;>
    simp only [hxs, hys, Sign.toInt, ne_eq, reduceCtorEq, not_false_eq_true, forall_const,
      not_true_eq_false, IsEmpty.forall_iff] at h hxpos hypos ⊢ <;> omega

/-- Signs decide first, and among negative integers the order of magnitudes is reversed. -/
theorem compare_eq (hx : x.Normalized) (hy : y.Normalized) :
    x.compare y = Ord.compare x.toInt y.toInt := by
  have hmag := Magnitude.compare_eq hx.trimmed hy.trimmed
  unfold Integer.compare
  split
  · rename_i hlt
    exact (compare_lt_iff_lt.mpr (hx.toInt_lt_of_sign_lt hy hlt)).symm
  · rename_i hnlt
    split
    · rename_i hgt
      exact (compare_gt_iff_gt.mpr (hy.toInt_lt_of_sign_lt hx hgt)).symm
    · rename_i hngt
      -- equal signs: the magnitudes decide
      have hsign : x.sign = y.sign := sign_toInt_injective (by omega)
      rw [hmag]
      cases hxs : x.sign with
      | zero =>
        have hys := hsign ▸ hxs
        rw [toInt_of_zero hxs, toInt_of_zero hys, hx.mag_eq_nil hxs, hy.mag_eq_nil hys]
        rfl
      | positive =>
        rw [toInt_of_positive hxs, toInt_of_positive (hsign ▸ hxs)]
        simp [Ord.compare, compareOfLessAndEq]
      | negative =>
        rw [toInt_of_negative hxs, toInt_of_negative (hsign ▸ hxs)]
        rw [if_pos rfl, ← Std.OrientedOrd.eq_swap]
        simp [Ord.compare, compareOfLessAndEq, eq_comm]

/-- The number determines the sign and the words. -/
theorem toInt_inj (hx : x.Normalized) (hy : y.Normalized) : x.toInt = y.toInt ↔ x = y := by
  constructor
  · intro h
    have hsign : x.sign = y.sign := by
      apply sign_toInt_injective
      rcases lt_trichotomy x.sign.toInt y.sign.toInt with hlt | heq | hgt
      · exact absurd h (hx.toInt_lt_of_sign_lt hy hlt).ne
      · exact heq
      · exact absurd h (hy.toInt_lt_of_sign_lt hx hgt).ne'
    have hnat : x.mag.toNat = y.mag.toNat := by
      cases hxs : x.sign with
      | zero => rw [hx.mag_eq_nil hxs, hy.mag_eq_nil (hsign ▸ hxs)]
      | positive =>
        rw [toInt_of_positive hxs, toInt_of_positive (hsign ▸ hxs)] at h
        omega
      | negative =>
        rw [toInt_of_negative hxs, toInt_of_negative (hsign ▸ hxs)] at h
        omega
    have hmag := Magnitude.toNat_injOn_trimmed hx.trimmed hy.trimmed hnat
    cases x
    cases y
    simp_all
  · intro h
    rw [h]

theorem natAbs_toInt (hx : x.Normalized) : x.toInt.natAbs = x.mag.toNat := by
  cases hs : x.sign with
  | zero =>
    rw [toInt_of_zero hs, hx.mag_eq_nil hs]
    rfl
  | positive => rw [toInt_of_positive hs, Int.natAbs_natCast]
  | negative => rw [toInt_of_negative hs, Int.natAbs_neg, Int.natAbs_natCast]

theorem equal_iff (hx : x.Normalized) (hy : y.Normalized) :
    x.equal y = true ↔ x.toInt = y.toInt := by
  unfold equal
  rw [hx.compare_eq hy, decide_eq_true_iff, compare_eq_iff_eq]

theorem isZero_iff (hx : x.Normalized) : x.isZero = true ↔ x.toInt = 0 := by
  unfold isZero
  rw [decide_eq_true_iff, hx.toInt_eq_zero_iff]

theorem isEven_iff (hx : x.Normalized) : x.isEven = true ↔ Even x.toInt := by
  have hword (d : UInt32) : d &&& 1 = 0 ↔ d.toNat % 2 = 0 := by
    rw [← UInt32.toNat_inj, UInt32.toNat_and, UInt32.toNat_one, Nat.and_one_is_mod]
    rfl
  rw [← Int.natAbs_even, hx.natAbs_toInt, Nat.even_iff]
  unfold isEven
  by_cases hs : x.sign = .zero
  · simp [hs, hx.mag_eq_nil hs, Magnitude.toNat]
  · obtain ⟨d, ds, hmag⟩ := List.exists_cons_of_ne_nil (hx.mag_ne_nil hs)
    rw [hmag, Magnitude.toNat_mod_two, ← hword]
    simp [hs]

theorem bitLength_eq (hx : x.Normalized) : x.bitLength = x.toInt.natAbs.size := by
  rw [hx.natAbs_toInt, ← Magnitude.bitLength_eq_size hx.trimmed]
  unfold bitLength
  split
  · rename_i hs
    rw [hx.mag_eq_nil hs]
    rfl
  · rfl

end Normalized

end Numerals.Integer
