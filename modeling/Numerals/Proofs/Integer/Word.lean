import Numerals.Proofs.Integer.Division
import Mathlib.Data.Int.ModEq

/-!
# Integers and 64-bit words

A signed word is determined by its number modulo `2 ^ 64`, and numbers from `-2 ^ 63` up to
`2 ^ 63` are the numbers of words. The low word of an integer takes the two lowest words of its
magnitude and forgets the others, so that it is congruent to the integer whatever its length is.
Main statement: the low word of an integer is the one that is congruent to it, the test for a word
holds exactly for the numbers of words, and words and integers are converted without loss.
-/

namespace Numerals

namespace Word

variable {m n : Int64} {z : ℤ}

/-! ## Words modulo `2 ^ 64` -/

/-- The signed and the unsigned number of a word differ by a multiple of `2 ^ 64`. -/
theorem toInt_modEq (n : Int64) : n.toInt ≡ n.toUInt64.toNat [ZMOD 2 ^ 64] := by
  have hbits : n.toInt = (n.toUInt64.toNat : ℤ).bmod (2 ^ 64) :=
    BitVec.toInt_eq_toNat_bmod n.toBitVec
  rw [hbits]
  exact Int.bmod_emod

theorem neg_modEq (n : Int64) : (-n).toInt ≡ -n.toInt [ZMOD 2 ^ 64] := by
  rw [Int64.toInt_neg]
  exact Int.bmod_emod

/-- A number in the range of words is the number of the word that is congruent to it. -/
theorem toInt_eq_of_modEq (h : n.toInt ≡ z [ZMOD 2 ^ 64]) (hlow : -2 ^ 63 ≤ z)
    (hhigh : z < 2 ^ 63) : n.toInt = z := by
  have hnlow := n.le_toInt
  have hnhigh := n.toInt_lt
  unfold Int.ModEq at h
  omega

theorem eq_of_modEq (h : m.toInt ≡ n.toInt [ZMOD 2 ^ 64]) : m = n :=
  Int64.toInt_inj.mp (toInt_eq_of_modEq h n.le_toInt n.toInt_lt)

end Word

namespace Magnitude

/-! ## Words of magnitudes -/

theorem toNat_ofWord (u : UInt64) : toNat (ofWord u) = u.toNat := by
  have hsplit := toNat_low_high u
  have hhigh : (u >>> 32).toNat < 2 ^ 32 := by
    have hu := u.toNat_lt
    omega
  unfold ofWord
  split
  · rename_i hzero
    rw [hzero, UInt64.toNat_zero] at hsplit
    rw [toNat_singleton]
    omega
  · rw [toNat_cons, toNat_singleton, UInt64.toNat_toUInt32 (u >>> 32), Nat.mod_eq_of_lt hhigh]
    exact hsplit

/-- Words from the third one on do not count. -/
theorem toNat_lowWord (a : Magnitude) : (lowWord a).toNat = toNat a % 2 ^ 64 := by
  match a with
  | [] => rfl
  | [d] =>
    have hd := d.toNat_lt
    rw [lowWord, UInt32.toNat_toUInt64, toNat_singleton]
    omega
  | d :: e :: ds =>
    have hd := d.toNat_lt
    have he := e.toNat_lt
    rw [lowWord, UInt64.or_comm, toNat_join, toNat_cons, toNat_cons]
    omega

end Magnitude

namespace Integer

variable {x : Integer}

/-! ## The low word of an integer -/

theorem toInt64_modEq (hx : x.Normalized) : x.toInt64.toInt ≡ x.toInt [ZMOD 2 ^ 64] := by
  have hlow : x.mag.lowWord.toInt64.toInt ≡ x.mag.toNat [ZMOD 2 ^ 64] := by
    refine (Word.toInt_modEq x.mag.lowWord.toInt64).trans ?_
    rw [UInt64.toUInt64_toInt64, Magnitude.toNat_lowWord, Int.natCast_mod]
    exact Int.mod_modEq _ _
  unfold toInt64
  split
  · rename_i hs
    rw [toInt_of_negative hs]
    exact (Word.neg_modEq _).trans hlow.neg
  · rename_i hs
    cases hsign : x.sign with
    | negative => exact absurd hsign hs
    | positive => rwa [toInt_of_positive hsign]
    | zero =>
      rw [toInt_of_zero hsign, hx.mag_eq_nil hsign]
      rfl

/-! ## The test for a word -/

/-- With one word at most, all numbers are in range; with three words or more, none is. With two
words, the low word is the magnitude, and the least number of a word has the greatest one. -/
theorem isInt64_iff (hx : x.Normalized) :
    x.isInt64 = true ↔ -2 ^ 63 ≤ x.toInt ∧ x.toInt < 2 ^ 63 := by
  have hlt := Magnitude.toNat_lt x.mag
  have hlow := Magnitude.toNat_lowWord x.mag
  have habs := hx.natAbs_toInt
  unfold isInt64
  split
  · rename_i hlen
    have hword : x.mag.toNat < 2 ^ 32 :=
      hlt.trans_le (Nat.pow_le_pow_right two_pos (show 32 * x.mag.length ≤ 32 by omega))
    simp only [true_iff]
    omega
  · rename_i hlen
    split
    · rename_i hlong
      have hge : 2 ^ 64 ≤ x.mag.toNat :=
        (Nat.pow_le_pow_right two_pos (show 64 ≤ 32 * (x.mag.length - 1) by omega)).trans
          (Magnitude.pow_le_toNat hx.trimmed (List.ne_nil_of_length_pos (by omega)))
      simp only [Bool.false_eq_true, false_iff]
      omega
    · rename_i hshort
      have hdouble : x.mag.toNat < 2 ^ 64 :=
        hlt.trans_le (Nat.pow_le_pow_right two_pos (show 32 * x.mag.length ≤ 64 by omega))
      rw [Nat.mod_eq_of_lt hdouble] at hlow
      split
      · rename_i hs
        rw [toInt_of_negative hs, decide_eq_true_iff, UInt64.le_iff_toNat_le, hlow]
        change x.mag.toNat ≤ 2 ^ 63 ↔ _
        omega
      · rename_i hs
        have hsign : x.sign = .positive := by
          cases h : x.sign with
          | negative => exact absurd h hs
          | positive => rfl
          | zero => simp [hx.mag_eq_nil h] at hlen
        rw [toInt_of_positive hsign, decide_eq_true_iff, UInt64.lt_iff_toNat_lt, hlow]
        change x.mag.toNat < 2 ^ 63 ↔ _
        omega

/-! ## Integers of words -/

theorem toInt_ofUInt64 (u : UInt64) : (ofUInt64 u).toInt = u.toNat := by
  unfold ofUInt64
  split
  · rename_i hu
    rw [hu]
    rfl
  · rw [toInt_of_positive rfl, Magnitude.toNat_ofWord]

/-- The magnitude of a negative word is less than `2 ^ 64` and congruent to the opposite of its
number, also for the least word, whose opposite is no signed word. -/
theorem toNat_negatedWord {n : Int64} (hn : n.toInt < 0) :
    (((-(n + 1)).toUInt64 + 1).toNat : ℤ) = -n.toInt := by
  have hlow := n.le_toInt
  have hmod := Word.toInt_modEq n
  have hlt := n.toUInt64.toNat_lt
  have hneg : (-(n + 1)).toUInt64 + 1 = -n.toUInt64 := by
    apply UInt64.toBitVec_inj.mp
    change -(n.toBitVec + 1) + 1 = -n.toBitVec
    bv_omega
  rw [hneg, UInt64.toNat_neg, UInt64.size]
  unfold Int.ModEq at hmod
  omega

theorem toInt_ofInt64 (n : Int64) : (ofInt64 n).toInt = n.toInt := by
  unfold ofInt64
  split
  · rename_i hn
    rw [hn]
    rfl
  · split
    · rename_i hneg
      rw [toInt_of_negative rfl, Magnitude.toNat_ofWord,
        toNat_negatedWord (Int64.lt_iff_toInt_lt.mp hneg), neg_neg]
    · rename_i hneg
      rw [Int64.lt_iff_toInt_lt, Int64.toInt_zero, not_lt] at hneg
      have hhigh := n.toInt_lt
      have hmod := Word.toInt_modEq n
      have hlt := n.toUInt64.toNat_lt
      rw [toInt_of_positive rfl, Magnitude.toNat_ofWord]
      unfold Int.ModEq at hmod
      omega

/-- The conversions between integers and 64-bit words. The low word of an integer is the one signed
word that is congruent to it modulo `2 ^ 64`; the integers that pass the test for a word are those
in range, and they are what their low words are converted to. Signed and unsigned words are
converted to integers of the same number. -/
theorem int64_conversions (hx : x.Normalized) (n : Int64) (u : UInt64) :
    (n.toInt ≡ x.toInt [ZMOD 2 ^ 64] ↔ n = x.toInt64) ∧
    (x.isInt64 = true ↔ -2 ^ 63 ≤ x.toInt ∧ x.toInt < 2 ^ 63) ∧
    (x.isInt64 = true → ofInt64 x.toInt64 = x) ∧
    (ofInt64 n).toInt = n.toInt ∧ (ofUInt64 u).toInt = u.toNat := by
  have hmod := toInt64_modEq hx
  refine ⟨⟨?_, ?_⟩, isInt64_iff hx, ?_, toInt_ofInt64 n, toInt_ofUInt64 u⟩
  · intro hn
    exact Word.eq_of_modEq (hn.trans hmod.symm)
  · rintro rfl
    exact hmod
  · intro hint
    rcases (isInt64_iff hx).mp hint with ⟨hlow, hhigh⟩
    -- both integers are in the unique form, so that it suffices to compare their numbers
    apply ((normalized_ofInt64 _).toInt_inj hx).mp
    rw [toInt_ofInt64]
    exact Word.toInt_eq_of_modEq hmod hlow hhigh

/-- The least signed word, whose opposite is no signed word, and the greatest unsigned one. -/
theorem int64_conversions_least :
    Normalized ⟨.negative, [0, 2147483648]⟩ ∧
    toInt ⟨.negative, [0, 2147483648]⟩ = -2 ^ 63 ∧
    Int64.minValue = toInt64 ⟨.negative, [0, 2147483648]⟩ ∧
    isInt64 ⟨.negative, [0, 2147483648]⟩ = true ∧
    ofInt64 (toInt64 ⟨.negative, [0, 2147483648]⟩) = ⟨.negative, [0, 2147483648]⟩ ∧
    (ofInt64 Int64.minValue).toInt = -2 ^ 63 ∧
    (ofUInt64 18446744073709551615).toInt = 18446744073709551615 := by
  have hx : Normalized ⟨.negative, [0, 2147483648]⟩ := by decide
  have hvalue : toInt ⟨.negative, [0, 2147483648]⟩ = -2 ^ 63 := by decide
  obtain ⟨hword, htest, hback, hsigned, hunsigned⟩ :=
    int64_conversions hx Int64.minValue 18446744073709551615
  have hint : isInt64 ⟨.negative, [0, 2147483648]⟩ = true := by
    rw [htest, hvalue]
    decide
  refine ⟨hx, hvalue, hword.mp ?_, hint, hback hint, hsigned, hunsigned⟩
  rw [hvalue]
  rfl

end Integer

end Numerals
