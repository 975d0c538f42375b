import Numerals.Proofs.Integer.Addition
import Mathlib.Tactic.Linarith

/-!
# Short division and shifts

Short division goes down from the most significant word. Each word is divided together with the
remainder of the words above it, which is less than the divisor, so that each word of the quotient
fits its place. A shift moves whole words and then the bits that are left, of which those shifted out
of a word are shifted into the next one. Main statement: quotients, remainders and shifts are exact.
-/

namespace Numerals

namespace Magnitude

variable {d : UInt32}

/-! ## Short division -/

/-- The words of a double word. -/
theorem toNat_join (r a : UInt32) :
    (r.toUInt64 <<< 32 ||| a.toUInt64).toNat = 2 ^ 32 * r.toNat + a.toNat := by
  have hr := r.toNat_lt
  have ha := a.toNat_lt
  have hshift : (r.toUInt64 <<< 32).toNat = r.toNat <<< 32 := by
    rw [UInt64.toNat_shiftLeft, UInt32.toNat_toUInt64]
    change r.toNat <<< 32 % 2 ^ 64 = r.toNat <<< 32
    rw [Nat.shiftLeft_eq]
    omega
  rw [UInt64.toNat_or, hshift, UInt32.toNat_toUInt64, ← Nat.shiftLeft_add_eq_or_of_lt ha,
    Nat.shiftLeft_eq, Nat.mul_comm]

/-- With a remainder less than the divisor above it, a word has a quotient of one word. -/
theorem quotient_lt {r : UInt32} (hr : r.toNat < d.toNat) (a : UInt32) :
    ((r.toUInt64 <<< 32 ||| a.toUInt64) / d.toUInt64).toNat < 2 ^ 32 := by
  have ha := a.toNat_lt
  rw [UInt64.toNat_div, toNat_join, UInt32.toNat_toUInt64]
  apply Nat.div_lt_of_lt_mul
  calc 2 ^ 32 * r.toNat + a.toNat < 2 ^ 32 * (r.toNat + 1) := by omega
    _ ≤ 2 ^ 32 * d.toNat := Nat.mul_le_mul_left _ hr
    _ = d.toNat * 2 ^ 32 := Nat.mul_comm _ _

theorem remainder_lt (hd : d ≠ 0) (a : Magnitude) : (divWord d a).2.toNat < d.toNat := by
  have hpos : 0 < d.toNat := Nat.pos_of_ne_zero fun h => hd (UInt32.toNat_inj.mp h)
  cases a with
  | nil => exact hpos
  | cons a as =>
    rw [divWord]
    dsimp only
    rw [UInt64.toNat_toUInt32, UInt64.toNat_mod, UInt32.toNat_toUInt64]
    exact (Nat.mod_le _ _).trans_lt (Nat.mod_lt _ hpos)

/-- The quotient and the remainder make up what was divided. -/
theorem toNat_divWord (hd : d ≠ 0) (a : Magnitude) :
    toNat (divWord d a).1 * d.toNat + (divWord d a).2.toNat = toNat a := by
  induction a with
  | nil => simp [divWord, toNat]
  | cons a as ih =>
    have hquotient := quotient_lt (remainder_lt hd as) a
    have hremainder : ((divWord d as).2.toUInt64 <<< 32 ||| a.toUInt64).toNat % d.toNat < 2 ^ 32 :=
      (Nat.mod_lt _ (Nat.zero_lt_of_lt (remainder_lt hd as))).trans d.toNat_lt
    have hcurrent := Nat.div_add_mod'
      ((divWord d as).2.toUInt64 <<< 32 ||| a.toUInt64).toNat d.toNat
    rw [divWord]
    dsimp only
    rw [toNat_cons, toNat_cons, UInt64.toNat_toUInt32, UInt64.toNat_toUInt32,
      Nat.mod_eq_of_lt hquotient, UInt64.toNat_mod, UInt64.toNat_div, UInt32.toNat_toUInt64,
      Nat.mod_eq_of_lt hremainder]
    rw [toNat_join] at hcurrent ⊢
    linarith

/-- The quotient and the remainder are those of the numbers. -/
theorem divWord_eq (hd : d ≠ 0) (a : Magnitude) :
    toNat (divWord d a).1 = toNat a / d.toNat ∧ (divWord d a).2.toNat = toNat a % d.toNat := by
  have hlt := remainder_lt hd a
  have hsum := toNat_divWord hd a
  have hsum' : (divWord d a).2.toNat + d.toNat * toNat (divWord d a).1 = toNat a := by
    rw [← hsum]
    ring
  obtain ⟨hquotient, hremainder⟩ :=
    (Nat.div_mod_unique (Nat.zero_lt_of_lt hlt)).mpr ⟨hsum', hlt⟩
  exact ⟨hquotient.symm, hremainder.symm⟩

/-! ## Shifts -/

section Bits

variable {n : UInt32}

theorem toNat_shifted_in (hn : n.toNat < 32) (u : UInt32) :
    (u <<< n).toNat = (u.toNat % 2 ^ (32 - n.toNat)) <<< n.toNat := by
  have hpow : 2 ^ 32 = 2 ^ (32 - n.toNat) * 2 ^ n.toNat := by
    rw [← pow_add, Nat.sub_add_cancel hn.le]
  rw [UInt32.toNat_shiftLeft, Nat.mod_eq_of_lt hn, Nat.shiftLeft_eq, Nat.shiftLeft_eq, hpow,
    Nat.mul_mod_mul_right]

theorem toNat_shifted_out (hpos : 0 < n.toNat) (hn : n.toNat < 32) (u : UInt32) :
    (u >>> (32 - n)).toNat = u.toNat / 2 ^ (32 - n.toNat) := by
  have hle : n ≤ 32 := UInt32.le_iff_toNat_le.mpr hn.le
  have hrest : (32 - n).toNat = 32 - n.toNat := UInt32.toNat_sub_of_le _ _ hle
  rw [UInt32.toNat_shiftRight, hrest, Nat.shiftRight_eq_div_pow, Nat.mod_eq_of_lt (by omega)]

/-- What is shifted out of a word has room at the low end of the next one. -/
theorem shifted_out_lt (hpos : 0 < n.toNat) (hn : n.toNat < 32) (u : UInt32) :
    (u >>> (32 - n)).toNat < 2 ^ n.toNat := by
  rw [toNat_shifted_out hpos hn]
  apply Nat.div_lt_of_lt_mul
  rw [← pow_add, Nat.sub_add_cancel hn.le]
  exact u.toNat_lt

/-- The bits of a word are kept: in its place, above those shifted in, or shifted out. -/
theorem shift_step {carry : UInt32} (hpos : 0 < n.toNat) (hn : n.toNat < 32)
    (hcarry : carry.toNat < 2 ^ n.toNat) (u : UInt32) :
    (u <<< n ||| carry).toNat + 2 ^ 32 * (u >>> (32 - n)).toNat =
      u.toNat * 2 ^ n.toNat + carry.toNat := by
  have hpow : 2 ^ 32 = 2 ^ (32 - n.toNat) * 2 ^ n.toNat := by
    rw [← pow_add, Nat.sub_add_cancel hn.le]
  have hbits := Nat.mod_add_div u.toNat (2 ^ (32 - n.toNat))
  rw [UInt32.toNat_or, toNat_shifted_in hn, toNat_shifted_out hpos hn,
    ← Nat.shiftLeft_add_eq_or_of_lt hcarry, Nat.shiftLeft_eq, hpow]
  generalize 2 ^ (32 - n.toNat) = m at hbits ⊢
  calc u.toNat % m * 2 ^ n.toNat + carry.toNat + m * 2 ^ n.toNat * (u.toNat / m)
      = (u.toNat % m + m * (u.toNat / m)) * 2 ^ n.toNat + carry.toNat := by ring
    _ = u.toNat * 2 ^ n.toNat + carry.toNat := by rw [hbits]

theorem toNat_shiftBits {carry : UInt32} (hpos : 0 < n.toNat) (hn : n.toNat < 32)
    (hcarry : carry.toNat < 2 ^ n.toNat) (a : Magnitude) :
    toNat (shiftBits n carry a) = toNat a * 2 ^ n.toNat + carry.toNat := by
  induction a generalizing carry with
  | nil => simp [shiftBits, toNat]
  | cons u us ih =>
    have hstep := shift_step hpos hn hcarry u
    rw [shiftBits, toNat_cons, ih (shifted_out_lt hpos hn u), toNat_cons]
    linarith

end Bits

/-- Whether or not bits are left after whole words, a shift by `n` multiplies by `2 ^ n`. -/
theorem toNat_shiftLeft (a : Magnitude) (n : ℕ) : toNat (a.shiftLeft n) = toNat a * 2 ^ n := by
  have hpow : 2 ^ n = 2 ^ (32 * (n / 32)) * 2 ^ (n % 32) := by
    rw [← pow_add, Nat.div_add_mod]
  rw [shiftLeft, toNat_zeros_append, hpow]
  split
  · rename_i hwhole
    rw [toNat_append, toNat_singleton, hwhole]
    simp [Nat.mul_comm]
  · rename_i hrest
    have hbits : (n % 32).toUInt32.toNat = n % 32 := by
      rw [Nat.toUInt32_eq, UInt32.toNat_ofNat']
      omega
    rw [toNat_shiftBits (by omega) (by omega) (by simp), hbits, UInt32.toNat_zero]
    ring

end Magnitude

namespace Integer

variable {x : Integer}

theorem Normalized.sign_toInt (hx : x.Normalized) : x.toInt.sign = x.sign.toInt := by
  have hpos := hx.mag_pos
  unfold toInt
  cases hs : x.sign with
  | zero => simp [Sign.toInt]
  | positive =>
    have hmag : 0 < x.mag.toNat := hpos (by simp [hs])
    simp [Sign.toInt, Int.sign_eq_one_iff_pos, hmag]
  | negative =>
    have hmag : 0 < x.mag.toNat := hpos (by simp [hs])
    simp [Sign.toInt, Int.sign_eq_one_iff_pos, hmag]

/-- A sign can be taken out of a truncated quotient. -/
theorem sign_toInt_mul_tdiv (s : Sign) (m n : ℕ) :
    (s.toInt * m).tdiv n = s.toInt * ((m / n : ℕ) : ℤ) := by
  cases s with
  | zero => simp [Sign.toInt]
  | positive => simp [Sign.toInt, Int.tdiv_eq_ediv_of_nonneg]
  | negative => simp [Sign.toInt, Int.tdiv_eq_ediv_of_nonneg]

theorem toInt_shiftLeft (x : Integer) (n : ℕ) : (x.shiftLeft n).toInt = x.toInt * 2 ^ n := by
  unfold shiftLeft
  split
  · rename_i h
    rw [Bool.or_eq_true, decide_eq_true_iff, decide_eq_true_iff] at h
    rcases h with hs | rfl
    · rw [toInt_of_zero hs, zero_mul]
    · rw [pow_zero, mul_one]
  · rw [toInt_ofWords, Magnitude.toNat_shiftLeft, toInt]
    push_cast
    ring

/-- The quotient of an integer by a word is found and truncated, and the remainder is the absolute
value of what is left. -/
theorem exists_divWord (hx : x.Normalized) {d : UInt32} (hd : d ≠ 0) :
    ∃ q r, x.divWord d = .ok (q, r) ∧ q.Normalized ∧ r.toNat < d.toNat ∧
      q.toInt = x.toInt.tdiv d.toNat ∧ x.toInt = q.toInt * d.toNat + x.toInt.sign * r.toNat := by
  have hdiv : x.divWord d = .ok (ofWords x.sign (x.mag.divWord d).1, (x.mag.divWord d).2) :=
    if_neg hd
  refine ⟨_, _, hdiv, normalized_divWord hx hdiv, Magnitude.remainder_lt hd x.mag, ?_, ?_⟩
  · rw [toInt_ofWords, (Magnitude.divWord_eq hd x.mag).1, toInt, sign_toInt_mul_tdiv]
  · rw [toInt_ofWords, hx.sign_toInt, toInt, ← Magnitude.toNat_divWord hd x.mag]
    push_cast
    ring

/-- Short division truncates toward zero, with a remainder less than the divisor and no word of the
quotient too large for its place; a shift by `n` multiplies by `2 ^ n`. -/
theorem divWord_shiftLeft_exact (hx : x.Normalized) {d : UInt32} (hd : d ≠ 0) (n : ℕ) :
    (∃ q r, x.divWord d = .ok (q, r) ∧ q.Normalized ∧ r.toNat < d.toNat ∧
      q.toInt = x.toInt.tdiv d.toNat ∧ x.toInt = q.toInt * d.toNat + x.toInt.sign * r.toNat) ∧
    (∀ low a high, x.mag = low ++ a :: high →
      (((Magnitude.divWord d high).2.toUInt64 <<< 32 ||| a.toUInt64) / d.toUInt64).toNat <
        2 ^ 32) ∧
    (x.shiftLeft n).Normalized ∧ (x.shiftLeft n).toInt = x.toInt * 2 ^ n := by
  refine ⟨exists_divWord hx hd, ?_, normalized_shiftLeft hx n, toInt_shiftLeft x n⟩
  intro low a high _
  exact Magnitude.quotient_lt (Magnitude.remainder_lt hd high) a

/-- The largest words, divided by the largest word and shifted by words and bits. -/
theorem divWord_shiftLeft_exact_largest :
    Normalized ⟨.negative, [4294967295, 4294967294, 4294967295]⟩ ∧ (4294967295 : UInt32) ≠ 0 ∧
    (∃ q r, divWord ⟨.negative, [4294967295, 4294967294, 4294967295]⟩ 4294967295 = .ok (q, r) ∧
      r.toNat < 4294967295 ∧
      toInt ⟨.negative, [4294967295, 4294967294, 4294967295]⟩ = q.toInt * 4294967295 - r.toNat) ∧
    toInt (shiftLeft ⟨.negative, [4294967295, 4294967294, 4294967295]⟩ 77) =
      toInt ⟨.negative, [4294967295, 4294967294, 4294967295]⟩ * 2 ^ 77 := by
  have hx : Normalized ⟨.negative, [4294967295, 4294967294, 4294967295]⟩ := by decide
  have hd : (4294967295 : UInt32) ≠ 0 := by decide
  obtain ⟨⟨q, r, hdiv, -, hlt, -, hvalue⟩, -, -, hshift⟩ := divWord_shiftLeft_exact hx hd 77
  refine ⟨hx, hd, ⟨q, r, hdiv, hlt, ?_⟩, hshift⟩
  rw [hx.sign_toInt] at hvalue
  rw [hvalue]
  simp [Sign.toInt, sub_eq_add_neg]

end Integer

end Numerals
