import Numerals.Proofs.Layout.Grammar
import Numerals.Proofs.Layout.Precision

/-!
# Places after the point

Digits that do not begin with 0 keep this when they are rounded, and there is a carry out of the
first one exactly if they are rounded up to a power of the base. So the fixed layout with a
precision `p` has no needless zero at the front. Main statement: it has `p` places after the point
and denotes the multiple of the unit of the last place that is nearest to the number.

A layout is made only if there is room for all digits, with the zeros between the point and the
first of them.
-/

namespace Numerals

namespace Text

/-- `cs` has digits in base `b`, of which a zero at the front stands alone, and `p` further digits
after a point, which is left out if there are none. -/
def HasPlaces (b p : ℕ) (cs : List Char) : Prop :=
  ∃ whole part, IsDigits b whole ∧ (whole.head? = some '0' → whole = ['0']) ∧ part.length = p ∧
    (∀ c ∈ part, isDigit b c) ∧ cs = whole ++ if p = 0 then [] else '.' :: part

end Text

namespace Layout

open Text (HasPlaces digitText)
open Digits (chars)

variable {b : ℕ} {ds : List UInt8} {k : ℤ}

/-! ## The first digit -/

theorem number_lt_of_head (h : ∀ d ∈ ds, d.toNat < b) (hhead : ds.head? = some 0) :
    number b ds < b ^ (ds.length - 1) := by
  cases ds with
  | nil => cases hhead
  | cons d ds =>
    obtain rfl : d = 0 := Option.some_inj.mp hhead
    rw [number_cons, UInt8.toNat_zero, Nat.zero_mul, Nat.zero_add]
    exact number_lt (List.forall_mem_cons.mp h).2

theorem pow_le_number (hne : ds ≠ []) (hhead : ds.head? ≠ some 0) :
    b ^ (ds.length - 1) ≤ number b ds := by
  cases ds with
  | nil => exact absurd rfl hne
  | cons d ds =>
    have hd : 0 < d.toNat := by
      rw [Nat.pos_iff_ne_zero]
      intro hzero
      exact hhead (congrArg some (UInt8.toNat_inj.mp hzero))
    rw [number_cons]
    exact le_add_right (Nat.le_mul_of_pos_left _ hd)

/-- Digits are rounded to the next power of the base at most. -/
theorem le_pow_of_isHalfEven (hb : 2 ≤ b) (h : ∀ d ∈ ds, d.toNat < b) {m n : ℕ}
    (hround : IsHalfEven m (number b ds * (b : ℚ) ^ ((n : ℤ) - ds.length))) : m ≤ b ^ n := by
  have hbq : (b : ℚ) ≠ 0 := by exact_mod_cast (by omega : b ≠ 0)
  have hlt : (number b ds : ℚ) ≤ (b : ℚ) ^ ds.length := by exact_mod_cast (number_lt h).le
  apply hround.le_of_le (isHalfEven_natCast (b ^ n))
  calc number b ds * (b : ℚ) ^ ((n : ℤ) - ds.length)
      ≤ (b : ℚ) ^ ds.length * (b : ℚ) ^ ((n : ℤ) - ds.length) := by gcongr
    _ = ((b ^ n : ℕ) : ℚ) := by
      rw [← zpow_natCast, ← zpow_add₀ hbq, add_sub_cancel, zpow_natCast, Nat.cast_pow]

/-- A carry is written as a digit 1. -/
theorem head_roundTo_of_carry {base : ℤ} {n : ℕ} (hcarry : (roundTo base n ds).1 = 1) :
    (roundTo base n ds).2.head? = some 1 := by
  revert hcarry
  unfold roundTo
  split_ifs
  · intro hcarry
    cases hcarry
  · generalize increment base (ds.take n) = r
    rcases r with ⟨_ | _, out⟩
    · intro hcarry
      cases hcarry
    · intro _
      rfl
  · intro hcarry
    cases hcarry

/-- Rounding carries out of the first digit exactly if it gives a power of the base. -/
theorem carry_iff_of_isHalfEven (hb : 2 ≤ b) (h : ∀ d ∈ ds, d.toNat < b) {n : ℕ}
    (hlen : (roundTo b n ds).2.length = n + (roundTo b n ds).1) (hcarry : (roundTo b n ds).1 ≤ 1)
    (hround : IsHalfEven (number b (roundTo b n ds).2)
      (number b ds * (b : ℚ) ^ ((n : ℤ) - ds.length))) :
    (roundTo b n ds).1 = 1 ↔ number b (roundTo b n ds).2 = b ^ n := by
  constructor
  · intro hone
    have hhead := head_roundTo_of_carry hone
    have hne : (roundTo b n ds).2 ≠ [] := by
      intro hnil
      rw [hnil] at hhead
      cases hhead
    have hge := pow_le_number (b := b) hne (by rw [hhead]; decide)
    rw [hlen, hone, Nat.add_sub_cancel] at hge
    exact le_antisymm (le_pow_of_isHalfEven hb h hround) hge
  · intro hpow
    by_contra hnot
    have hlt := number_lt (roundTo_lt hb h n)
    rw [hlen, show (roundTo b n ds).1 = 0 by omega, Nat.add_zero] at hlt
    omega

section Rounded

variable (hb : 2 ≤ b) (hb' : b < 256) (h : ∀ d ∈ ds, d.toNat < b)
include hb hb' h

theorem pow_le_number_roundTo (hne : ds ≠ []) (hhead : ds.head? ≠ some 0) (n : ℕ) :
    b ^ n ≤ number b (roundTo b (n + 1) ds).2 := by
  have hbq : (b : ℚ) ≠ 0 := by exact_mod_cast (by omega : b ≠ 0)
  rcases roundTo_isHalfEven hb hb' h (n + 1) with ⟨-, -, hround⟩
  have hlen := List.length_pos_iff.mpr hne
  have hle : (b : ℚ) ^ (ds.length - 1) ≤ number b ds := by exact_mod_cast pow_le_number hne hhead
  apply (isHalfEven_natCast (b ^ n)).le_of_le hround
  calc ((b ^ n : ℕ) : ℚ)
      = (b : ℚ) ^ (ds.length - 1) * (b : ℚ) ^ (((n + 1 : ℕ) : ℤ) - ds.length) := by
        rw [← zpow_natCast, ← zpow_add₀ hbq, Nat.cast_pow, ← zpow_natCast]
        congr 1
        omega
    _ ≤ number b ds * (b : ℚ) ^ (((n + 1 : ℕ) : ℤ) - ds.length) := by gcongr

theorem roundTo_carry_iff (n : ℕ) :
    (roundTo b n ds).1 = 1 ↔ number b (roundTo b n ds).2 = b ^ n := by
  rcases roundTo_isHalfEven hb hb' h n with ⟨hlen, hcarry, hround⟩
  exact carry_iff_of_isHalfEven hb h hlen hcarry hround

/-- Digits that do not begin with 0 are rounded to such digits. -/
theorem head_roundTo (hne : ds ≠ []) (hhead : ds.head? ≠ some 0) (n : ℕ) :
    (roundTo b (n + 1) ds).2.head? ≠ some 0 := by
  rcases roundTo_isHalfEven hb hb' h (n + 1) with ⟨hlen, hcarry, -⟩
  intro hzero
  have hlt := number_lt_of_head (roundTo_lt hb h (n + 1)) hzero
  have hge := pow_le_number_roundTo hb hb' h hne hhead n
  by_cases hone : (roundTo b (n + 1) ds).1 = 1
  · rw [head_roundTo_of_carry hone] at hzero
    exact absurd hzero (by decide)
  · rw [hlen, show (roundTo b (n + 1) ds).1 = 0 by omega, Nat.add_zero, Nat.add_sub_cancel] at hlt
    omega

end Rounded

/-! ## The layout -/

theorem fraction_of_length {p : ℕ} (hlen : ds.length = p) :
    fraction ds = if p = 0 then [] else '.' :: chars ds := by
  subst hlen
  unfold fraction
  simp only [List.isEmpty_iff, List.length_eq_zero_iff]

theorem isDigit_chars (hb : b ≤ 36) (h : ∀ d ∈ ds, d.toNat < b) :
    ∀ c ∈ chars ds, Text.isDigit b c := by
  rw [chars_eq]
  exact Text.all_isDigit_digitText hb (List.forall_mem_map.mpr h)

/-- A zero comes first only if no digit is before the point. -/
theorem fixedRounded_hasPlaces (hb : 2 ≤ b) (hb' : b ≤ 36) (h : DigitsBelow b ds)
    (hhead : ds.head? = some 0 → ds = [0] ∧ k = 0) (p : ℕ) :
    HasPlaces b p (fixedRounded b ds k p) := by
  rcases fixedRounded_eq_take_drop hb (by omega) h k p
    with ⟨out, n, hn, hlen, hlt, -, hwhole, htext⟩
  obtain ⟨d, es, rfl⟩ := List.exists_cons_of_length_pos (show 0 < out.length by omega)
  have hd : d.toNat < b := hlt d List.mem_cons_self
  have htake : ∀ c ∈ (d :: es).take n, c.toNat < b := fun c hc => hlt c (List.mem_of_mem_take hc)
  have hdrop : ∀ c ∈ (d :: es).drop n, c.toNat < b := fun c hc => hlt c (List.mem_of_mem_drop hc)
  have hpart : ((d :: es).drop n).length = p := by
    rw [List.length_drop, hlen]
    omega
  obtain ⟨n, rfl⟩ : ∃ m, n = m + 1 := ⟨n - 1, by omega⟩
  refine ⟨chars ((d :: es).take (n + 1)), chars ((d :: es).drop (n + 1)), ⟨by simp [chars], ?_⟩, ?_,
    ?_, isDigit_chars hb' hdrop, ?_⟩
  · exact isDigit_chars hb' htake
  · intro hzero
    have hd0 : d = 0 := by
      refine UInt8.toNat_inj.mp (digitChar_eq_zero d.toNat (hd.trans_le hb') ?_)
      exact Option.some_inj.mp hzero
    by_cases hone : n = 0
    · rw [hone, hd0]
      rfl
    · -- the digits before the point begin with those of the number, which are not zero
      exfalso
      rcases hwhole (by omega) with ⟨hk, hout⟩
      have hfirst : ds.head? ≠ some 0 := by
        intro hzero
        have := (hhead hzero).2
        omega
      obtain ⟨i, hi⟩ : ∃ i, p + k.toNat = i + 1 := ⟨p + k.toNat - 1, by omega⟩
      have hpad : fixedDigits b ds k p = roundTo b (i + 1) ds := by
        unfold fixedDigits
        rw [hi, show (-k).toNat = 0 by omega]
        rfl
      apply head_roundTo hb (by omega) h.toNat_lt h.ne_nil hfirst i
      rw [← hpad, ← hout, hd0]
      rfl
  · rw [chars, List.length_map]
    exact hpart
  · rw [htext, fraction_of_length hpart]

/-! ## What the text denotes -/

/-- The fixed text of digits with `p` places after the point is there exactly if there is room for
all digits. It has these places and denotes the multiple of `b ^ (-p)` nearest to the number that
the digits stand for, which is an even multiple if two are equally near. -/
theorem render_fixed_nearest (b : Radix) (ds : List UInt8) (k : ℤ) (hne : ds ≠ [])
    (hlt : ∀ d ∈ ds, d.toNat < b.val) (hhead : ds.head? = some 0 → ds = [0] ∧ k = 0) (p : ℕ)
    (negative : Bool) :
    (HasRoom ⟨ds, k, b.val⟩ p →
      ∃ cs m, Digits.render ⟨ds, k, b.val⟩ negative ⟨.fixed, p⟩ = .ok (signed negative cs) ∧
        HasPlaces b.val p cs ∧
        IsNearestMultiple ((b.val : ℚ) ^ (-(p : ℤ))) (Digits.value ⟨ds, k, b.val⟩) m ∧
        Text.fixedValue? b.val (signed negative cs) =
          some (Text.signedRat negative (m * (b.val : ℚ) ^ (-(p : ℤ))))) ∧
    (¬HasRoom ⟨ds, k, b.val⟩ p →
      ∃ n, Digits.render ⟨ds, k, b.val⟩ negative ⟨.fixed, p⟩ =
        .error (.raised (.listTooLong n))) := by
  have h : DigitsBelow b.val ds := ⟨Scale.radix_pos b, hne, List.forall_mem_map.mpr hlt⟩
  have hunit : (0 : ℚ) < (b.val : ℚ) ^ (-(p : ℤ)) := zpow_pos (Scale.radix_pos_rat b) _
  have hp : (0 : ℤ) ≤ p := Int.natCast_nonneg p
  have hb := b.two_le
  have hb' := b.le_max
  rw [render_eq_map_fixed h negative rfl]
  constructor
  · intro hroom
    rcases fixedDigits_isHalfEven hb (by omega) h k p with ⟨-, -, -, hround⟩
    have hfixed := fixedRounded_isFixed hb (by omega) h k p
    refine ⟨fixedRounded b.val ds k p, number b.val (fixedDigits b.val ds k p).2, ?_,
      fixedRounded_hasPlaces hb hb' h hhead p, ?_, ?_⟩
    · rw [fixed_eq_rounded hb hb' rfl h hp hroom]
      rfl
    · apply IsHalfEven.isNearestMultiple hunit
      rwa [zpow_neg, div_inv_eq_mul, zpow_natCast]
    · rw [hfixed.fixedValue? hb' negative, zpow_neg, zpow_natCast, ← div_eq_mul_inv]
  · intro hroom
    rcases fixed_eq_error hp hroom with ⟨n, hn⟩
    rw [hn]
    exact ⟨n, rfl⟩

/-- A carry that makes 99.9 one digit longer, the tie of 2.5, and the tie of 0.05. -/
theorem render_fixed_nearest_ties :
    (∃ cs m, Digits.render ⟨[9, 9, 9], 2, 10⟩ true ⟨.fixed, 0⟩ = .ok (signed true cs) ∧
      HasPlaces 10 0 cs ∧ IsNearestMultiple (10 ^ (-0 : ℤ)) (Digits.value ⟨[9, 9, 9], 2, 10⟩) m ∧
      Text.fixedValue? 10 (signed true cs) = some (Text.signedRat true (m * 10 ^ (-0 : ℤ)))) ∧
    Digits.render ⟨[9, 9, 9], 2, 10⟩ true ⟨.fixed, 0⟩ = .ok "-100" ∧
    Digits.render ⟨[2, 5], 1, 10⟩ false ⟨.fixed, 0⟩ = .ok "2" ∧
    (∃ cs m, Digits.render ⟨[5], -1, 10⟩ false ⟨.fixed, 1⟩ = .ok (signed false cs) ∧
      HasPlaces 10 1 cs ∧ IsNearestMultiple (10 ^ (-1 : ℤ)) (Digits.value ⟨[5], -1, 10⟩) m ∧
      Text.fixedValue? 10 (signed false cs) = some (Text.signedRat false (m * 10 ^ (-1 : ℤ)))) ∧
    Digits.render ⟨[5], -1, 10⟩ false ⟨.fixed, 1⟩ = .ok "0.0" := by
  have hnines : ∀ d ∈ [9, 9, 9], UInt8.toNat d < Radix.ten.val := by simp [Radix.ten]
  have hfive : ∀ d ∈ [5], UInt8.toNat d < Radix.ten.val := by simp [Radix.ten]
  have hcarry := (render_fixed_nearest .ten [9, 9, 9] 2 (by decide) hnines (by decide) 0 true).1
    ⟨by decide, by decide⟩
  have htie := (render_fixed_nearest .ten [5] (-1) (by decide) hfive (by decide) 1 false).1
    ⟨by decide, by decide⟩
  exact ⟨hcarry, by decide +kernel, by decide +kernel, htie, by decide +kernel⟩

/-- With the least long word as the exponent there are no zeros to put before the digits, although
the number would be written as 0. -/
theorem render_fixed_least_crashes :
    Digits.render ⟨[1], LongWord.least, 10⟩ false ⟨.fixed, 0⟩ =
        .error (.raised (.listTooLong 9223372036854775809)) ∧
      IsNearestMultiple (10 ^ (-0 : ℤ)) (Digits.value ⟨[1], LongWord.least, 10⟩) 0 ∧
      HasPlaces 10 0 ['0'] ∧ Text.fixedValue? 10 "0" = some 0 := by
  have hlow : 0 ≤ Digits.value ⟨[1], LongWord.least, 10⟩ :=
    mul_nonneg (show 0 ≤ properFraction 10 [1] by norm_num [properFraction])
      (zpow_nonneg (by norm_num) _)
  have hhigh := value_least_lt
  have hzero : IsHalfEven 0 (Digits.value ⟨[1], LongWord.least, 10⟩) :=
    mem_interval_of_lt (by norm_num; linarith) (by norm_num; linarith)
  refine ⟨by decide +kernel, ?_, ?_, by decide +kernel⟩
  · apply IsHalfEven.isNearestMultiple (by norm_num)
    rwa [neg_zero, zpow_zero, div_one]
  · have hdigit : Text.isDigit 10 '0' := by decide
    exact ⟨['0'], [], ⟨by simp, List.forall_mem_singleton.mpr hdigit⟩, fun _ => rfl, rfl, by simp,
      rfl⟩

end Layout

end Numerals
