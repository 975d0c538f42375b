import Numerals.Proofs.Layout.Places

/-!
# Significant digits

With a precision `p` the scientific layout writes the first `p + 1` digits of a number, rounded half
to even. If rounding carries out of the first digit, these are one digit more, of which the last is
zero: it is dropped, and the exponent is raised. Main statement: the text denotes the number rounded
to `p + 1` significant digits, with the exponent raised exactly if there is a carry.

The exponent in the text is a long word. The least one has no predecessor, so that digits with this
exponent need the carry.
-/

namespace Numerals

namespace Text

/-- `cs` has one digit other than 0 in base `b`, `p` further digits after a point, which is left out
if there are none, and the exponent `e` in decimal. -/
def HasSignificant (b p : ℕ) (e : ℤ) (cs : List Char) : Prop :=
  ∃ first part, isDigit b first ∧ first ≠ '0' ∧ part.length = p ∧ (∀ c ∈ part, isDigit b c) ∧
    cs = first :: ((if p = 0 then [] else '.' :: part) ++ 'e' :: decimalInt e)

end Text

namespace Layout

open Text (HasSignificant digitText pointText)
open Digits (chars)

variable {b : ℕ} {ds : List UInt8} {k : ℤ}

/-! ## The digits that are written -/

/-- The digits that the scientific layout writes. -/
def significantDigits (base : ℤ) (ds : List UInt8) (p : ℕ) : List UInt8 :=
  let r := roundTo base (p + 1) ds
  if 0 < r.1 then r.2.dropLast else r.2

/-- The last digit of a multiple of the base can be dropped. -/
theorem number_dropLast_mul (h : ∀ d ∈ ds, d.toNat < b) (hne : ds ≠ []) (hdvd : b ∣ number b ds) :
    number b ds.dropLast * b = number b ds := by
  have hsplit := number_append (b := b) ds.dropLast [ds.getLast hne]
  have hlast : number b [ds.getLast hne] = (ds.getLast hne).toNat := by
    rw [number_cons, List.length_nil, pow_zero, Nat.mul_one]
    rfl
  rw [List.dropLast_append_getLast, List.length_singleton, pow_one, hlast] at hsplit
  have hzero : (ds.getLast hne).toNat = 0 := by
    apply Nat.eq_zero_of_dvd_of_lt _ (h _ (List.getLast_mem hne))
    rw [hsplit] at hdvd
    exact (Nat.dvd_add_right (Nat.dvd_mul_left b _)).mp hdvd
  rw [hsplit, hzero, Nat.add_zero]

/-- The digits written are `p + 1`, do not begin with 0, and stand for the rounded number without
the zero that a carry puts at its end. -/
theorem significantDigits_spec (hb : 2 ≤ b) (hb' : b < 256) (h : ∀ d ∈ ds, d.toNat < b)
    (hne : ds ≠ []) (hhead : ds.head? ≠ some 0) (p : ℕ) :
    (significantDigits b ds p).length = p + 1 ∧ (∀ d ∈ significantDigits b ds p, d.toNat < b) ∧
      (significantDigits b ds p).head? ≠ some 0 ∧
      number b (significantDigits b ds p) * b ^ (roundTo b (p + 1) ds).1 =
        number b (roundTo b (p + 1) ds).2 := by
  rcases roundTo_isHalfEven hb hb' h (p + 1) with ⟨hlen, hcarry, -⟩
  have hlt := roundTo_lt hb h (p + 1)
  unfold significantDigits
  dsimp only
  split_ifs with hpos
  · -- a carry gives a power of the base, whose last digit is 0
    have hone : (roundTo b (p + 1) ds).1 = 1 := by omega
    have hpow := (roundTo_carry_iff hb hb' h (p + 1)).mp hone
    have hfirst := head_roundTo_of_carry hone
    generalize roundTo b (p + 1) ds = r at *
    obtain ⟨d, es, hout⟩ := List.exists_cons_of_length_pos (show 0 < r.2.length by omega)
    refine ⟨?_, fun d hd => hlt d (List.mem_of_mem_dropLast hd), ?_, ?_⟩
    · rw [List.length_dropLast]
      omega
    · rw [List.head?_dropLast, if_pos (by omega), hfirst]
      decide
    · rw [hone, pow_one]
      apply number_dropLast_mul hlt (by simp [hout])
      rw [hpow]
      exact dvd_pow_self b (Nat.succ_ne_zero p)
  · have hzero : (roundTo b (p + 1) ds).1 = 0 := by omega
    rw [hzero] at hlen ⊢
    exact ⟨hlen, hlt, head_roundTo hb hb' h hne hhead p, by rw [pow_zero, Nat.mul_one]⟩

/-! ## The layout -/

theorem scientificRounded_eq (hnonzero : ds ≠ [0]) (p : ℕ)
    (hlen : (significantDigits b ds p).length = p + 1) :
    scientificRounded ⟨ds, k, b⟩ p =
      chars ((significantDigits b ds p).take 1) ++ fraction ((significantDigits b ds p).drop 1) ++
        'e' :: Text.decimalInt (LongWord.wrap (k - 1 + (roundTo b (p + 1) ds).1)) := by
  have hzero : ¬(Digits.mk ds k b).isZero := by simpa [Digits.isZero] using hnonzero
  have hrest : ((significantDigits b ds p).drop 1).length = p := by
    rw [List.length_drop, hlen, Nat.add_sub_cancel]
  rw [fraction_of_length hrest]
  unfold scientificRounded
  rw [if_neg hzero]
  cases p with
  | zero => rfl
  | succ p => rfl

theorem scientificRounded_hasSignificant (hb : 2 ≤ b) (hb' : b ≤ 36) (h : DigitsBelow b ds)
    (hhead : ds.head? ≠ some 0) (p : ℕ) :
    HasSignificant b p (LongWord.wrap (k - 1 + (roundTo b (p + 1) ds).1))
      (scientificRounded ⟨ds, k, b⟩ p) := by
  rcases significantDigits_spec hb (by omega) h.toNat_lt h.ne_nil hhead p with ⟨hlen, hlt, hfirst, -⟩
  rw [scientificRounded_eq (by rintro rfl; exact hhead rfl) p hlen]
  generalize significantDigits b ds p = out at hlen hlt hfirst
  cases out with
  | nil => cases hlen
  | cons d es =>
    rcases List.forall_mem_cons.mp hlt with ⟨hd, hes⟩
    have hlen' : es.length = p := Nat.succ.inj hlen
    refine ⟨Text.digitChar d.toNat, chars es, Text.isDigit_digitChar hb' hd, ?_, ?_,
      isDigit_chars hb' hes, ?_⟩
    · intro hzero
      have hd0 := digitChar_eq_zero d.toNat (hd.trans_le hb') hzero
      exact hfirst (congrArg some (UInt8.toNat_inj.mp hd0))
    · rw [chars, List.length_map, hlen']
    · rw [List.drop_succ_cons, List.drop_zero, fraction_of_length hlen']
      rfl

/-- The digits with the exponent of the text denote the rounded number. -/
theorem scientificRounded_laid (hb : 2 ≤ b) (hb' : b < 256) (h : DigitsBelow b ds)
    (hhead : ds.head? ≠ some 0) (p : ℕ) {e : ℤ} (he : e = k - 1 + (roundTo b (p + 1) ds).1)
    (hwrap : LongWord.wrap e = e) :
    Laid b (scientificRounded ⟨ds, k, b⟩ p) ('e' :: Text.decimalInt e) e
      (number b (roundTo b (p + 1) ds).2 * (b : ℚ) ^ (k - (p + 1))) := by
  have hbq : (b : ℚ) ≠ 0 := by exact_mod_cast h.pos.ne'
  rcases significantDigits_spec hb hb' h.toNat_lt h.ne_nil hhead p with ⟨hlen, hlt, -, hnumber⟩
  rw [scientificRounded_eq (by rintro rfl; exact hhead rfl) p hlen, ← he, hwrap, ← hnumber]
  generalize significantDigits b ds p = out at hlen hlt
  have hlt' : ∀ d ∈ out.map UInt8.toNat, d < b := List.forall_mem_map.mpr hlt
  refine ⟨(out.map UInt8.toNat).take 1, (out.map UInt8.toNat).drop 1, ?_,
    fun d hd => hlt' d (List.mem_of_mem_take hd),
    fun d hd => hlt' d (List.mem_of_mem_drop hd), ?_, ?_⟩
  · rw [ne_eq, List.take_eq_nil_iff, not_or, ← List.length_eq_zero_iff, List.length_map]
    omega
  · rw [chars_eq, fraction_eq, List.map_take, List.map_drop]
  · rw [Text.numeralValue, List.take_append_drop, List.length_drop, List.length_map, hlen]
    push_cast
    rw [mul_assoc, ← zpow_natCast (b : ℚ) (roundTo b (p + 1) ds).1, ← zpow_add₀ hbq]
    congr 2
    rw [he]
    omega

/-! ## Rounding to significant digits -/

/-- The exponent of digits that do not begin with 0 is that of the number: it lies from one power of
the base to the next. -/
theorem value_bounds (h : DigitsBelow b ds) (hhead : ds.head? ≠ some 0) (k : ℤ) :
    (b : ℚ) ^ (k - 1) ≤ Digits.value ⟨ds, k, b⟩ ∧ Digits.value ⟨ds, k, b⟩ < (b : ℚ) ^ k := by
  have hbq : (0 : ℚ) < b := by exact_mod_cast h.pos
  have hlen := List.length_pos_iff.mpr h.ne_nil
  have hlow : (b : ℚ) ^ (ds.length - 1) ≤ number b ds := by
    exact_mod_cast pow_le_number h.ne_nil hhead
  have hhigh : (number b ds : ℚ) < (b : ℚ) ^ ds.length := by exact_mod_cast number_lt h.toNat_lt
  have hunit : (0 : ℚ) < (b : ℚ) ^ (k - ds.length) := zpow_pos hbq _
  rw [value_eq_number h.pos]
  constructor
  · calc (b : ℚ) ^ (k - 1) = (b : ℚ) ^ (ds.length - 1) * (b : ℚ) ^ (k - ds.length) := by
          rw [← zpow_natCast, ← zpow_add₀ hbq.ne']
          congr 1
          omega
      _ ≤ number b ds * (b : ℚ) ^ (k - ds.length) := mul_le_mul_of_nonneg_right hlow hunit.le
  · calc number b ds * (b : ℚ) ^ (k - ds.length)
        < (b : ℚ) ^ ds.length * (b : ℚ) ^ (k - ds.length) := mul_lt_mul_of_pos_right hhigh hunit
      _ = (b : ℚ) ^ k := by rw [← zpow_natCast, ← zpow_add₀ hbq.ne', add_sub_cancel]

/-- The digits kept are the nearest multiple of the unit of the last of them. -/
theorem roundTo_isNearestMultiple (hb : 2 ≤ b) (hb' : b < 256) (h : DigitsBelow b ds) (k : ℤ)
    (n : ℕ) :
    IsNearestMultiple ((b : ℚ) ^ (k - n)) (Digits.value ⟨ds, k, b⟩)
      (number b (roundTo b n ds).2) := by
  have hbq : (0 : ℚ) < b := by exact_mod_cast h.pos
  rcases roundTo_isHalfEven hb hb' h.toNat_lt n with ⟨-, -, hround⟩
  apply IsHalfEven.isNearestMultiple (zpow_pos hbq _)
  have hvalue : Digits.value ⟨ds, k, b⟩ / (b : ℚ) ^ (k - n) =
      number b ds * (b : ℚ) ^ ((n : ℤ) - ds.length) := by
    rw [value_eq_number h.pos, mul_div_assoc, ← zpow_sub₀ hbq.ne']
    congr 2
    omega
  rwa [hvalue]

/-! ## What the text denotes -/

/-- The scientific text of digits that do not begin with 0 is there exactly if there is room for
`p + 1` digits and a carry. It has `p + 1` digits, of which the first is not 0. They are those of the
nearest number with so many significant digits, which has an even last place if two are equally
near. The exponent is raised exactly if rounding gives a power of the base, and as long as it is a
long word the text denotes the rounded number. -/
theorem render_scientific_nearest (b : Radix) (ds : List UInt8) (k : ℤ) (hne : ds ≠ [])
    (hlt : ∀ d ∈ ds, d.toNat < b.val) (hhead : ds.head? ≠ some 0)
    (hk : k < 9223372036854775808) (p : ℕ) (negative : Bool) :
    (p + 2 ≤ maxLength →
      ∃ cs m e, Digits.render ⟨ds, k, b.val⟩ negative ⟨.scientific, p⟩ = .ok (signed negative cs) ∧
        HasSignificant b.val p (LongWord.wrap e) cs ∧
        (b.val : ℚ) ^ (k - 1) ≤ Digits.value ⟨ds, k, b.val⟩ ∧
        Digits.value ⟨ds, k, b.val⟩ < (b.val : ℚ) ^ k ∧
        IsNearestMultiple ((b.val : ℚ) ^ (k - (p + 1))) (Digits.value ⟨ds, k, b.val⟩) m ∧
        e = k - 1 + (if m = b.val ^ (p + 1) then 1 else 0) ∧
        (LongWord.least ≤ e → LongWord.wrap e = e ∧
          Text.exponentialValue? b.val (signed negative cs) =
            some (Text.signedRat negative (m * (b.val : ℚ) ^ (k - (p + 1)))))) ∧
    (maxLength < p + 2 →
      ∃ n, Digits.render ⟨ds, k, b.val⟩ negative ⟨.scientific, p⟩ =
        .error (.raised (.listTooLong n))) := by
  have h : DigitsBelow b.val ds := ⟨Scale.radix_pos b, hne, List.forall_mem_map.mpr hlt⟩
  have hb := b.two_le
  have hb' := b.le_max
  have hp : (0 : ℤ) ≤ p := Int.natCast_nonneg p
  have hnonzero : ds ≠ [0] := by
    rintro rfl
    exact hhead rfl
  rw [render_eq_map_scientific h negative rfl]
  constructor
  · intro hroom
    have htext : scientific ⟨ds, k, b.val⟩ p = .ok (scientificRounded ⟨ds, k, b.val⟩ p) :=
      scientific_eq_rounded hb hb' rfl h hp fun _ => by exact_mod_cast hroom
    have hcarry : ((roundTo b.val (p + 1) ds).1 : ℤ) =
        if number b.val (roundTo b.val (p + 1) ds).2 = b.val ^ (p + 1) then 1 else 0 := by
      -- there is a carry exactly if the rounded number is a power of the base
      have hle := (roundTo_isHalfEven hb (by omega) hlt (p + 1)).2.1
      have hiff := roundTo_carry_iff hb (by omega) hlt (p + 1)
      split_ifs with hpow
      · exact_mod_cast hiff.mpr hpow
      · rw [← hiff] at hpow
        omega
    have hnearest := roundTo_isNearestMultiple hb (by omega) h k (p + 1)
    rw [Nat.cast_add, Nat.cast_one] at hnearest
    refine ⟨scientificRounded ⟨ds, k, b.val⟩ p, number b.val (roundTo b.val (p + 1) ds).2, _, ?_,
      scientificRounded_hasSignificant hb hb' h hhead p, (value_bounds h hhead k).1,
      (value_bounds h hhead k).2, hnearest, by rw [hcarry], ?_⟩
    · rw [htext]
      rfl
    · intro hleast
      have hgreatest : k - 1 + (roundTo b.val (p + 1) ds).1 < 9223372036854775808 := by
        split_ifs at hcarry <;> omega
      have hwrap := LongWord.wrap_of_mem hleast hgreatest
      refine ⟨hwrap, ?_⟩
      exact (scientificRounded_laid hb (by omega) h hhead p rfl hwrap).exponentialValue? hb' h.pos
        (Text.not_mem_decimalInt _) (Text.readInt64?_decimal (Text.isInt64_of_mem hleast hgreatest))
        negative
  · intro hroom
    have hzero : (Digits.mk ds k b.val).isZero = false := by simpa [Digits.isZero] using hnonzero
    rcases scientific_eq_error hp hzero (by exact_mod_cast hroom) with ⟨n, hn⟩
    rw [hn]
    exact ⟨n, rfl⟩

/-- A carry out of the first digit of 9.996, and the ties of 2.5 and 0.95. In the odd base 3 the
middle between two digits is never reached: 2.2 is above it. -/
theorem render_scientific_nearest_carry :
    (∃ cs m e, Digits.render ⟨[9, 9, 9, 6], 1, 10⟩ true ⟨.scientific, 2⟩ = .ok (signed true cs) ∧
      HasSignificant 10 2 (LongWord.wrap e) cs ∧
      10 ^ (1 - 1 : ℤ) ≤ Digits.value ⟨[9, 9, 9, 6], 1, 10⟩ ∧
      Digits.value ⟨[9, 9, 9, 6], 1, 10⟩ < 10 ^ (1 : ℤ) ∧
      IsNearestMultiple (10 ^ (1 - (2 + 1) : ℤ)) (Digits.value ⟨[9, 9, 9, 6], 1, 10⟩) m ∧
      e = 1 - 1 + (if m = 10 ^ (2 + 1) then 1 else 0) ∧
      (LongWord.least ≤ e → LongWord.wrap e = e ∧
        Text.exponentialValue? 10 (signed true cs) =
          some (Text.signedRat true (m * 10 ^ (1 - (2 + 1) : ℤ))))) ∧
    Digits.render ⟨[9, 9, 9, 6], 1, 10⟩ true ⟨.scientific, 2⟩ = .ok "-1.00e1" ∧
    Digits.render ⟨[2, 5], 1, 10⟩ false ⟨.scientific, 0⟩ = .ok "2e0" ∧
    Digits.render ⟨[9, 5], 0, 10⟩ false ⟨.scientific, 0⟩ = .ok "1e0" ∧
    Digits.render ⟨[2, 2], 1, 3⟩ false ⟨.scientific, 0⟩ = .ok "1e1" := by
  have hlt : ∀ d ∈ [9, 9, 9, 6], UInt8.toNat d < Radix.ten.val := by simp [Radix.ten]
  have hcarry := (render_scientific_nearest .ten [9, 9, 9, 6] 1 (by decide) hlt (by decide)
    (by decide) 2 true).1 (by decide)
  exact ⟨hcarry, by decide +kernel, by decide +kernel, by decide +kernel, by decide +kernel⟩

/-- The least long word has no predecessor: without a carry the text of digits with this exponent
denotes a much greater number, although the digits are written out in full. -/
theorem render_scientific_least_wraps :
    Digits.render ⟨[1], LongWord.least, 10⟩ false ⟨.scientific, 1⟩ =
        .ok "1.0e9223372036854775807" ∧
      IsNearestMultiple (10 ^ (LongWord.least - (1 + 1)))
        (Digits.value ⟨[1], LongWord.least, 10⟩) 10 ∧
      ∃ q, Text.exponentialValue? 10 "1.0e9223372036854775807" = some q ∧
        Digits.value ⟨[1], LongWord.least, 10⟩ < q := by
  have hone : DigitsBelow 10 [1] :=
    ⟨by decide, by decide, List.forall_mem_map.mpr (List.forall_mem_singleton.mpr (by decide))⟩
  have hvalue := value_least_lt
  have htext : "1.0e9223372036854775807" =
      signed false ('1' :: '.' :: '0' :: 'e' :: Text.decimalInt 9223372036854775807) := by
    decide +kernel
  refine ⟨by decide +kernel, ?_, ?_⟩
  · exact roundTo_isNearestMultiple (b := 10) (by decide) (by decide) hone LongWord.least 2
  · rcases one_le_exponentialValue? (e := 9223372036854775807) (by decide) (by decide)
      with ⟨q, hread, hq⟩
    rw [htext]
    exact ⟨q, hread, by linarith⟩

end Layout

end Numerals
