import Numerals.Layout.Basic
import Numerals.Proofs.Digits.Scaling
import Numerals.Proofs.Text.Numeral

/-!
# Layouts of all digits

Without a precision every layout of the digits `d₁ … dₙ` with exponent `k` is a numeral that denotes
`0.d₁…dₙ · b ^ k`: the point is put inside the digits, or zeros are put between it and the digits,
or the exponent is written out.
-/

namespace Numerals

namespace Layout

open Text (digitText pointText ExponentText numeralValue Denotes)
open Digits (chars)

variable {b : ℕ} {ds : List UInt8} {k : ℤ}

theorem chars_eq (ds : List UInt8) : chars ds = digitText (ds.map UInt8.toNat) := by
  unfold chars digitText
  rw [List.map_map]
  rfl

theorem zeros_eq (n : ℕ) : zeros n = digitText (List.replicate n 0) := by
  unfold zeros digitText
  rw [List.map_replicate]
  rfl

theorem pointText_of_ne {ps : List ℕ} (h : ps ≠ []) : pointText ps = '.' :: digitText ps :=
  if_neg h

/-! ## The places of the point -/

/-- The point before all digits, with zeros in between. -/
theorem numeralValue_leading (hb : 0 < b) (ns : List ℕ) (hk : k ≤ 0) :
    numeralValue b [0] (List.replicate (-k).toNat 0 ++ ns) 0 =
      properFraction b ns * (b : ℚ) ^ k := by
  have hnum : wholeNumber b ([0] ++ (List.replicate (-k).toNat 0 ++ ns)) = wholeNumber b ns := by
    rw [wholeNumber_append, wholeNumber_zeros_append]
    simp [wholeNumber]
  rw [properFraction_mul_zpow hb, numeralValue, hnum, List.length_append, List.length_replicate]
  congr 2
  push_cast
  omega

/-- The point after all digits, with zeros in between. -/
theorem numeralValue_trailing (hb : 0 < b) (ns : List ℕ) (hk : ns.length ≤ k) :
    numeralValue b (ns ++ List.replicate (k.toNat - ns.length) 0) [] 0 =
      properFraction b ns * (b : ℚ) ^ k := by
  have hbq : (b : ℚ) ≠ 0 := by exact_mod_cast hb.ne'
  rw [properFraction_mul_zpow hb, numeralValue, List.append_nil, wholeNumber_append_zeros]
  push_cast
  rw [mul_assoc, ← zpow_natCast (b : ℚ) (k.toNat - ns.length), ← zpow_add₀ hbq]
  congr 2
  rw [List.length_nil]
  omega

/-- The point after `m` of the digits. -/
theorem numeralValue_inside (hb : 0 < b) (ns : List ℕ) {m : ℕ} (hm : m ≤ ns.length) (e : ℤ) :
    numeralValue b (ns.take m) (ns.drop m) e = properFraction b ns * (b : ℚ) ^ (e + m) := by
  rw [properFraction_mul_zpow hb, numeralValue, List.take_append_drop, List.length_drop]
  congr 2
  push_cast [Nat.cast_sub hm]
  ring

/-- The point after the first digit. -/
theorem numeralValue_first (hb : 0 < b) {ns : List ℕ} (hns : 0 < ns.length) (k : ℤ) :
    numeralValue b (ns.take 1) (ns.drop 1) (k - 1) = properFraction b ns * (b : ℚ) ^ k := by
  rw [numeralValue_inside hb ns hns]
  congr 2
  push_cast
  ring

/-- A zero after the point adds nothing. -/
theorem numeralValue_point_zero (hb : 0 < b) (ws : List ℕ) (e : ℤ) :
    numeralValue b ws [0] e = numeralValue b ws [] e := by
  have hbq : (b : ℚ) ≠ 0 := by exact_mod_cast hb.ne'
  have hzero : wholeNumber b (ws ++ [0]) = wholeNumber b ws * b ^ 1 := wholeNumber_append_zeros ws 1
  rw [numeralValue, numeralValue, hzero, List.append_nil, List.length_nil, List.length_singleton,
    Nat.cast_zero, sub_zero, pow_one, Nat.cast_one, zpow_sub_one₀ hbq]
  push_cast
  field_simp

/-! ## The layouts -/

/-- `ds` has at least one digit, and all of them are digits in base `b`. -/
structure DigitsBelow (b : ℕ) (ds : List UInt8) : Prop where
  pos : 0 < b
  ne_nil : ds ≠ []
  lt : ∀ d ∈ ds.map UInt8.toNat, d < b

theorem DigitsBelow.toNat_lt (h : DigitsBelow b ds) : ∀ d ∈ ds, d.toNat < b :=
  List.forall_mem_map.mp h.lt

theorem DigitsBelow.take (h : DigitsBelow b ds) (m : ℕ) :
    ∀ d ∈ (ds.map UInt8.toNat).take m, d < b :=
  fun d hd => h.lt d (List.mem_of_mem_take hd)

theorem DigitsBelow.drop (h : DigitsBelow b ds) (m : ℕ) :
    ∀ d ∈ (ds.map UInt8.toNat).drop m, d < b :=
  fun d hd => h.lt d (List.mem_of_mem_drop hd)

theorem DigitsBelow.zeros (h : DigitsBelow b ds) (m : ℕ) : ∀ d ∈ List.replicate m 0, d < b := by
  intro d hd
  rw [List.eq_of_mem_replicate hd]
  exact h.pos

theorem DigitsBelow.length_pos (h : DigitsBelow b ds) : 0 < (ds.map UInt8.toNat).length := by
  rw [List.length_map]
  exact List.length_pos_iff.mpr h.ne_nil

theorem DigitsBelow.take_ne (h : DigitsBelow b ds) {m : ℕ} (hm : m ≠ 0) :
    (ds.map UInt8.toNat).take m ≠ [] := by
  rw [ne_eq, List.take_eq_nil_iff, not_or]
  exact ⟨hm, List.length_pos_iff.mp h.length_pos⟩

/-! ## The places of the point in texts -/

/-- `body` is a numeral with digits before a point, digits after it and then `tail`, and denotes `q`
if `tail` is the exponent `e`. -/
def Pointed (b : ℕ) (body tail : List Char) (e : ℤ) (q : ℚ) : Prop :=
  ∃ ws ps, ws ≠ [] ∧ ps ≠ [] ∧ (∀ d ∈ ws, d < b) ∧ (∀ d ∈ ps, d < b) ∧
    body = digitText ws ++ '.' :: (digitText ps ++ tail) ∧ numeralValue b ws ps e = q

/-- The same for a numeral that need not have a point. -/
def Laid (b : ℕ) (body tail : List Char) (e : ℤ) (q : ℚ) : Prop :=
  ∃ ws ps, ws ≠ [] ∧ (∀ d ∈ ws, d < b) ∧ (∀ d ∈ ps, d < b) ∧
    body = digitText ws ++ pointText ps ++ tail ∧ numeralValue b ws ps e = q

section Laid

variable {body tail : List Char} {e : ℤ} {q : ℚ}

theorem Pointed.laid (h : Pointed b body tail e q) : Laid b body tail e q := by
  rcases h with ⟨ws, ps, hwne, hpne, hws, hps, rfl, hvalue⟩
  refine ⟨ws, ps, hwne, hws, hps, ?_, hvalue⟩
  rw [pointText_of_ne hpne, List.append_assoc, List.cons_append]

theorem Laid.denotes (h : Laid b body tail e q) (htail : ExponentText tail e) :
    Denotes b body e.natAbs q := by
  rcases h with ⟨ws, ps, hne, hws, hps, rfl, hvalue⟩
  exact ⟨ws, ps, e, ⟨hne, hws, hps, tail, htail, rfl⟩, le_rfl, hvalue⟩

end Laid

theorem leading_pointed (h : DigitsBelow b ds) (hk : k ≤ 0) :
    Pointed b ('0' :: '.' :: zeros (-k).toNat ++ chars ds) [] 0 (Digits.value ⟨ds, k, b⟩) := by
  rw [Digits.value_natCast]
  set ns := ds.map UInt8.toNat with hns
  have hne : List.replicate (-k).toNat 0 ++ ns ≠ [] :=
    List.append_ne_nil_of_right_ne_nil _ (List.length_pos_iff.mp h.length_pos)
  refine ⟨[0], List.replicate (-k).toNat 0 ++ ns, by simp, hne, h.zeros 1, ?_, ?_,
    numeralValue_leading h.pos ns hk⟩
  · exact List.forall_mem_append.mpr ⟨h.zeros _, h.lt⟩
  · rw [zeros_eq, chars_eq, ← hns, Text.digitText_append]
    simp [digitText, Text.digitChar, Text.alphabet]

/-- A whole number, without a point and with one. -/
theorem trailing_laid (h : DigitsBelow b ds) (hk : ds.length ≤ k) :
    Laid b (chars ds ++ zeros (k.toNat - ds.length)) [] 0 (Digits.value ⟨ds, k, b⟩) ∧
      Pointed b (chars ds ++ zeros (k.toNat - ds.length) ++ ['.', '0']) [] 0
        (Digits.value ⟨ds, k, b⟩) := by
  rw [Digits.value_natCast]
  set ns := ds.map UInt8.toNat with hns
  have hdslen : ds.length = ns.length := by rw [hns, List.length_map]
  have hne : ns ++ List.replicate (k.toNat - ns.length) 0 ≠ [] :=
    List.append_ne_nil_of_left_ne_nil (List.length_pos_iff.mp h.length_pos) _
  have hlt := List.forall_mem_append.mpr ⟨h.lt, h.zeros (k.toNat - ns.length)⟩
  have hvalue := numeralValue_trailing h.pos ns (hdslen ▸ hk)
  rw [zeros_eq, chars_eq, ← hns, hdslen, ← Text.digitText_append]
  constructor
  · refine ⟨_, [], hne, hlt, by simp, ?_, hvalue⟩
    simp [pointText]
  · exact ⟨_, [0], hne, by simp, hlt, h.zeros 1, rfl,
      (numeralValue_point_zero h.pos _ 0).trans hvalue⟩

theorem inside_pointed (h : DigitsBelow b ds) (hpos : 0 < k) (hk : k < ds.length) :
    Pointed b (chars (ds.take k.toNat) ++ '.' :: chars (ds.drop k.toNat)) [] 0
      (Digits.value ⟨ds, k, b⟩) := by
  rw [Digits.value_natCast]
  set ns := ds.map UInt8.toNat with hns
  have hdslen : ds.length = ns.length := by rw [hns, List.length_map]
  have hdrop : ns.drop k.toNat ≠ [] := by
    rw [ne_eq, List.drop_eq_nil_iff]
    omega
  refine ⟨ns.take k.toNat, ns.drop k.toNat, h.take_ne (by omega), hdrop, h.take _, h.drop _, ?_, ?_⟩
  · rw [chars_eq, chars_eq, List.map_take, List.map_drop, ← hns, List.append_nil]
  · rw [numeralValue_inside h.pos ns (by omega)]
    congr 2
    omega

/-- The point after the first digit, if there are others, and an exponent. -/
theorem first_laid (h : DigitsBelow b ds) (tail : List Char) :
    Laid b
      (chars (ds.take 1) ++ (if 1 < ds.length then '.' :: chars (ds.drop 1) else []) ++ tail)
      tail (k - 1) (Digits.value ⟨ds, k, b⟩) := by
  rw [Digits.value_natCast]
  set ns := ds.map UInt8.toNat with hns
  have hdslen : ds.length = ns.length := by rw [hns, List.length_map]
  refine ⟨ns.take 1, ns.drop 1, h.take_ne (by decide), h.take 1, h.drop 1, ?_,
    numeralValue_first h.pos h.length_pos k⟩
  rw [chars_eq, chars_eq, List.map_take, List.map_drop, ← hns, hdslen, pointText]
  simp only [List.drop_eq_nil_iff]
  split_ifs with hlt hle
  · omega
  · rfl
  · rfl
  · omega

/-- A numeral without a point and an exponent denotes the same with a zero after a point. -/
theorem denotes_point_zero {body : List Char} {m : ℕ} {q : ℚ} (hb : 0 < b) (h : Denotes b body m q)
    (hpoint : '.' ∉ body) (hexp : 'e' ∉ body) : Denotes b (body ++ ['.', '0']) m q := by
  obtain ⟨ws, ps, e, hnumeral, he, hvalue⟩ := h
  obtain ⟨tail, htail, rfl⟩ := hnumeral.text
  have hps : ps = [] := by
    by_contra hne
    exact hpoint (by simp [pointText_of_ne hne])
  subst hps
  cases htail with
  | none =>
    refine ⟨ws, [0], 0, ⟨hnumeral.whole_ne, hnumeral.whole_lt, by simpa using hb, [], .none, ?_⟩,
      he, (numeralValue_point_zero hb ws 0).trans hvalue⟩
    simp [pointText, digitText, Text.digitChar, Text.alphabet]
  | plain e => exact absurd (by simp) hexp
  | plus n => exact absurd (by simp) hexp

/-! ## The layouts -/

/-- The fixed layout has digits on both sides of the point and no exponent. -/
theorem fixedShortest_pointed (h : DigitsBelow b ds) (hk : LongWord.least < k) :
    Pointed b (fixedShortest ds k) [] 0 (Digits.value ⟨ds, k, b⟩) := by
  unfold fixedShortest
  split_ifs with hle hge
  · have hwrap : LongWord.wrap (-k) = -k := by
      unfold LongWord.least at hk
      exact LongWord.wrap_of_mem (by unfold LongWord.least; omega) (by omega)
    rw [hwrap]
    exact leading_pointed h hle
  · exact (trailing_laid h hge).2
  · exact inside_pointed h (by omega) (by omega)

theorem wrap_pred (hk : LongWord.least < k) (hk' : k < 9223372036854775808) :
    LongWord.wrap (k - 1) = k - 1 :=
  LongWord.wrap_of_mem (by omega) (by omega)

/-- The scientific layout has one digit before the point, at least one after it, and an exponent. -/
theorem scientificShortest_pointed (h : DigitsBelow b ds) (hnonzero : ds ≠ [0])
    (hk : LongWord.least < k) (hk' : k < 9223372036854775808) (radix : ℤ) :
    Pointed b (scientificShortest ⟨ds, k, radix⟩) ('e' :: Text.decimalInt (k - 1)) (k - 1)
      (Digits.value ⟨ds, k, b⟩) := by
  have hzero : ¬ (Digits.mk ds k radix).isZero := by simpa [Digits.isZero] using hnonzero
  unfold scientificShortest
  rw [wrap_pred hk hk', if_neg hzero, Digits.value_natCast]
  dsimp only
  split_ifs with hone
  · -- a single digit is followed by a zero
    obtain ⟨d, rfl⟩ := List.length_eq_one_iff.mp hone
    refine ⟨[d.toNat], [0], by simp, by simp, h.lt, h.zeros 1, ?_, ?_⟩
    · simp [chars, digitText, Text.digitChar, Text.alphabet]
    · rw [numeralValue_point_zero h.pos]
      exact numeralValue_first h.pos h.length_pos k
  · have hpos := List.length_pos_iff.mpr h.ne_nil
    set ns := ds.map UInt8.toNat with hns
    have hdrop : ns.drop 1 ≠ [] := by
      rw [ne_eq, List.drop_eq_nil_iff, hns, List.length_map]
      omega
    refine ⟨ns.take 1, ns.drop 1, h.take_ne (by decide), hdrop, h.take 1, h.drop 1, ?_,
      numeralValue_first h.pos h.length_pos k⟩
    rw [chars_eq, chars_eq, List.map_take, List.map_drop, ← hns, List.append_assoc,
      List.cons_append]

theorem scientificShortest_denotes (h : DigitsBelow b ds) (hk : LongWord.least < k)
    (hk' : k < 9223372036854775808) (radix : ℤ) :
    Denotes b (scientificShortest ⟨ds, k, radix⟩) (k.natAbs + 1) (Digits.value ⟨ds, k, b⟩) := by
  by_cases hzero : ds = [0]
  · subst hzero
    refine ⟨[0], [0], 0, ⟨by simp, h.zeros 1, h.zeros 1, _, .plain 0, rfl⟩, by simp, ?_⟩
    simp [numeralValue, Digits.value_natCast, properFraction, wholeNumber]
  · have hpointed := scientificShortest_pointed h hzero hk hk' radix
    exact (hpointed.laid.denotes (.plain _)).mono (by omega)

/-- The sign of an exponent that is not negative is written out. -/
theorem exponentText_plus (e : ℤ) :
    ExponentText ('e' :: (if 0 ≤ e then ['+'] else []) ++ Text.decimalInt e) e := by
  cases e with
  | ofNat n => exact .plus n
  | negSucc n => exact .plain (.negSucc n)

/-- The ECMA layout has no point after a whole number, and an exponent, with its sign, only if the
number is very large or very small. -/
theorem ecma_laid (h : DigitsBelow b ds) (hk : LongWord.least < k) (hk' : k < 9223372036854775808) :
    Laid b (ecma ds k) [] 0 (Digits.value ⟨ds, k, b⟩) ∨
      Laid b (ecma ds k) ('e' :: (if 0 ≤ k - 1 then ['+'] else []) ++ Text.decimalInt (k - 1))
        (k - 1) (Digits.value ⟨ds, k, b⟩) := by
  unfold ecma
  rw [wrap_pred hk hk']
  by_cases hwhole : ds.length ≤ k ∧ k ≤ 21
  · rw [if_pos hwhole]
    exact .inl (trailing_laid h hwhole.1).1
  rw [if_neg hwhole]
  by_cases hinside : 0 < k ∧ k ≤ 21
  · rw [if_pos hinside]
    exact .inl (inside_pointed h hinside.1 (by omega)).laid
  rw [if_neg hinside]
  by_cases hleading : -6 < k ∧ k ≤ 0
  · rw [if_pos hleading]
    exact .inl (leading_pointed h hleading.2).laid
  · rw [if_neg hleading]
    have hfirst := first_laid (k := k) h
      ('e' :: (if 0 ≤ k - 1 then ['+'] else []) ++ Text.decimalInt (k - 1))
    rw [← List.append_assoc] at hfirst
    exact .inr hfirst

theorem ecma_denotes (h : DigitsBelow b ds) (hk : LongWord.least < k)
    (hk' : k < 9223372036854775808) :
    Denotes b (ecma ds k) (k.natAbs + 1) (Digits.value ⟨ds, k, b⟩) := by
  rcases ecma_laid h hk hk' with hlaid | hlaid
  · exact (hlaid.denotes .none).mono (by omega)
  · exact (hlaid.denotes (exponentText_plus (k - 1))).mono (by omega)

/-! ## Rendering -/

theorem demandChars_of_lt (hb : b ≤ 36) (h : ∀ d ∈ ds, d.toNat < b) : demandChars ds = .ok () := by
  have hnone : ds.find? (fun d => Text.alphabet.length ≤ d.toNat) = none := by
    rw [List.find?_eq_none]
    intro d hd
    have hlt := h d hd
    have halphabet : Text.alphabet.length = 36 := rfl
    simp only [halphabet, decide_eq_true_eq, not_le]
    omega
  unfold demandChars
  rw [hnone]

theorem demandChars_eq_ok (h : DigitsBelow b ds) (hb : b ≤ 36) : demandChars ds = .ok () :=
  demandChars_of_lt hb h.toNat_lt

theorem fixed_eq_ok (h : DigitsBelow b ds) (hb : b ≤ 36) {p : ℤ} (hp : p < 0) (radix : ℤ) :
    fixed ⟨ds, k, radix⟩ p = .ok (fixedShortest ds k) := by
  unfold fixed
  rw [if_pos hp, demandChars_eq_ok h hb]
  rfl

theorem scientific_eq_ok (h : DigitsBelow b ds) (hb : b ≤ 36) {p : ℤ} (hp : p < 0) (radix : ℤ) :
    scientific ⟨ds, k, radix⟩ p = .ok (scientificShortest ⟨ds, k, radix⟩) := by
  unfold scientific
  rw [if_pos hp, demandChars_eq_ok h hb]
  rfl

/-- The general style stands for one of the two with a point. -/
theorem resolve_cases {s : Style} (hs : s ∈ Style.named) (k : ℤ) :
    s = .ecma ∧ resolve s k = .ecma ∨
      s ≠ .ecma ∧ (resolve s k = .fixed ∨ resolve s k = .scientific) := by
  cases s with
  | general =>
    refine .inr ⟨by decide, ?_⟩
    unfold resolve
    dsimp only
    split
    · exact .inr rfl
    · exact .inl rfl
  | fixed => exact .inr ⟨by decide, .inl rfl⟩
  | scientific => exact .inr ⟨by decide, .inr rfl⟩
  | ecma => exact .inl ⟨rfl, rfl⟩
  | other n => simp [Style.named] at hs

theorem withRadix_eq {radix : ℤ} (h : radix ≠ 0) :
    (Digits.mk ds k radix).withRadix = ⟨ds, k, radix⟩ :=
  if_neg h

theorem render_ecma_eq (h : DigitsBelow 10 ds) (hnonzero : ds ≠ [0]) (negative : Bool) (p : ℤ) :
    Digits.render ⟨ds, k, 10⟩ negative ⟨.ecma, p⟩ = .ok (signed negative (ecma ds k)) := by
  have hempty : ¬ ds.isEmpty := by simpa using h.ne_nil
  have hzero : ¬ (Digits.mk ds k 10).isZero := by simpa [Digits.isZero] using hnonzero
  unfold Digits.render
  rw [if_neg hempty, withRadix_eq (by decide)]
  dsimp only [resolve]
  rw [if_neg (by decide), if_neg hzero, demandChars_eq_ok h (by decide)]
  rfl

/-- The text is the layout of the style, after the sign. -/
theorem render_eq_map_fixed (h : DigitsBelow b ds) (negative : Bool) {o : Options}
    (hres : resolve o.style k = .fixed) : Digits.render ⟨ds, k, b⟩ negative o =
      (fixed ⟨ds, k, b⟩ o.precision).map (signed negative) := by
  have hempty : ¬ ds.isEmpty := by simpa using h.ne_nil
  have hradix : (b : ℤ) ≠ 0 := by exact_mod_cast h.pos.ne'
  unfold Digits.render
  rw [if_neg hempty, withRadix_eq hradix]
  dsimp only
  rw [hres]

theorem render_eq_map_scientific (h : DigitsBelow b ds) (negative : Bool) {o : Options}
    (hres : resolve o.style k = .scientific) : Digits.render ⟨ds, k, b⟩ negative o =
      (scientific ⟨ds, k, b⟩ o.precision).map (signed negative) := by
  have hempty : ¬ ds.isEmpty := by simpa using h.ne_nil
  have hradix : (b : ℤ) ≠ 0 := by exact_mod_cast h.pos.ne'
  unfold Digits.render
  rw [if_neg hempty, withRadix_eq hradix]
  dsimp only
  rw [hres]

theorem render_eq_ok (h : DigitsBelow b ds) {o : Options} {body : List Char} (negative : Bool)
    (hbody : resolve o.style k = .fixed ∧ fixed ⟨ds, k, b⟩ o.precision = .ok body ∨
      resolve o.style k = .scientific ∧ scientific ⟨ds, k, b⟩ o.precision = .ok body) :
    Digits.render ⟨ds, k, b⟩ negative o = .ok (signed negative body) := by
  rcases hbody with ⟨hres, htext⟩ | ⟨hres, htext⟩
  · rw [render_eq_map_fixed h negative hres, htext]
    rfl
  · rw [render_eq_map_scientific h negative hres, htext]
    rfl

/-- Without a precision every style writes the digits as a numeral that denotes their value, apart
from the ECMA style, which refuses other radixes than ten and takes the sign from zero. -/
theorem render_denotes (h : DigitsBelow b ds) (hb : b ≤ 36) (hk : LongWord.least < k)
    (hk' : k < 9223372036854775808) {o : Options} (hs : o.style ∈ Style.named)
    (hp : o.style ≠ .ecma → o.precision < 0) (hecma : o.style = .ecma → b = 10 ∧ ds ≠ [0])
    (negative : Bool) :
    ∃ body, Digits.render ⟨ds, k, b⟩ negative o = .ok (signed negative body) ∧
      Denotes b body (k.natAbs + 1) (Digits.value ⟨ds, k, b⟩) := by
  rcases resolve_cases hs k with ⟨hstyle, -⟩ | ⟨hstyle, hres | hres⟩
  · obtain ⟨rfl, hnonzero⟩ := hecma hstyle
    obtain ⟨s, p⟩ := o
    obtain rfl : s = .ecma := hstyle
    exact ⟨_, render_ecma_eq h hnonzero negative p, ecma_denotes h hk hk'⟩
  · refine ⟨_, render_eq_ok h negative (.inl ⟨hres, fixed_eq_ok h hb (hp hstyle) b⟩), ?_⟩
    exact ((fixedShortest_pointed h hk).laid.denotes .none).mono (by omega)
  · exact ⟨_, render_eq_ok h negative (.inr ⟨hres, scientific_eq_ok h hb (hp hstyle) b⟩),
      scientificShortest_denotes h hk hk' b⟩

end Layout

end Numerals
