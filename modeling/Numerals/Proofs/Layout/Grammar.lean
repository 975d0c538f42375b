import Numerals.Proofs.Layout.Unambiguous
import Numerals.Proofs.Text.Value

/-!
# The grammar of texts with all digits

Without a precision a text in the fixed style has digits on both sides of a point, one in the
scientific style has a single digit before the point and an exponent, and one in the ECMA style has
a point and an exponent only if it needs them. Main statement: each of them denotes the number that
the digits stand for.

The exponent of the digits must have a predecessor among the long words. Less one, the least of them
wraps to the greatest, and its opposite is itself.
-/

namespace Numerals

namespace Text

/-- `cs` is one digit in base `b` or several. -/
def IsDigits (b : ℕ) (cs : List Char) : Prop :=
  cs ≠ [] ∧ ∀ c ∈ cs, isDigit b c

/-- `cs` has digits on both sides of a point. Before it a zero stands alone. -/
def IsFixedNumeral (b : ℕ) (cs : List Char) : Prop :=
  ∃ whole part, IsDigits b whole ∧ IsDigits b part ∧ (whole.head? = some '0' → whole = ['0']) ∧
    cs = whole ++ '.' :: part

/-- `cs` has one digit before a point, digits after it, and an exponent in decimal without a plus
sign. -/
def IsScientificNumeral (b : ℕ) (cs : List Char) : Prop :=
  ∃ first part negative exponent, isDigit b first ∧ IsDigits b part ∧ IsDigits 10 exponent ∧
    cs = first :: '.' :: (part ++ 'e' :: signedChars negative exponent)

/-- `cs` has decimal digits, perhaps a point and further digits, and perhaps an exponent, which has
a sign. -/
def IsEcmaNumeral (cs : List Char) : Prop :=
  ∃ whole part exponent, IsDigits 10 whole ∧ (part = [] ∨ ∃ ds, IsDigits 10 ds ∧ part = '.' :: ds) ∧
    (exponent = [] ∨ ∃ sign ds, (sign = '+' ∨ sign = '-') ∧ IsDigits 10 ds ∧
      exponent = 'e' :: sign :: ds) ∧
    cs = whole ++ part ++ exponent

variable {b : ℕ} {ws ps : List ℕ}

theorem isDigits_digitText (hb : b ≤ 36) (hne : ws ≠ []) (hws : ∀ d ∈ ws, d < b) :
    IsDigits b (digitText ws) := by
  refine ⟨?_, all_isDigit_digitText hb hws⟩
  unfold digitText
  simpa using hne

theorem isDigits_decimalNat (n : ℕ) : IsDigits 10 (decimalNat n) := by
  rcases exists_digits n with ⟨ds, htext, hne, hlt, -⟩
  rw [htext]
  exact isDigits_digitText (by decide) hne hlt

theorem pointText_cases (hb : b ≤ 36) (hps : ∀ d ∈ ps, d < b) :
    pointText ps = [] ∨ ∃ cs, IsDigits b cs ∧ pointText ps = '.' :: cs := by
  by_cases hne : ps = []
  · exact .inl (if_pos hne)
  · exact .inr ⟨_, isDigits_digitText hb hne hps, if_neg hne⟩

theorem decimalInt_eq (e : ℤ) :
    ∃ negative cs, IsDigits 10 cs ∧ decimalInt e = signedChars negative cs := by
  cases e with
  | ofNat n => exact ⟨false, _, isDigits_decimalNat n, rfl⟩
  | negSucc n => exact ⟨true, _, isDigits_decimalNat (n + 1), rfl⟩

/-- A sign stands before every exponent in the ECMA style. -/
theorem plus_decimalInt_eq (e : ℤ) :
    ∃ sign cs, (sign = '+' ∨ sign = '-') ∧ IsDigits 10 cs ∧
      (if 0 ≤ e then ['+'] else []) ++ decimalInt e = sign :: cs := by
  cases e with
  | ofNat n => exact ⟨'+', _, .inl rfl, isDigits_decimalNat n, rfl⟩
  | negSucc n => exact ⟨'-', _, .inr rfl, isDigits_decimalNat (n + 1), rfl⟩

theorem readInt64?_plus_decimalInt {e : ℤ} (he : isInt64 e) :
    readInt64? (String.ofList ((if 0 ≤ e then ['+'] else []) ++ decimalInt e)) = some e := by
  cases e with
  | ofNat n =>
    rw [if_pos (show 0 ≤ Int.ofNat n from Int.natCast_nonneg n)]
    exact readInt64?_plus he
  | negSucc n =>
    rw [if_neg (by omega), List.nil_append]
    exact readInt64?_decimal he

theorem not_mem_plus_decimalInt (e : ℤ) :
    'e' ∉ (if 0 ≤ e then ['+'] else []) ++ decimalInt e := by
  rw [List.mem_append, not_or]
  refine ⟨?_, not_mem_decimalInt e⟩
  split_ifs
  · decide
  · decide

end Text

namespace Layout

open Text (digitText pointText IsDigits IsFixedNumeral IsScientificNumeral IsEcmaNumeral)
open Digits (chars)

variable {b : ℕ} {ds : List UInt8} {k : ℤ}

/-! ## The fixed style -/

theorem digitChar_eq_zero : ∀ d < 36, Text.digitChar d = '0' → d = 0 := by decide

/-- The first digit comes first if it is before the point. -/
theorem fixedShortest_head (d : UInt8) (ds : List UInt8) (hk : 0 < k) :
    (fixedShortest (d :: ds) k).head? = some (Text.digitChar d.toNat) := by
  unfold fixedShortest
  rw [if_neg (by omega)]
  split_ifs
  · rfl
  · obtain ⟨n, hn⟩ : ∃ n, k.toNat = n + 1 := ⟨k.toNat - 1, by omega⟩
    rw [hn]
    rfl

/-- A zero before the point stands alone if the digits do not begin with one. -/
theorem fixedShortest_zero (hb : b ≤ 36) (h : DigitsBelow b ds) (hhead : ds.head? ≠ some 0)
    {whole part : List Char} (hpoint : '.' ∉ whole)
    (htext : fixedShortest ds k = whole ++ '.' :: part) (hzero : whole.head? = some '0') :
    whole = ['0'] := by
  by_cases hk : k ≤ 0
  · unfold fixedShortest at htext
    rw [if_pos hk] at htext
    have hleading : '.' ∉ ['0'] := by decide
    exact (Text.cut_first hleading hpoint htext).1.symm
  · -- otherwise the text begins with the first digit, which is not zero
    exfalso
    rcases List.exists_cons_of_ne_nil h.ne_nil with ⟨d, es, rfl⟩
    have hfirst := fixedShortest_head d es (not_le.mp hk)
    rw [htext, List.head?_append, hzero, Option.some_or, Option.some_inj] at hfirst
    have hd : d.toNat < 36 := (h.lt d.toNat (by simp)).trans_le hb
    have hbyte : d = 0 := UInt8.toNat_inj.mp (digitChar_eq_zero d.toNat hd hfirst.symm)
    exact hhead (by rw [hbyte]; rfl)

theorem fixedShortest_isFixedNumeral (hb : b ≤ 36) (h : DigitsBelow b ds)
    (hhead : ds.head? ≠ some 0) (hk : LongWord.least < k) :
    IsFixedNumeral b (fixedShortest ds k) := by
  rcases fixedShortest_pointed h hk with ⟨ws, ps, hwne, hpne, hws, hps, htext, -⟩
  rw [List.append_nil] at htext
  have hpoint : '.' ∉ digitText ws :=
    Text.not_mem_digitText (by decide) fun d hd => (hws d hd).trans_le hb
  exact ⟨digitText ws, digitText ps, Text.isDigits_digitText hb hwne hws,
    Text.isDigits_digitText hb hpne hps, fixedShortest_zero hb h hhead hpoint htext, htext⟩

theorem fixedValue?_fixedShortest (hb : b ≤ 36) (h : DigitsBelow b ds) (hk : LongWord.least < k)
    (negative : Bool) :
    Text.fixedValue? b (signed negative (fixedShortest ds k)) =
      some (Text.signedRat negative (Digits.value ⟨ds, k, b⟩)) := by
  rcases (fixedShortest_pointed h hk).laid with ⟨ws, ps, hne, hws, hps, htext, hvalue⟩
  rw [List.append_nil] at htext
  rw [htext, ← hvalue]
  exact Text.fixedValue?_digitText hb hne hws hps negative

/-! ## The scientific style -/

theorem isInt64_pred (hk : LongWord.least < k) (hk' : k < 9223372036854775808) :
    Text.isInt64 (k - 1) :=
  Text.isInt64_of_mem (Int.le_sub_one_of_lt hk) (by omega)

/-- With digits and an exponent, a text denotes what they stand for. -/
theorem Laid.exponentialValue? {body cs : List Char} {e : ℤ} {q : ℚ}
    (h : Laid b body ('e' :: cs) e q) (hb : b ≤ 36) (hpos : 0 < b) (hmark : 'e' ∉ cs)
    (hread : Text.readInt64? (String.ofList cs) = some e) (negative : Bool) :
    Text.exponentialValue? b (signed negative body) = some (Text.signedRat negative q) := by
  rcases h with ⟨ws, ps, hne, hws, hps, rfl, rfl⟩
  exact Text.exponentialValue?_digitText hb hpos hne hws hps hmark hread negative

theorem padded_lt (h : DigitsBelow b ds) : ∀ d ∈ (padded ds).map UInt8.toNat, d < b := by
  unfold padded
  split_ifs
  · rw [List.map_append, List.forall_mem_append]
    exact ⟨h.lt, h.zeros 1⟩
  · exact h.lt

theorem scientificShortest_isScientificNumeral (hb : b ≤ 36) (h : DigitsBelow b ds)
    (hnonzero : ds ≠ [0]) (hk : LongWord.least < k) (hk' : k < 9223372036854775808) (radix : ℤ) :
    IsScientificNumeral b (scientificShortest ⟨ds, k, radix⟩) := by
  rcases Text.decimalInt_eq (k - 1) with ⟨negative, exponent, hexponent, htail⟩
  have hlen := two_le_length_padded h.ne_nil
  have hlt := padded_lt h
  rw [scientificShortest_eq_pointAfterFirst h.ne_nil hnonzero hk hk', htail, chars_eq]
  rw [← List.length_map UInt8.toNat] at hlen
  generalize (padded ds).map UInt8.toNat = ns at hlen hlt
  cases ns with
  | nil => simp at hlen
  | cons d ns =>
    rcases List.forall_mem_cons.mp hlt with ⟨hd, hns⟩
    have hne : ns ≠ [] := by
      rintro rfl
      simp at hlen
    exact ⟨_, _, negative, exponent, Text.isDigit_digitChar hb hd,
      Text.isDigits_digitText hb hne hns, hexponent, rfl⟩

theorem exponentialValue?_scientificShortest (hb : b ≤ 36) (h : DigitsBelow b ds)
    (hnonzero : ds ≠ [0]) (hk : LongWord.least < k) (hk' : k < 9223372036854775808) (radix : ℤ)
    (negative : Bool) :
    Text.exponentialValue? b (signed negative (scientificShortest ⟨ds, k, radix⟩)) =
      some (Text.signedRat negative (Digits.value ⟨ds, k, b⟩)) :=
  (scientificShortest_pointed h hnonzero hk hk' radix).laid.exponentialValue? hb h.pos
    (Text.not_mem_decimalInt _) (Text.readInt64?_decimal (isInt64_pred hk hk')) negative

/-! ## The ECMA style -/

theorem Laid.isEcmaNumeral {body tail : List Char} {e : ℤ} {q : ℚ} (h : Laid 10 body tail e q)
    (htail : tail = [] ∨ ∃ sign cs, (sign = '+' ∨ sign = '-') ∧ IsDigits 10 cs ∧
      tail = 'e' :: sign :: cs) : IsEcmaNumeral body := by
  rcases h with ⟨ws, ps, hne, hws, hps, rfl, -⟩
  exact ⟨_, _, tail, Text.isDigits_digitText (by decide) hne hws,
    Text.pointText_cases (by decide) hps, htail, rfl⟩

theorem ecma_isEcmaNumeral (h : DigitsBelow 10 ds) (hk : LongWord.least < k)
    (hk' : k < 9223372036854775808) : IsEcmaNumeral (ecma ds k) := by
  rcases ecma_laid h hk hk' with hlaid | hlaid
  · exact hlaid.isEcmaNumeral (.inl rfl)
  · rcases Text.plus_decimalInt_eq (k - 1) with ⟨sign, cs, hsign, hcs, hexponent⟩
    exact hlaid.isEcmaNumeral (.inr ⟨sign, cs, hsign, hcs, congrArg ('e' :: ·) hexponent⟩)

/-- In base ten the letter `e` is not a digit, so that a text without an exponent is read as
such. -/
theorem Laid.exponentialValue?_nil {body : List Char} {q : ℚ} (h : Laid 10 body [] 0 q)
    (negative : Bool) :
    Text.exponentialValue? 10 (signed negative body) = some (Text.signedRat negative q) := by
  rcases h with ⟨ws, ps, hne, hws, hps, rfl, rfl⟩
  have hdigits {ns : List ℕ} (hns : ∀ d ∈ ns, d < 10) : 'e' ∉ digitText ns :=
    Text.not_mem_digitText_of_le (by decide) (by decide) hns
  have hmark : 'e' ∉ digitText ws ++ pointText ps := by
    unfold pointText
    split_ifs
    · simpa using hdigits hws
    · simpa using ⟨hdigits hws, hdigits hps⟩
  have hsplit := Text.splitSign_digitText (by decide) hne hws negative (pointText ps)
  rw [List.append_nil]
  exact (Text.exponentialValue?_of_not_mem hmark hsplit).trans
    (Text.fixedValue?_digitText (by decide) hne hws hps negative)

theorem exponentialValue?_ecma (h : DigitsBelow 10 ds) (hk : LongWord.least < k)
    (hk' : k < 9223372036854775808) (negative : Bool) :
    Text.exponentialValue? 10 (signed negative (ecma ds k)) =
      some (Text.signedRat negative (Digits.value ⟨ds, k, 10⟩)) := by
  rcases ecma_laid h hk hk' with hlaid | hlaid
  · exact hlaid.exponentialValue?_nil negative
  · exact hlaid.exponentialValue? (by decide) (by decide) (Text.not_mem_plus_decimalInt _)
      (Text.readInt64?_plus_decimalInt (isInt64_pred hk hk')) negative

/-! ## The general style -/

theorem render_general (h : DigitsBelow b ds) (k : ℤ) (negative : Bool) (p : ℤ) :
    Digits.render ⟨ds, k, b⟩ negative ⟨.general, p⟩ =
      Digits.render ⟨ds, k, b⟩ negative ⟨if k < 0 ∨ 7 < k then .scientific else .fixed, p⟩ := by
  have hradix : (b : ℤ) ≠ 0 := by exact_mod_cast h.pos.ne'
  unfold Digits.render
  rw [withRadix_eq hradix]
  dsimp only
  by_cases hk : k < 0 ∨ 7 < k
  · have hres : resolve .general k = .scientific := if_pos hk
    rw [hres, if_pos hk]
    rfl
  · have hres : resolve .general k = .fixed := if_neg hk
    rw [hres, if_neg hk]
    rfl

/-- Without a precision the digits of `0.d₁…dₙ · b ^ k` are written as numerals that denote this
number exactly: in the fixed style, in the scientific style, and in base ten in the ECMA style. The
general style is the scientific one for an exponent below 0 or above 7, and the fixed one
otherwise. -/
theorem render_shortest_numeral (b : Radix) (ds : List UInt8) (k : ℤ) (hne : ds ≠ [])
    (hlt : ∀ d ∈ ds, d.toNat < b.val) (hhead : ds.head? ≠ some 0) (hk : LongWord.least < k)
    (hk' : k < 9223372036854775808) (negative : Bool) (p : ℤ) (hp : p < 0) :
    (∃ cs, Digits.render ⟨ds, k, b.val⟩ negative ⟨.fixed, p⟩ = .ok (signed negative cs) ∧
      IsFixedNumeral b.val cs ∧ Text.fixedValue? b.val (signed negative cs) =
        some (Text.signedRat negative (Digits.value ⟨ds, k, b.val⟩))) ∧
    (∃ cs, Digits.render ⟨ds, k, b.val⟩ negative ⟨.scientific, p⟩ = .ok (signed negative cs) ∧
      IsScientificNumeral b.val cs ∧ Text.exponentialValue? b.val (signed negative cs) =
        some (Text.signedRat negative (Digits.value ⟨ds, k, b.val⟩))) ∧
    (b.val = 10 →
      ∃ cs, Digits.render ⟨ds, k, 10⟩ negative ⟨.ecma, p⟩ = .ok (signed negative cs) ∧
        IsEcmaNumeral cs ∧ Text.exponentialValue? 10 (signed negative cs) =
          some (Text.signedRat negative (Digits.value ⟨ds, k, 10⟩))) ∧
    Digits.render ⟨ds, k, b.val⟩ negative ⟨.general, p⟩ =
      Digits.render ⟨ds, k, b.val⟩ negative
        ⟨if k < 0 ∨ 7 < k then .scientific else .fixed, p⟩ := by
  have h : DigitsBelow b.val ds := ⟨Scale.radix_pos b, hne, List.forall_mem_map.mpr hlt⟩
  have hnonzero : ds ≠ [0] := by
    rintro rfl
    exact hhead rfl
  refine ⟨?_, ?_, ?_, render_general h k negative p⟩
  · exact ⟨_, render_eq_ok h negative (.inl ⟨rfl, fixed_eq_ok h b.le_max hp b.val⟩),
      fixedShortest_isFixedNumeral b.le_max h hhead hk,
      fixedValue?_fixedShortest b.le_max h hk negative⟩
  · exact ⟨_, render_eq_ok h negative (.inr ⟨rfl, scientific_eq_ok h b.le_max hp b.val⟩),
      scientificShortest_isScientificNumeral b.le_max h hnonzero hk hk' b.val,
      exponentialValue?_scientificShortest b.le_max h hnonzero hk hk' b.val negative⟩
  · intro hten
    rw [hten] at h
    exact ⟨_, render_ecma_eq h hnonzero negative p, ecma_isEcmaNumeral h hk hk',
      exponentialValue?_ecma h hk hk' negative⟩

/-- Digits with an exponent of either sign, and hexadecimal ones with the digit `e`. -/
theorem render_shortest_numeral_digits :
    (∃ cs, Digits.render ⟨[1, 2, 5], -6, 10⟩ true ⟨.fixed, -1⟩ = .ok (signed true cs) ∧
      IsFixedNumeral 10 cs ∧ Text.fixedValue? 10 (signed true cs) =
        some (Text.signedRat true (Digits.value ⟨[1, 2, 5], -6, 10⟩))) ∧
    (∃ cs, Digits.render ⟨[1, 2, 5], -6, 10⟩ true ⟨.ecma, -1⟩ = .ok (signed true cs) ∧
      IsEcmaNumeral cs ∧ Text.exponentialValue? 10 (signed true cs) =
        some (Text.signedRat true (Digits.value ⟨[1, 2, 5], -6, 10⟩))) ∧
    Digits.render ⟨[1, 2, 5], -6, 10⟩ true ⟨.fixed, -1⟩ = .ok "-0.000000125" ∧
    Digits.render ⟨[1, 2, 5], -6, 10⟩ true ⟨.ecma, -1⟩ = .ok "-1.25e-7" ∧
    (∃ cs, Digits.render ⟨[14, 14], 9, 16⟩ false ⟨.scientific, -1⟩ = .ok (signed false cs) ∧
      IsScientificNumeral 16 cs ∧ Text.exponentialValue? 16 (signed false cs) =
        some (Text.signedRat false (Digits.value ⟨[14, 14], 9, 16⟩))) ∧
    Digits.render ⟨[14, 14], 9, 16⟩ false ⟨.general, -1⟩ = .ok "e.ee8" := by
  have hdecimal : ∀ d ∈ [1, 2, 5], UInt8.toNat d < Radix.ten.val := by simp [Radix.ten]
  have hhexadecimal : ∀ d ∈ [14, 14], UInt8.toNat d < 16 := by simp
  rcases render_shortest_numeral .ten [1, 2, 5] (-6) (by decide) hdecimal (by decide) (by decide)
    (by decide) true (-1) (by decide) with ⟨hfixed, -, hecma, -⟩
  rcases render_shortest_numeral ⟨16, by decide, by decide⟩ [14, 14] 9 (by decide) hhexadecimal
    (by decide) (by decide) (by decide) false (-1) (by decide) with ⟨-, hscientific, -, -⟩
  exact ⟨hfixed, hecma rfl, by decide +kernel, by decide +kernel, hscientific, by decide +kernel⟩

theorem value_least_lt : Digits.value ⟨[1], LongWord.least, 10⟩ < 1 / 10 := by
  have hfraction : properFraction 10 [1] = 1 / 10 := by norm_num [properFraction]
  have hsmall : (10 : ℚ) ^ LongWord.least < 1 := zpow_lt_one_of_neg₀ (by norm_num) (by decide)
  change properFraction 10 [1] * (10 : ℚ) ^ LongWord.least < 1 / 10
  rw [hfraction]
  linarith

theorem one_le_exponentialValue? {e : ℤ} (he : 1 ≤ e) (hword : Text.isInt64 e) :
    ∃ q, Text.exponentialValue? 10 (signed false ('1' :: '.' :: '0' :: 'e' :: Text.decimalInt e)) =
      some q ∧ 1 ≤ q := by
  have hpow : (1 : ℚ) ≤ 10 ^ (e - 1) := one_le_zpow₀ (by norm_num) (by omega)
  have hlaid : Laid 10 ('1' :: '.' :: '0' :: 'e' :: Text.decimalInt e) ('e' :: Text.decimalInt e) e
      (((10 : ℕ) : ℚ) * (10 : ℚ) ^ (e - 1)) :=
    ⟨[1], [0], by decide, by decide, by decide, rfl, rfl⟩
  refine ⟨_, hlaid.exponentialValue? (by decide) (by decide) (Text.not_mem_decimalInt e)
    (Text.readInt64?_decimal hword) false, ?_⟩
  change (1 : ℚ) ≤ ((10 : ℕ) : ℚ) * (10 : ℚ) ^ (e - 1)
  push_cast
  linarith

/-- With the least long word as the exponent no style writes digits as what they stand for: the
exponent less one wraps to the greatest long word, and the opposite of the exponent to itself. -/
theorem render_shortest_wraps :
    Digits.render ⟨[1], LongWord.least, 10⟩ false ⟨.scientific, -1⟩ =
        .ok "1.0e9223372036854775807" ∧
      Digits.render ⟨[1], LongWord.least, 10⟩ false ⟨.ecma, -1⟩ = .ok "1e+9223372036854775807" ∧
      Digits.render ⟨[1], LongWord.least, 10⟩ false ⟨.fixed, -1⟩ = .ok "0.1" ∧
      (∃ q, Text.exponentialValue? 10 "1.0e9223372036854775807" = some q ∧
        Digits.value ⟨[1], LongWord.least, 10⟩ < q) ∧
      ∃ q, Text.fixedValue? 10 "0.1" = some q ∧ Digits.value ⟨[1], LongWord.least, 10⟩ < q := by
  have hvalue := value_least_lt
  have hscientific : "1.0e9223372036854775807" =
      signed false ('1' :: '.' :: '0' :: 'e' :: Text.decimalInt 9223372036854775807) := by
    decide +kernel
  refine ⟨by decide +kernel, by decide +kernel, by decide +kernel, ?_, ?_⟩
  · rcases one_le_exponentialValue? (e := 9223372036854775807) (by decide) (by decide)
      with ⟨q, hread, hq⟩
    rw [hscientific]
    exact ⟨q, hread, by linarith⟩
  · have hread : Text.fixedValue? 10 "0.1" = some (1 / 10) := by decide +kernel
    exact ⟨_, hread, hvalue⟩

end Layout

end Numerals
