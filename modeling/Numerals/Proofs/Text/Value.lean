import Numerals.Proofs.Binary.Literal
import Mathlib.Data.List.TakeWhile

/-!
# Numbers that texts denote

Readers for what the layouts write, in every base and without rounding. `fixedValue?` reads digits
with at most one point after a sign. `exponentialValue?` reads an exponent too, which stands after
the last letter `e`: in the bases above 14 this letter is a digit as well.
-/

namespace Numerals.Text

/-- `q`, negated if `negative`. -/
def signedRat (negative : Bool) (q : ℚ) : ℚ :=
  if negative then -q else q

@[simp] theorem signedRat_false (q : ℚ) : signedRat false q = q := rfl

@[simp] theorem signedRat_true (q : ℚ) : signedRat true q = -q := rfl

/-- The number that digits with at most one point denote in base `b`. -/
def pointValue? (b : ℕ) (cs : List Char) : Option ℚ :=
  match Literal.mantissa? b cs with
  | some (whole, part, []) => some (valueOf b (whole ++ part) / b ^ part.length)
  | _ => none

/-- The number that a text without an exponent denotes in base `b`. -/
def fixedValue? (b : ℕ) (s : String) : Option ℚ :=
  let (negative, body) := splitSign s.toList
  (pointValue? b body).map (signedRat negative)

/-- What stands before the last `c` in `cs`, and what stands after it. -/
def cutLast? (c : Char) (cs : List Char) : Option (List Char × List Char) :=
  match cs.reverse.span (· ≠ c) with
  | (_, []) => none
  | (tail, _ :: front) => some (front.reverse, tail.reverse)

/-- The number that a text denotes in base `b`, with an exponent if the letter `e` occurs in it. -/
def exponentialValue? (b : ℕ) (s : String) : Option ℚ :=
  let (negative, body) := splitSign s.toList
  match cutLast? 'e' body with
  | none => (pointValue? b body).map (signedRat negative)
  | some (front, tail) => do
    let q ← pointValue? b front
    let e ← readInt64? (String.ofList tail)
    return signedRat negative (q * b ^ e)

variable {b : ℕ} {ws ps : List ℕ} {cs : List Char}

/-! ## Integers -/

theorem isInt64_of_mem {n : ℤ} (hlo : -9223372036854775808 ≤ n) (hhi : n < 9223372036854775808) :
    isInt64 n := by
  unfold isInt64
  rw [Bool.and_eq_true, decide_eq_true_eq, decide_eq_true_eq]
  omega

theorem splitSign_decimalNat (n : ℕ) : splitSign (decimalNat n) = (false, decimalNat n) := by
  rcases exists_digits n with ⟨ds, htext, hne, hlt, -⟩
  rcases List.exists_cons_of_ne_nil hne with ⟨d, es, rfl⟩
  rcases digitChar_ne d (hlt d List.mem_cons_self) with ⟨hminus, hplus, -⟩
  rw [htext]
  exact Literal.splitSign_of_ne hminus hplus

theorem splitSign_decimalInt (n : ℤ) :
    splitSign (decimalInt n) = (decide (n < 0), decimalNat n.natAbs) := by
  cases n with
  | ofNat n => exact splitSign_decimalNat n
  | negSucc n =>
    rw [decide_eq_true (Int.negSucc_lt_zero n)]
    rfl

/-- A sign and the decimal digits of the absolute value are read as the integer. -/
theorem readInt64?_of_splitSign {n : ℤ} (hn : isInt64 n)
    (hsplit : splitSign cs = (decide (n < 0), decimalNat n.natAbs)) :
    readInt64? (String.ofList cs) = some n := by
  rcases exists_digits n.natAbs with ⟨ds, htext, hne, hlt, hvalue⟩
  have hdigits : (digitText ds).all (isDigit 10) :=
    List.all_eq_true.mpr (all_isDigit_digitText (by decide) hlt)
  have hempty : (digitText ds).isEmpty = false := by
    rw [List.isEmpty_eq_false_iff, ne_eq, ← List.length_eq_zero_iff, length_digitText,
      List.length_eq_zero_iff]
    exact hne
  have hread : valueOf 10 (digitText ds) = n.natAbs := by
    rw [valueOf_digitText fun d hd => (hlt d hd).trans (by decide), hvalue]
  unfold readInt64?
  rw [String.toList_ofList, hsplit, htext]
  dsimp only
  rw [hempty, hdigits, hread, signedInt_natAbs]
  exact if_pos hn

/-- The decimal text of an integer is read as this integer. -/
theorem readInt64?_decimal {n : ℤ} (hn : isInt64 n) : readInt64? (decimal n) = some n :=
  readInt64?_of_splitSign hn (splitSign_decimalInt n)

/-- So is the decimal text of a natural number after a plus sign. -/
theorem readInt64?_plus {n : ℕ} (hn : isInt64 n) :
    readInt64? (String.ofList ('+' :: decimalNat n)) = some (n : ℤ) := by
  apply readInt64?_of_splitSign hn
  rw [decide_eq_false (by omega), Int.natAbs_natCast]
  rfl

/-! ## Digits with a point -/

theorem digitChar_ne_sign : ∀ d < 36, digitChar d ≠ '-' ∧ digitChar d ≠ '+' := by decide

/-- The sign of a text can be told from its digits. -/
theorem splitSign_digitText (hb : b ≤ 36) (hne : ws ≠ []) (hws : ∀ d ∈ ws, d < b) (negative : Bool)
    (cs : List Char) :
    splitSign (signedChars negative (digitText ws ++ cs)) = (negative, digitText ws ++ cs) := by
  rcases List.exists_cons_of_ne_nil hne with ⟨d, es, rfl⟩
  rcases digitChar_ne_sign d ((hws d List.mem_cons_self).trans_le hb) with ⟨hminus, hplus⟩
  cases negative
  · exact Literal.splitSign_of_ne hminus hplus
  · rfl

theorem pointValue?_digitText (hb : b ≤ 36) (hne : ws ≠ []) (hws : ∀ d ∈ ws, d < b)
    (hps : ∀ d ∈ ps, d < b) :
    pointValue? b (digitText ws ++ pointText ps) = some (numeralValue b ws ps 0) := by
  have hend : ∀ c ∈ ([] : List Char).head?, isDigit b c = false ∧ c ≠ '.' := by simp
  have hread := Literal.mantissa?_digitText hb hne hws hps hend
  have hlt : ∀ d ∈ ws ++ ps, d < 36 := by
    intro d hd
    rcases List.mem_append.mp hd with hd | hd
    · exact (hws d hd).trans_le hb
    · exact (hps d hd).trans_le hb
  rw [List.append_nil] at hread
  unfold pointValue?
  rw [hread]
  dsimp only
  rw [← digitText_append, valueOf_digitText hlt, length_digitText, numeralValue, zero_sub, zpow_neg,
    zpow_natCast, div_eq_mul_inv]

theorem fixedValue?_digitText (hb : b ≤ 36) (hne : ws ≠ []) (hws : ∀ d ∈ ws, d < b)
    (hps : ∀ d ∈ ps, d < b) (negative : Bool) :
    fixedValue? b (String.ofList (signedChars negative (digitText ws ++ pointText ps))) =
      some (signedRat negative (numeralValue b ws ps 0)) := by
  unfold fixedValue?
  rw [String.toList_ofList, splitSign_digitText hb hne hws]
  dsimp only
  rw [pointValue?_digitText hb hne hws hps]
  rfl

/-! ## Exponents -/

theorem cutLast?_append {c : Char} (front : List Char) {tail : List Char} (h : c ∉ tail) :
    cutLast? c (front ++ c :: tail) = some (front, tail) := by
  have htail : ∀ d ∈ tail.reverse, decide (d ≠ c) = true := by
    intro d hd
    rw [decide_eq_true_eq]
    rintro rfl
    exact h (List.mem_reverse.mp hd)
  unfold cutLast?
  rw [List.reverse_append, List.reverse_cons, List.append_assoc, List.singleton_append,
    List.span_eq_takeWhile_dropWhile, List.takeWhile_append_of_pos htail,
    List.dropWhile_append_of_pos htail]
  simp

theorem cutLast?_of_not_mem {c : Char} (h : c ∉ cs) : cutLast? c cs = none := by
  have hdrop : cs.reverse.dropWhile (· ≠ c) = [] := by
    rw [List.dropWhile_eq_nil_iff]
    intro d hd
    rw [decide_eq_true_eq]
    rintro rfl
    exact h (List.mem_reverse.mp hd)
  unfold cutLast?
  rw [List.span_eq_takeWhile_dropWhile, hdrop]

theorem numeralValue_mul_zpow (hb : 0 < b) (ws ps : List ℕ) (e : ℤ) :
    numeralValue b ws ps 0 * (b : ℚ) ^ e = numeralValue b ws ps e := by
  have hbq : (b : ℚ) ≠ 0 := by exact_mod_cast hb.ne'
  rw [numeralValue, numeralValue, mul_assoc, ← zpow_add₀ hbq]
  congr 2
  ring

theorem exponentialValue?_digitText (hb : b ≤ 36) (hpos : 0 < b) (hne : ws ≠ [])
    (hws : ∀ d ∈ ws, d < b) (hps : ∀ d ∈ ps, d < b) {e : ℤ} (hmark : 'e' ∉ cs)
    (hread : readInt64? (String.ofList cs) = some e) (negative : Bool) :
    exponentialValue? b
        (String.ofList (signedChars negative (digitText ws ++ pointText ps ++ 'e' :: cs))) =
      some (signedRat negative (numeralValue b ws ps e)) := by
  have hsplit := splitSign_digitText hb hne hws negative (pointText ps ++ 'e' :: cs)
  rw [← List.append_assoc] at hsplit
  unfold exponentialValue?
  rw [String.toList_ofList, hsplit]
  dsimp only
  rw [cutLast?_append _ hmark]
  dsimp only
  rw [pointValue?_digitText hb hne hws hps, hread, ← numeralValue_mul_zpow hpos ws ps e]
  rfl

/-- Without the letter `e` there is no exponent. -/
theorem exponentialValue?_of_not_mem {negative : Bool} {body : List Char} (h : 'e' ∉ body)
    (hsplit : splitSign cs = (negative, body)) :
    exponentialValue? b (String.ofList cs) = fixedValue? b (String.ofList cs) := by
  unfold exponentialValue? fixedValue?
  rw [String.toList_ofList, hsplit]
  dsimp only
  rw [cutLast?_of_not_mem h]

end Numerals.Text
