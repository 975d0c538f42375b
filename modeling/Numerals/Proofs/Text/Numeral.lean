import Numerals.Proofs.Digits.Positional
import Numerals.Text.Numeral
import Numerals.Text.Reading

/-!
# Digits as characters

The characters of decimal digits are read as these digits, so that the number read from them is the
number that the digits stand for. The decimal text of a number consists of its digits, without
zeros at the front. A numeral has digits, perhaps a point with further digits, and perhaps an
exponent.
-/

namespace Numerals.Text

variable {d n : ℕ} {ds : List ℕ} {cs : List Char}

/-- The characters of digits. -/
def digitText (ds : List ℕ) : List Char :=
  ds.map digitChar

theorem digitText_append (ds es : List ℕ) : digitText (ds ++ es) = digitText ds ++ digitText es :=
  List.map_append

theorem length_digitText (ds : List ℕ) : (digitText ds).length = ds.length :=
  List.length_map _

theorem digitValue?_digitChar : ∀ d < 36, digitValue? (digitChar d) = some d := by decide

theorem digitChar_eq_core : ∀ d < 10, d.digitChar = digitChar d := by decide

theorem isDigit_digitChar {b : ℕ} (hb : b ≤ 36) (hd : d < b) : isDigit b (digitChar d) := by
  unfold isDigit
  rw [digitValue?_digitChar d (by omega)]
  simpa using hd

theorem all_isDigit_digitText {b : ℕ} (hb : b ≤ 36) (h : ∀ d ∈ ds, d < b) :
    ∀ c ∈ digitText ds, isDigit b c := by
  intro c hc
  obtain ⟨d, hd, rfl⟩ := List.mem_map.mp hc
  exact isDigit_digitChar hb (h d hd)

/-! ## Values -/

theorem foldl_valueOf {b : ℕ} (h : ∀ d ∈ ds, d < 36) (n : ℕ) :
    (digitText ds).foldl (fun n c => n * b + (digitValue? c).getD 0) n =
      ds.foldl (fun n d => n * b + d) n := by
  induction ds generalizing n with
  | nil => rfl
  | cons d ds ih =>
    rw [digitText, List.map_cons, List.foldl_cons, List.foldl_cons,
      digitValue?_digitChar d (h d List.mem_cons_self)]
    exact ih (fun e he => h e (List.mem_cons_of_mem d he)) _

/-- Reading the characters of digits gives the number that they stand for. -/
theorem valueOf_digitText {b : ℕ} (h : ∀ d ∈ ds, d < 36) :
    valueOf b (digitText ds) = wholeNumber b ds :=
  foldl_valueOf h 0

/-! ## Decimal texts -/

theorem wholeNumber_singleton (b d : ℕ) : wholeNumber b [d] = d := by
  simp [wholeNumber]

/-- Digits without a zero at the front are the decimal text of their number. -/
theorem decimalNat_wholeNumber (h : ∀ d ∈ ds, d < 10) (hhead : ds.head?.any (0 < ·)) :
    decimalNat (wholeNumber 10 ds) = digitText ds := by
  induction ds using List.reverseRecOn with
  | nil => simp at hhead
  | append_singleton ds d ih =>
    have hd : d < 10 := h d (by simp)
    have hds : ∀ e ∈ ds, e < 10 := fun e he => h e (by simp [he])
    have hlast : wholeNumber 10 (ds ++ [d]) = 10 * wholeNumber 10 ds + d := by
      rw [wholeNumber_append, wholeNumber_singleton, List.length_singleton, pow_one, Nat.mul_comm]
    rw [hlast, digitText_append]
    cases ds with
    | nil =>
      have hnil : wholeNumber 10 [] = 0 := rfl
      rw [hnil, Nat.mul_zero, Nat.zero_add, decimalNat, Nat.toDigits_of_lt_base hd,
        digitChar_eq_core d hd]
      rfl
    | cons e es =>
      have hpos : 0 < wholeNumber 10 (e :: es) := by
        have he : 0 < e := by simpa using hhead
        rw [wholeNumber_cons]
        positivity
      rw [← ih hds (by simpa using hhead), decimalNat, decimalNat,
        ← Nat.toDigits_append_toDigits (by decide) hpos hd, Nat.toDigits_of_lt_base hd,
        digitChar_eq_core d hd]
      rfl

/-- The decimal text of a number has digits that stand for it. -/
theorem exists_digits (n : ℕ) :
    ∃ ds, decimalNat n = digitText ds ∧ ds ≠ [] ∧ (∀ d ∈ ds, d < 10) ∧ wholeNumber 10 ds = n := by
  induction n using Nat.strong_induction_on with
  | _ n ih =>
    rcases Nat.lt_or_ge n 10 with hlt | hge
    · refine ⟨[n], ?_, by simp, by simpa using hlt, wholeNumber_singleton 10 n⟩
      rw [decimalNat, Nat.toDigits_of_lt_base hlt, digitChar_eq_core n hlt]
      rfl
    · obtain ⟨ds, htext, -, hds, hnum⟩ := ih (n / 10) (by omega)
      have hmod : n % 10 < 10 := Nat.mod_lt _ (by decide)
      refine ⟨ds ++ [n % 10], ?_, by simp, ?_, ?_⟩
      · rw [digitText_append, ← htext, decimalNat, Nat.toDigits_of_base_le (by decide) hge,
          digitChar_eq_core _ hmod]
        rfl
      · intro d hd
        rcases List.mem_append.mp hd with hd | hd
        · exact hds d hd
        · rw [List.mem_singleton.mp hd]
          exact hmod
      · rw [wholeNumber_append, hnum, wholeNumber_singleton, List.length_singleton]
        omega

/-! ## Numerals with a point and an exponent -/

/-- `cs` after a minus sign if `negative`. -/
def signedChars (negative : Bool) (cs : List Char) : List Char :=
  if negative then '-' :: cs else cs

theorem mem_signedChars {c : Char} (hc : c ≠ '-') (negative : Bool) (body : List Char) :
    c ∈ signedChars negative body ↔ c ∈ body := by
  cases negative
  · rfl
  · exact List.mem_cons.trans (or_iff_right hc)

theorem signedChars_append (negative : Bool) (body cs : List Char) :
    signedChars negative body ++ cs = signedChars negative (body ++ cs) := by
  cases negative
  · rfl
  · rfl

theorem signedInt_natAbs (n : ℤ) : signedInt (n < 0) n.natAbs = n := by
  unfold signedInt
  split_ifs with hneg
  · rw [decide_eq_true_eq] at hneg
    omega
  · rw [decide_eq_true_eq] at hneg
    omega

theorem natAbs_signedInt (negative : Bool) (n : ℕ) : (signedInt negative n).natAbs = n := by
  cases negative
  · exact Int.natAbs_natCast n
  · exact (Int.natAbs_neg _).trans (Int.natAbs_natCast n)

theorem signedInt_neg_iff (negative : Bool) (n : ℕ) :
    signedInt negative n < 0 ↔ negative = true ∧ n ≠ 0 := by
  cases negative
  · simp [signedInt]
  · simp [signedInt, Nat.pos_iff_ne_zero]

/-- A point and the digits after it, or nothing if there are none. -/
def pointText (ps : List ℕ) : List Char :=
  if ps = [] then [] else '.' :: digitText ps

/-- `cs` is nothing, or an exponent in decimal, perhaps with a plus sign. -/
inductive ExponentText : List Char → ℤ → Prop
  | none : ExponentText [] 0
  | plain (e : ℤ) : ExponentText ('e' :: decimalInt e) e
  | plus (n : ℕ) : ExponentText ('e' :: '+' :: decimalNat n) n

/-- `body` is a numeral in base `b` with the digits `ws` before the point, at least one of them, the
digits `ps` after it, and the exponent `e`. -/
structure IsNumeral (b : ℕ) (body : List Char) (ws ps : List ℕ) (e : ℤ) : Prop where
  whole_ne : ws ≠ []
  whole_lt : ∀ d ∈ ws, d < b
  part_lt : ∀ d ∈ ps, d < b
  text : ∃ tail, ExponentText tail e ∧ body = digitText ws ++ pointText ps ++ tail

/-- The number that a numeral in base `b` with these digits and this exponent denotes. -/
def numeralValue (b : ℕ) (ws ps : List ℕ) (e : ℤ) : ℚ :=
  wholeNumber b (ws ++ ps) * (b : ℚ) ^ (e - ps.length)

/-- `body` is a numeral in base `b` that denotes `q`, with an exponent up to `m` in magnitude. -/
def Denotes (b : ℕ) (body : List Char) (m : ℕ) (q : ℚ) : Prop :=
  ∃ ws ps e, IsNumeral b body ws ps e ∧ e.natAbs ≤ m ∧ numeralValue b ws ps e = q

theorem Denotes.mono {b m m' : ℕ} {body : List Char} {q : ℚ} (h : Denotes b body m q)
    (hm : m ≤ m') : Denotes b body m' q := by
  obtain ⟨ws, ps, e, hnumeral, he, hvalue⟩ := h
  exact ⟨ws, ps, e, hnumeral, he.trans hm, hvalue⟩

end Numerals.Text
