import Numerals.Proofs.Integer.Division
import Numerals.Proofs.Integer.Multiplication
import Numerals.Proofs.Integer.Reading
import Numerals.Proofs.Lazy.Supply
import Numerals.Proofs.Text.Bytes

/-!
# Numerals are read back

The digits of an integer are the remainders of repeated divisions, from the last one to the first;
they are read by repeated multiplication, from the first one to the last. Main statement: the
numeral of an integer is read as that integer, and the integer read from a numeral is written as
that numeral without what carries no meaning: a plus sign, zeros in front, capital letters, and the
sign of zero.
-/

namespace Numerals

open Text

namespace Integer

variable {b : ℕ} {base : ℤ} {x y : Integer} {bytes rest : List UInt8} {ds : List ℕ} {minus : Bool}

/-! ## Writing -/

theorem isBase_iff : isBase base = true ↔ 2 ≤ base ∧ base ≤ 36 := by
  simp [isBase]

theorem toNat_base (hb : b ≤ 36) : b.toUInt32.toNat = b := by
  rw [Nat.toUInt32_eq, UInt32.toNat_ofNat']
  omega

theorem ne_zero_of_base {b : UInt32} (hb : 2 ≤ b.toNat) : b ≠ 0 := by
  rintro rfl
  simp at hb

/-- What is left after a division by `b`. -/
def quotient (b : UInt32) (words : Magnitude) : Magnitude :=
  (Magnitude.divWord b words).1.trim

theorem toNat_quotient {b : UInt32} (hb : b ≠ 0) (words : Magnitude) :
    (quotient b words).toNat = words.toNat / b.toNat := by
  rw [quotient, Magnitude.toNat_trim, (Magnitude.divWord_eq hb words).1]

/-- A division takes a bit away at least. -/
theorem toNat_quotient_lt {b : UInt32} (hb : 2 ≤ b.toNat) {words : Magnitude} {k : ℕ}
    (h : words.toNat < 2 ^ (k + 1)) : (quotient b words).toNat < 2 ^ k := by
  rw [toNat_quotient (ne_zero_of_base hb)]
  apply Nat.div_lt_of_lt_mul
  calc words.toNat < 2 * 2 ^ k := by rwa [pow_succ'] at h
    _ ≤ b.toNat * 2 ^ k := Nat.mul_le_mul_right _ hb

theorem quotient_trimmed (b : UInt32) (words : Magnitude) : (quotient b words).Trimmed :=
  Magnitude.trim_trimmed _

/-- A number with at most `bound` bits is written with all its digits by `bound` divisions. -/
theorem digitsBefore_eq {b : UInt32} (hb : 2 ≤ b.toNat) (tail : List Char) {bound : ℕ}
    {words : Magnitude} (hwords : words.Trimmed) (hbound : words.toNat < 2 ^ bound) :
    digitsBefore b tail bound words =
      digitText (Nat.digits b.toNat words.toNat).reverse ++ tail := by
  have hne := ne_zero_of_base hb
  induction bound generalizing words tail with
  | zero =>
    have hzero : words.toNat = 0 := by simpa using hbound
    rw [hzero, Nat.digits_zero]
    rfl
  | succ bound ih =>
    cases words with
    | nil =>
      rw [digitsBefore]
      simp [Magnitude.toNat, digitText]
    | cons d ds =>
      have hpos : 0 < Magnitude.toNat (d :: ds) := Magnitude.toNat_pos hwords (by simp)
      have hless := toNat_quotient_lt hb hbound
      -- the remainder is the last digit, which stands first among the digits before the reversal
      rw [digitsBefore, show (Magnitude.divWord b (d :: ds)).1.trim = quotient b (d :: ds) from rfl,
        ih _ (quotient_trimmed b _) hless, toNat_quotient hne,
        (Magnitude.divWord_eq hne (d :: ds)).2, Nat.digits_def' hb hpos, List.reverse_cons,
        digitText_append, List.append_assoc]
      rfl

/-- Division by `b` comes to nothing. -/
theorem iterate_quotient {b : UInt32} (hb : 2 ≤ b.toNat) {words : Magnitude}
    (hwords : words.Trimmed) (k : ℕ) (hk : words.toNat < 2 ^ k) : (quotient b)^[k] words = [] := by
  induction k generalizing words with
  | zero =>
    by_contra hnil
    have hpos := Magnitude.toNat_pos hwords hnil
    omega
  | succ k ih =>
    rw [Function.iterate_succ_apply]
    exact ih (quotient_trimmed b words) (toNat_quotient_lt hb hk)

/-- An integer is written as its sign and the digits of its absolute value. -/
theorem numeralChars_eq {b : UInt32} (hb : 2 ≤ b.toNat) (hx : x.Normalized) :
    numeralChars b x =
      signedChars (x.toInt < 0) (digitText (digitsOf b.toNat x.toInt.natAbs)) := by
  have hdigits := digitsBefore_eq hb [] hx.trimmed (Magnitude.toNat_lt x.mag)
  rw [List.append_nil] at hdigits
  unfold numeralChars
  rw [hx.natAbs_toInt, hdigits]
  cases hs : x.sign with
  | zero =>
    rw [toInt_of_zero hs, hx.mag_eq_nil hs]
    rfl
  | positive =>
    have hpos : 0 < x.mag.toNat := hx.mag_pos (by simp [hs])
    rw [toInt_of_positive hs, digitsOf, if_neg (by omega)]
    simp [signedChars]
  | negative =>
    have hpos : 0 < x.mag.toNat := hx.mag_pos (by simp [hs])
    rw [toInt_of_negative hs, digitsOf, if_neg (by omega)]
    simp [signedChars, hpos]

theorem numeral_eq (hbase : isBase base = true) (hx : x.Normalized) :
    x.numeral base = .ok (String.ofList
      (signedChars (x.toInt < 0) (digitText (digitsOf base.toNat x.toInt.natAbs)))) := by
  obtain ⟨hlow, hhigh⟩ := isBase_iff.mp hbase
  have hword : base.toNat.toUInt32.toNat = base.toNat := toNat_base (by omega)
  rw [numeral, if_pos hbase, numeralChars_eq (by omega) hx, hword]

/-- The bytes of a numeral. -/
theorem exists_numeral (hbase : isBase base = true) (hx : x.Normalized) :
    ∃ t, x.numeral base = .ok t ∧
      t.toUTF8.toList = signedBytes (x.toInt < 0) (digitsOf base.toNat x.toInt.natAbs) := by
  obtain ⟨hlow, hhigh⟩ := isBase_iff.mp hbase
  refine ⟨_, numeral_eq hbase hx, toUTF8_signedChars _ ?_⟩
  intro d hd
  have hlt := digitsOf_lt (by omega) _ d hd
  omega

/-! ## Reading -/

/-- The bytes are those of the digits in base `b`, in either letter case. -/
def Spells (b : ℕ) : List UInt8 → List ℕ → Prop :=
  List.Forall₂ fun c d => digitBelow? b c = some d

theorem Spells.lt (h : Spells b bytes ds) : ∀ d ∈ ds, d < b := by
  induction h with
  | nil => simp
  | cons hd _ ih =>
    intro d hmem
    rcases List.mem_cons.mp hmem with rfl | hmem
    · exact digitBelow?_lt hd
    · exact ih d hmem

theorem digitValue?_digitByte : ∀ d < 36, digitValue? (digitByte d) = some d := by decide

theorem spells_digitBytes (hb : b ≤ 36) (h : ∀ d ∈ ds, d < b) : Spells b (ds.map digitByte) ds := by
  induction ds with
  | nil => exact .nil
  | cons d ds ih =>
    have hd : d < b := h d List.mem_cons_self
    refine .cons ?_ (ih fun e he => h e (List.mem_cons_of_mem d he))
    rw [digitBelow?, digitValue?_digitByte d (by omega)]
    simp [Option.filter, hd]

theorem toInt_ofDigit : ∀ d < 36, (ofInt64 (Int64.ofNat d)).toInt = d := by decide

/-- Digits that follow a number extend it. -/
theorem Spells.exists_readDigits (h : Spells b bytes ds) (hb : b ≤ 36) (hx : x.Normalized) (i : ℕ) :
    ∃ y, readDigits b i x bytes = .ok y ∧
      y.toInt = x.toInt * b ^ ds.length + wholeNumber b ds := by
  have hword := toNat_base hb
  induction h generalizing x i with
  | nil => exact ⟨x, rfl, by simp [wholeNumber]⟩
  | @cons c d cs ds hd _ ih =>
    -- one digit takes `x` to `x * b + d`, from which the others are read
    have hlt := digitBelow?_lt hd
    obtain ⟨z, hadd, hz⟩ :=
      (normalized_mulWord x b.toUInt32).exists_add (normalized_ofInt64 (Int64.ofNat d))
    have hnormal := normalized_add (normalized_mulWord x _) (normalized_ofInt64 _) hadd
    obtain ⟨y, hread, hy⟩ := ih hnormal (i + 1)
    refine ⟨y, ?_, ?_⟩
    · rw [readDigits, hd]
      dsimp only
      rw [hadd]
      exact hread
    · rw [hy, hz, toInt_mulWord, hword, toInt_ofDigit d (by omega), wholeNumber_cons,
        List.length_cons]
      push_cast
      ring

/-- Only digits are read. -/
theorem exists_spells {i : ℕ} (h : readDigits b i x bytes = .ok y) : ∃ ds, Spells b bytes ds := by
  induction bytes generalizing i x with
  | nil => exact ⟨[], .nil⟩
  | cons c cs ih =>
    rw [readDigits] at h
    split at h
    · cases h
    · rename_i d hd
      cases hadd : (x.mulWord b.toUInt32).add (ofInt64 (Int64.ofNat d)) with
      | error e => simp [hadd, bind, Except.bind] at h
      | ok z =>
        rw [hadd] at h
        obtain ⟨ds, hds⟩ := ih h
        exact ⟨d :: ds, .cons hd hds⟩

/-- A sign and at least one digit are read as the number with these digits and this sign. -/
theorem Spells.exists_readBytes (h : Spells base.toNat rest ds) (hbase : isBase base = true)
    (hsplit : splitSign bytes = (minus, rest)) (hne : rest ≠ []) :
    ∃ y, readBytes bytes base = .ok y ∧
      y.toInt = signedInt minus (wholeNumber base.toNat ds) := by
  have hb : base.toNat ≤ 36 := Int.toNat_le.mpr (isBase_iff.mp hbase).2
  obtain ⟨c, cs, rfl⟩ := List.exists_cons_of_ne_nil hne
  obtain ⟨y, hread, hy⟩ := h.exists_readDigits hb normalized_zero 0
  rw [toInt_of_zero (x := zero) rfl, zero_mul, zero_add] at hy
  refine ⟨if minus then y.neg else y, ?_, ?_⟩
  · rw [readBytes, if_pos hbase, hsplit]
    dsimp only
    rw [hread]
    rfl
  · cases minus with
    | false => exact hy
    | true =>
      rw [if_pos rfl, toInt_neg, hy]
      rfl

/-- What is read is a sign and at least one digit. -/
theorem spells_of_readBytes (h : readBytes bytes base = .ok y) :
    isBase base = true ∧ ∃ minus rest ds,
      splitSign bytes = (minus, rest) ∧ rest ≠ [] ∧ Spells base.toNat rest ds := by
  unfold readBytes at h
  split at h
  · rename_i hbase
    refine ⟨hbase, ?_⟩
    split at h
    · cases h
    · rename_i minus c cs hsplit
      cases hread : readDigits base.toNat 0 zero (c :: cs) with
      | error e => simp [hread, bind, Except.bind] at h
      | ok z =>
        obtain ⟨ds, hds⟩ := exists_spells hread
        exact ⟨minus, c :: cs, ds, hsplit, by simp, hds⟩
  · cases h

/-! ## Canonical numerals -/

/-- A numeral without what carries no meaning: its plus sign, the zeros in front, capital letters,
and the sign of zero. The bytes 43, 45 and 48 are a plus sign, a minus sign and a zero. -/
def canonicalNumeral (bytes : List UInt8) : List UInt8 :=
  let unsigned := if bytes.head? = some 43 ∨ bytes.head? = some 45 then bytes.tail else bytes
  let digits := (unsigned.map lowerByte).dropWhile (· = 48)
  if digits = [] then [48] else if bytes.head? = some 45 then 45 :: digits else digits

/-- A sign is the first byte, if it is one. -/
theorem splitSign_eq (bytes : List UInt8) :
    splitSign bytes = (decide (bytes.head? = some 45),
      if bytes.head? = some 43 ∨ bytes.head? = some 45 then bytes.tail else bytes) := by
  cases bytes with
  | nil => rfl
  | cons c cs =>
    rw [splitSign]
    by_cases hminus : c = 45
    · simp [hminus]
    · by_cases hplus : c = 43
      · simp [hplus]
      · simp [hminus, hplus]

/-- The small letter of a digit is the digit that is written. -/
theorem lowerByte_of_digit {c : UInt8} {d : ℕ} (h : digitBelow? b c = some d) (hd : d < 36) :
    lowerByte c = digitByte d := by
  have hvalue : digitValue? c = some d := (Option.filter_eq_some_iff.mp h).1
  -- a capital letter is 32 below the small one, and no byte that is a letter wraps around
  have hcapital : c.toNat + 32 < 256 → (c + 32).toNat = c.toNat + 32 := by
    intro hc
    rw [UInt8.toNat_add]
    exact Nat.mod_eq_of_lt hc
  unfold digitValue? at hvalue
  apply UInt8.toNat_inj.mp
  rw [toNat_digitByte d hd, lowerByte]
  dsimp only at hvalue
  split_ifs at hvalue ⊢ <;> simp only [Option.some.injEq] at hvalue <;> omega

theorem Spells.map_lowerByte (h : Spells b bytes ds) (hb : b ≤ 36) :
    bytes.map lowerByte = ds.map digitByte := by
  induction h with
  | nil => rfl
  | cons hd _ ih =>
    have hlt := digitBelow?_lt hd
    rw [List.map_cons, List.map_cons, ih, lowerByte_of_digit hd (by omega)]

/-- The canonical numeral of bytes that are read is that of the number which they denote. -/
theorem canonicalNumeral_eq (hspells : Spells b rest ds) (hb : 2 ≤ b) (hb' : b ≤ 36)
    (hsplit : splitSign bytes = (minus, rest)) :
    canonicalNumeral bytes =
      signedBytes (signedInt minus (wholeNumber b ds) < 0) (digitsOf b (wholeNumber b ds)) := by
  have hdrop := dropWhile_map_digitByte fun d hd => (hspells.lt d hd).trans_le hb'
  have hzero := wholeNumber_eq_zero_iff (show 0 < b by omega) ds
  rw [splitSign_eq, Prod.mk.injEq] at hsplit
  obtain ⟨rfl, rfl⟩ := hsplit
  unfold canonicalNumeral
  dsimp only
  rw [hspells.map_lowerByte hb', hdrop, digitsOf_wholeNumber hb hspells.lt]
  by_cases hnil : ds.dropWhile (· = 0) = []
  · -- all digits are zero, and zero is written without a sign
    have hbyte : digitByte 0 = 48 := rfl
    rw [hnil, hzero.mpr hnil]
    simp [signedBytes, signedInt_neg_iff, hbyte]
  · have hpos : wholeNumber b ds ≠ 0 := mt hzero.mp hnil
    simp [signedBytes, signedInt_neg_iff, hnil, hpos]

/-! ## Round trips -/

/-- No digit is a sign. -/
theorem digitByte_ne_sign : ∀ d < 36, digitByte d ≠ 45 ∧ digitByte d ≠ 43 := by decide

theorem splitSign_signedBytes (negative : Bool) (hne : ds ≠ []) (h : ∀ d ∈ ds, d < 36) :
    splitSign (signedBytes negative ds) = (negative, ds.map digitByte) := by
  cases negative with
  | true => rfl
  | false =>
    obtain ⟨d, ds, rfl⟩ := List.exists_cons_of_ne_nil hne
    obtain ⟨hminus, hplus⟩ := digitByte_ne_sign d (h d List.mem_cons_self)
    rw [signedBytes, if_neg (by simp), List.map_cons, splitSign, if_neg hminus, if_neg hplus]

/-- The numeral of an integer is read as this integer. -/
theorem Normalized.exists_read (hx : x.Normalized) (hbase : isBase base = true) :
    ∃ t, x.numeral base = .ok t ∧ read t base = .ok x := by
  obtain ⟨hlow, hhigh⟩ := isBase_iff.mp hbase
  obtain ⟨t, ht, hbytes⟩ := exists_numeral hbase hx
  have hlt := digitsOf_lt (show 2 ≤ base.toNat by omega) x.toInt.natAbs
  have hne := digitsOf_ne_nil base.toNat x.toInt.natAbs
  have hspells := spells_digitBytes (by omega) hlt
  have hsplit := splitSign_signedBytes (x.toInt < 0) hne fun d hd => (hlt d hd).trans_le (by omega)
  obtain ⟨y, hread, hy⟩ := hspells.exists_readBytes hbase hsplit (by simpa using hne)
  rw [wholeNumber_digitsOf, signedInt_natAbs] at hy
  refine ⟨t, ht, ?_⟩
  rw [read, hbytes, hread, ((normalized_readBytes hread).toInt_inj hx).mp hy]

/-- What is read is written as its canonical numeral. -/
theorem exists_canonical (h : readBytes bytes base = .ok y) :
    ∃ t, y.numeral base = .ok t ∧ t.toUTF8.toList = canonicalNumeral bytes := by
  obtain ⟨hbase, minus, rest, ds, hsplit, hne, hspells⟩ := spells_of_readBytes h
  obtain ⟨hlow, hhigh⟩ := isBase_iff.mp hbase
  obtain ⟨z, hz, hvalue⟩ := hspells.exists_readBytes hbase hsplit hne
  obtain rfl : y = z := Except.ok.inj (h.symm.trans hz)
  obtain ⟨t, ht, hbytes⟩ := exists_numeral hbase (normalized_readBytes h)
  refine ⟨t, ht, ?_⟩
  rw [hbytes, canonicalNumeral_eq hspells (by omega) (by omega) hsplit, hvalue, natAbs_signedInt]

open Lazy

section Lazy

variable {s s' : Store} {v w : Value}

/-- The text of an integer argument in decimal. -/
theorem evaluates_show (hforce : Evaluates s (.force v) (.value w) s')
    (hcheck : Param.check .integer "integerShow" 0 w = .ok x) :
    Evaluates s (.call "integerShow" [v]) (.value (.text x.decimal)) s' :=
  evaluates_call (b := .integerShow) (by decide) rfl
    (evaluates_supply (by decide) hforce hcheck (evaluates_supply_result s' _ _))

theorem evaluates_read {t : String} (hforce : Evaluates s (.force v) (.value (.text t)) s')
    (h : read t 10 = .ok x) :
    Evaluates s (.call "integerRead" [v]) (.value (.constant (.integer x))) s' := by
  have hact : Action.integer (read t 10) = .result (.ok (.constant (.integer x))) := by
    rw [h]
    rfl
  refine evaluates_call (b := .integerRead) (by decide) rfl
    (evaluates_supply (by decide) hforce rfl ?_)
  change Evaluates s' (.supply "integerRead" 1 [] (Action.integer (read t 10)) []) _ s'
  rw [hact]
  exact evaluates_supply_result s' _ _

end Lazy

/-- Writing and reading are inverse. The divisions that write an integer come to nothing and its
numeral is read as this integer; an integer that is read is written as the canonical numeral of the
bytes. In decimal, the function that reads undoes the one that shows. -/
theorem numeral_read_inverse (hlow : 2 ≤ base) (hhigh : base ≤ 36) :
    (∀ x : Integer, x.Normalized →
      (∃ k ≤ 32 * x.mag.length, (quotient base.toNat.toUInt32)^[k] x.mag = []) ∧
      ∃ t, x.numeral base = .ok t ∧ read t base = .ok x) ∧
    (∀ bytes y, readBytes bytes base = .ok y →
      ∃ t, y.numeral base = .ok t ∧ t.toUTF8.toList = canonicalNumeral bytes) ∧
    ∀ x : Integer, x.Normalized → ∀ (s s' : Store) (v w : Value),
      Evaluates s (.force v) (.value w) s' →
      (Param.check .integer "integerShow" 0 w = .ok x →
        Evaluates s (.call "integerShow" [v]) (.value (.text x.decimal)) s') ∧
      (w = .text x.decimal →
        Evaluates s (.call "integerRead" [v]) (.value (.constant (.integer x))) s') := by
  have hbase : isBase base = true := isBase_iff.mpr ⟨hlow, hhigh⟩
  have hword : 2 ≤ base.toNat.toUInt32.toNat := by
    rw [toNat_base (by omega)]
    omega
  refine ⟨?_, ?_, ?_⟩
  · intro x hx
    refine ⟨⟨_, le_rfl, ?_⟩, hx.exists_read hbase⟩
    exact iterate_quotient hword hx.trimmed _ (Magnitude.toNat_lt x.mag)
  · intro bytes y h
    exact exists_canonical h
  · intro x hx s s' v w hforce
    refine ⟨evaluates_show hforce, ?_⟩
    rintro rfl
    obtain ⟨t, ht, hread⟩ := hx.exists_read (show isBase 10 = true by decide)
    obtain rfl : x.decimal = t := Except.ok.inj ht
    exact evaluates_read hforce hread

/-- In base 16: the integer of two words that is the first with nine digits, and the numeral `-00F`,
which is written `-f`. -/
theorem numeral_read_inverse_sixteen :
    Normalized ⟨.negative, [0, 1]⟩ ∧
    (∃ t, numeral ⟨.negative, [0, 1]⟩ 16 = .ok t ∧ read t 16 = .ok ⟨.negative, [0, 1]⟩) ∧
    readBytes [45, 48, 48, 70] 16 = .ok ⟨.negative, [15]⟩ ∧
    (∃ t, numeral ⟨.negative, [15]⟩ 16 = .ok t ∧ t.toUTF8.toList = [45, 102]) ∧
    Evaluates .empty (.call "integerShow" [.constant (.integer ⟨.negative, [0, 1]⟩)])
      (.value (.text (decimal ⟨.negative, [0, 1]⟩))) .empty ∧
    Evaluates .empty (.call "integerRead" [.text (decimal ⟨.negative, [0, 1]⟩)])
      (.value (.constant (.integer ⟨.negative, [0, 1]⟩))) .empty := by
  have hx : Normalized ⟨.negative, [0, 1]⟩ := by decide
  have hread : readBytes [45, 48, 48, 70] 16 = .ok ⟨.negative, [15]⟩ := by decide
  obtain ⟨hwrite, hcanonical, hlazy⟩ :=
    numeral_read_inverse (show (2 : ℤ) ≤ 16 by decide) (by decide)
  refine ⟨hx, (hwrite _ hx).2, hread, hcanonical _ _ hread, ?_, ?_⟩
  · exact (hlazy _ hx .empty .empty _ _ (evaluates_force_self rfl)).1 rfl
  · exact (hlazy _ hx .empty .empty _ _ (evaluates_force_self rfl)).2 rfl

end Integer

end Numerals
