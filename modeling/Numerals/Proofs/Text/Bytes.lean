import Mathlib.Data.Nat.Digits.Lemmas
import Numerals.Proofs.Text.Numeral

/-!
# Bytes and digits

A character below 128 is one byte of a text, so that a text of digits is as many bytes. Every number
has one list of digits in a base, if there are no zeros in front. Main statement: digits are those
of the number that they denote, but for zeros in front.
-/

namespace Numerals

namespace Text

/-! ## Bytes of plain characters -/

theorem byteList_loop (bs : ByteArray) (i : ℕ) (r : List UInt8) :
    ByteArray.toList.loop bs i r = r.reverse ++ bs.data.toList.drop i := by
  fun_induction ByteArray.toList.loop bs i r with
  | case1 i r h ih =>
    have hi : i < bs.data.toList.length := h
    have hget : bs.get! i = bs.data.toList[i] := by
      simp [ByteArray.get!, h]
    rw [ih, List.drop_eq_getElem_cons hi, List.reverse_cons, List.append_assoc, hget]
    rfl
  | case2 i r h =>
    have hi : bs.data.toList.length ≤ i := Nat.le_of_not_lt h
    rw [List.drop_eq_nil_of_le hi, List.append_nil]

theorem utf8EncodeChar_of_lt {c : Char} (hc : c.toNat < 128) :
    String.utf8EncodeChar c = [c.toUInt8] := by
  have hsize : c.utf8Size = 1 :=
    Char.utf8Size_eq_one_iff.mpr (UInt32.le_iff_toNat_le.mpr (Nat.le_of_lt_succ hc))
  rw [String.utf8EncodeChar_eq_singleton hsize]
  rfl

/-- A character below 128 is one byte. -/
theorem toUTF8_ofList {cs : List Char} (h : ∀ c ∈ cs, c.toNat < 128) :
    (String.ofList cs).toUTF8.toList = cs.map Char.toUInt8 := by
  have hbytes : cs.flatMap String.utf8EncodeChar = cs.map Char.toUInt8 := by
    induction cs with
    | nil => rfl
    | cons c cs ih =>
      rw [List.flatMap_cons, utf8EncodeChar_of_lt (h c List.mem_cons_self),
        ih fun d hd => h d (List.mem_cons_of_mem c hd)]
      rfl
  rw [← hbytes, String.toUTF8, String.toByteArray_ofList, List.utf8Encode, ByteArray.toList,
    byteList_loop, List.toList_data_toByteArray]
  rfl

/-! ## Digits as bytes -/

/-- The byte of the digit with value `d`. -/
def digitByte (d : ℕ) : UInt8 :=
  (digitChar d).toUInt8

/-- The byte of a small letter in place of that of a capital one. -/
def lowerByte (c : UInt8) : UInt8 :=
  if 65 ≤ c.toNat ∧ c.toNat ≤ 90 then c + 32 else c

theorem digitChar_lt : ∀ d < 36, (digitChar d).toNat < 128 := by decide

theorem toNat_digitByte : ∀ d < 36, (digitByte d).toNat = if d < 10 then 48 + d else 87 + d := by
  decide

theorem digitByte_eq_zero_iff : ∀ d < 36, digitByte d = 48 ↔ d = 0 := by decide

theorem map_toUInt8_digitText (ds : List ℕ) :
    (digitText ds).map Char.toUInt8 = ds.map digitByte := by
  rw [digitText, List.map_map]
  rfl

theorem digitText_lt {ds : List ℕ} (h : ∀ d ∈ ds, d < 36) : ∀ c ∈ digitText ds, c.toNat < 128 := by
  intro c hc
  obtain ⟨d, hd, rfl⟩ := List.mem_map.mp hc
  exact digitChar_lt d (h d hd)

/-- The bytes of digits, after a minus sign if they are of a negative number. -/
def signedBytes (negative : Bool) (ds : List ℕ) : List UInt8 :=
  if negative then 45 :: ds.map digitByte else ds.map digitByte

theorem toUTF8_signedChars (negative : Bool) {ds : List ℕ} (h : ∀ d ∈ ds, d < 36) :
    (String.ofList (signedChars negative (digitText ds))).toUTF8.toList =
      signedBytes negative ds := by
  rw [toUTF8_ofList]
  · cases negative with
    | false => exact map_toUInt8_digitText ds
    | true => exact congrArg (45 :: ·) (map_toUInt8_digitText ds)
  · intro c hc
    by_cases hminus : c = '-'
    · rw [hminus]
      decide
    · exact digitText_lt h c ((mem_signedChars hminus negative _).mp hc)

end Text

open Text

/-! ## Digits of numbers -/

/-- The digits of `n` in base `b`, the most significant one first. Zero has the digit zero. -/
def digitsOf (b n : ℕ) : List ℕ :=
  if n = 0 then [0] else (Nat.digits b n).reverse

section Digits

variable {b n : ℕ} {ds : List ℕ}

theorem wholeNumber_reverse (b : ℕ) (ds : List ℕ) :
    wholeNumber b ds.reverse = Nat.ofDigits b ds := by
  induction ds with
  | nil => rfl
  | cons d ds ih =>
    rw [List.reverse_cons, wholeNumber_append, ih, wholeNumber_singleton, List.length_singleton,
      Nat.ofDigits_cons]
    simp only [pow_one]
    ring

theorem wholeNumber_digitsOf (b n : ℕ) : wholeNumber b (digitsOf b n) = n := by
  unfold digitsOf
  split
  · rename_i hn
    rw [hn, wholeNumber_singleton]
  · rw [wholeNumber_reverse, Nat.ofDigits_digits]

theorem digitsOf_lt (hb : 2 ≤ b) (n : ℕ) : ∀ d ∈ digitsOf b n, d < b := by
  intro d hd
  unfold digitsOf at hd
  split at hd
  · rw [List.mem_singleton.mp hd]
    omega
  · exact Nat.digits_lt_base hb (List.mem_reverse.mp hd)

theorem digitsOf_ne_nil (b n : ℕ) : digitsOf b n ≠ [] := by
  unfold digitsOf
  split
  · simp
  · rename_i hn
    rw [ne_eq, List.reverse_eq_nil_iff]
    exact Nat.digits_ne_nil_iff_ne_zero.mpr hn

/-- A zero in front is written as the byte of a zero. -/
theorem dropWhile_map_digitByte (h : ∀ d ∈ ds, d < 36) :
    (ds.map digitByte).dropWhile (· = 48) = (ds.dropWhile (· = 0)).map digitByte := by
  induction ds with
  | nil => rfl
  | cons d ds ih =>
    have hzero := digitByte_eq_zero_iff d (h d List.mem_cons_self)
    have hrest := ih fun e he => h e (List.mem_cons_of_mem d he)
    by_cases hd : d = 0
    · rw [List.map_cons, List.dropWhile_cons_of_pos (by simpa using hzero.mpr hd),
        List.dropWhile_cons_of_pos (by simpa using hd), hrest]
    · rw [List.map_cons, List.dropWhile_cons_of_neg (by simpa using mt hzero.mp hd),
        List.dropWhile_cons_of_neg (by simpa using hd), List.map_cons]

/-- Zeros in front do not count. -/
theorem wholeNumber_dropWhile (b : ℕ) (ds : List ℕ) :
    wholeNumber b (ds.dropWhile (· = 0)) = wholeNumber b ds := by
  induction ds with
  | nil => rfl
  | cons d ds ih =>
    by_cases hd : d = 0
    · rw [List.dropWhile_cons_of_pos (by simp [hd]), ih, hd, wholeNumber_cons, Nat.zero_mul,
        Nat.zero_add]
    · rw [List.dropWhile_cons_of_neg (by simp [hd])]

theorem wholeNumber_eq_zero_iff (hb : 0 < b) (ds : List ℕ) :
    wholeNumber b ds = 0 ↔ ds.dropWhile (· = 0) = [] := by
  induction ds with
  | nil => exact ⟨fun _ => rfl, fun _ => rfl⟩
  | cons d ds ih =>
    by_cases hd : d = 0
    · rw [List.dropWhile_cons_of_pos (by simp [hd]), ← ih, hd, wholeNumber_cons, Nat.zero_mul,
        Nat.zero_add]
    · have hpos : 0 < d * b ^ ds.length := Nat.mul_pos (Nat.pos_of_ne_zero hd) (Nat.pow_pos hb)
      rw [List.dropWhile_cons_of_neg (by simp [hd]), wholeNumber_cons]
      simp only [reduceCtorEq, iff_false]
      omega

/-- Digits are those of their number, but for zeros in front. -/
theorem digitsOf_wholeNumber (hb : 2 ≤ b) (h : ∀ d ∈ ds, d < b) :
    digitsOf b (wholeNumber b ds) =
      if ds.dropWhile (· = 0) = [] then [0] else ds.dropWhile (· = 0) := by
  have hzero := wholeNumber_eq_zero_iff (show 0 < b by omega) ds
  unfold digitsOf
  by_cases hnil : ds.dropWhile (· = 0) = []
  · rw [if_pos hnil, if_pos (hzero.mpr hnil)]
  · -- the first digit that is left is not zero, so that nothing is lost in front
    have hdigits : Nat.digits b (Nat.ofDigits b (ds.dropWhile (· = 0)).reverse) =
        (ds.dropWhile (· = 0)).reverse := by
      refine Nat.digits_ofDigits b hb _ ?_ ?_
      · intro d hd
        exact h d (List.dropWhile_subset _ (List.mem_reverse.mp hd))
      · intro hne
        rw [List.getLast_reverse]
        simpa using List.head_dropWhile_not (fun d : ℕ => decide (d = 0)) hnil
    rw [if_neg hnil, if_neg (mt hzero.mp hnil), ← wholeNumber_dropWhile,
      ← List.reverse_reverse (ds.dropWhile _), wholeNumber_reverse, hdigits]

end Digits

end Numerals
