import Numerals.Integer.Numeral
import Numerals.Integer.Power

/-!
# Reading and powers do not fail on their own account

The sum of integers raises a fault only if a greater magnitude is taken from a lesser one. Reading
adds digits to numbers that are not negative, where nothing is taken away, so that it fails only at
bytes that are no digits. Powers fail only for negative exponents: those that come from tables are
asked for within the tables.
-/

namespace Numerals.Integer

variable {x y : Integer}

/-! ## Sums of integers that are not negative -/

theorem sign_ofWords {s : Sign} (hs : s ≠ .negative) (a : Magnitude) :
    (ofWords s a).sign ≠ .negative := by
  unfold ofWords
  split
  · decide
  · exact hs

theorem exists_add (hx : x.sign ≠ .negative) (hy : y.sign ≠ .negative) :
    ∃ z, x.add y = .ok z ∧ z.sign ≠ .negative := by
  unfold add
  split
  · exact ⟨y, rfl, hy⟩
  · rename_i hx0
    split
    · exact ⟨x, rfl, hx⟩
    · rename_i hy0
      have hsame : x.sign = y.sign := by
        cases hxs : x.sign <;> cases hys : y.sign <;> simp_all
      rw [if_pos hsame]
      exact ⟨_, rfl, sign_ofWords hx _⟩

theorem sign_mulWord (hx : x.sign ≠ .negative) (m : UInt32) : (x.mulWord m).sign ≠ .negative := by
  unfold mulWord
  split
  · decide
  · exact sign_ofWords hx _

theorem sign_ofInt64 : ∀ d < 36, (ofInt64 (Int64.ofNat d)).sign ≠ .negative := by decide

/-! ## Reading -/

theorem digitBelow?_lt {b d : Nat} {c : UInt8} (h : digitBelow? b c = some d) : d < b := by
  unfold digitBelow? at h
  have hfilter := (Option.filter_eq_some_iff.mp h).2
  simpa using hfilter

/-- Digits after a number that is not negative are read up to the first byte that is none. -/
theorem readDigits_cases {b : Nat} (hb : b ≤ 36) (hx : x.sign ≠ .negative) (i : Nat)
    (bytes : List UInt8) :
    (∃ y, readDigits b i x bytes = .ok y) ∨
      ∃ j c, readDigits b i x bytes = .error (.returned (.invalidDigit j c)) := by
  induction bytes generalizing i x with
  | nil => exact .inl ⟨x, rfl⟩
  | cons c cs ih =>
    rw [readDigits]
    split
    · exact .inr ⟨i, c, rfl⟩
    · rename_i d hd
      have hlt := digitBelow?_lt hd
      obtain ⟨z, hz, hsign⟩ :=
        exists_add (sign_mulWord hx b.toUInt32) (sign_ofInt64 d (by omega))
      rw [hz]
      exact ih hsign (i + 1)

/-- A text is read as a decimal number or refused as an argument. -/
theorem read_cases (s : String) :
    (∃ x, read s 10 = .ok x) ∨
      ∃ f, read s 10 = .error (.returned f) ∧ f.category = .invalidArgument := by
  unfold read readBytes
  rw [if_pos (by decide)]
  split
  · exact .inr ⟨_, rfl, rfl⟩
  · rename_i minus c cs _
    rcases readDigits_cases (b := 10) (by decide) (x := zero) (by decide) 0 (c :: cs) with
      ⟨y, hy⟩ | ⟨j, d, hy⟩
    · refine .inl ⟨if minus then y.neg else y, ?_⟩
      change readDigits 10 0 zero (c :: cs) >>= _ = _
      rw [hy]
      rfl
    · refine .inr ⟨.invalidDigit j d, ?_, rfl⟩
      change readDigits 10 0 zero (c :: cs) >>= _ = _
      rw [hy]
      rfl

/-! ## Powers -/

theorem exists_pow (x : Integer) {e : Int} (he : 0 ≤ e) : ∃ z, x.pow e = .ok z := by
  unfold pow
  rw [if_neg (by omega)]
  split
  · rename_i h
    exact ⟨_, if_pos ⟨he, h.2⟩⟩
  · split
    · rename_i h
      exact ⟨_, if_pos ⟨he, h.2⟩⟩
    · exact ⟨_, rfl⟩

theorem pow_of_neg (x : Integer) {e : Int} (he : e < 0) :
    x.pow e = Result.raise (.negativeExponent x.toInt e) :=
  if_pos he

end Numerals.Integer
