import Numerals.Proofs.Layout.Places

/-!
# Rounding of digit lists in every base

The digits are bytes. In a base below 256 there is a byte above every digit, and rounding is exact.
In a base from 256 on no byte is out of range, so that no digit is carried; but a last digit 255
that is increased becomes 0. Main statement: this is the only case in which `roundTo` does not give
the digits of the nearest integer.

That is so for every number `n` of digits. Layouts come to `roundTo` only with an `n + 1` that is at
most `maxLength`, and crash otherwise; this is part of what is proved of them.
-/

namespace Numerals.Layout

variable {b n : ℕ} {ds : List UInt8}

/-- The result `r` is the list `ds` of digits in base `b`, rounded to `n` digits: they stand for the
integer nearest to the number of all digits, in units of the `n`-th one, and for the even one of two
that are equally near. The carry tells whether this is the next power of the base. -/
structure IsRounding (b n : ℕ) (ds : List UInt8) (r : ℕ × List UInt8) : Prop where
  carry : r.1 = 0 ∨ r.1 = 1
  length : r.2.length = n + r.1
  digits : ∀ d ∈ r.2, d.toNat < b
  nearest : IsNearestMultiple 1 (number b ds * (b : ℚ) ^ ((n : ℤ) - ds.length)) (number b r.2)
  carry_iff : r.1 = 1 ↔ number b r.2 = b ^ n

/-- Rounding `ds` to `n` digits increases a last digit 255, in a base in which it should become
256 or be carried. -/
structure WrapsLast (b n : ℕ) (ds : List UInt8) : Prop where
  base : 256 ≤ b
  last : (ds.take n).getLast? = some 255
  up : b ^ (ds.drop n).length < 2 * number b (ds.drop n) ∨
    2 * number b (ds.drop n) = b ^ (ds.drop n).length ∧ number b (ds.take n) % 2 = 1

/-! ## Bases from 256 on -/

/-- Every byte is a digit, so that the last digit takes the carry, whatever becomes of it. -/
theorem increment_concat (hb : 256 ≤ b) (init : List UInt8) (d : UInt8) :
    increment b (init ++ [d]) = (false, init ++ [d + 1]) := by
  induction init with
  | nil =>
    have hlt := (d + 1).toNat_lt
    exact if_pos (show ((d + 1).toNat : ℤ) < b by omega)
  | cons c init ih => rw [List.cons_append, increment, ih, List.cons_append]

theorem increments_of_le (hb : 256 ≤ b) (hlast : ds.getLast? ≠ some 255) : Increments b ds := by
  rcases List.eq_nil_or_concat' ds with rfl | ⟨init, d, rfl⟩
  · exact ⟨rfl, rfl⟩
  · rw [List.getLast?_concat, ne_eq, Option.some_inj] at hlast
    have hne : d.toNat ≠ 255 := fun heq => hlast (UInt8.toNat_inj.mp heq)
    have hlt := d.toNat_lt
    have hnext : (d + 1).toNat = d.toNat + 1 := toNat_next (by omega)
    unfold Increments
    rw [increment_concat hb]
    constructor
    · simp
    · simp [number, wholeNumber, hnext, Nat.add_assoc]

theorem roundsUp_nil (base : ℤ) (kept : List UInt8) : roundsUp base kept [] = false := by
  unfold roundsUp
  dsimp only
  split_ifs
  · rfl
  · rfl

theorem roundsUp_iff_of_lt (hb : 2 ≤ b) (h : ∀ d ∈ ds, d.toNat < b) (n : ℕ) :
    roundsUp b (ds.take n) (ds.drop n) ↔ b ^ (ds.drop n).length < 2 * number b (ds.drop n) ∨
      2 * number b (ds.drop n) = b ^ (ds.drop n).length ∧ number b (ds.take n) % 2 = 1 := by
  by_cases hnil : ds.drop n = []
  · rw [hnil, roundsUp_nil]
    simp [number, wholeNumber]
  · exact roundsUp_iff (by omega) hnil fun d hd => h d (List.mem_of_mem_drop hd)

/-- The digits kept can be increased, if they are, unless the last one wraps. -/
theorem increments_of_not_wrapsLast (hb : 2 ≤ b) (h : ∀ d ∈ ds, d.toNat < b)
    (hwraps : ¬WrapsLast b n ds) (hup : roundsUp b (ds.take n) (ds.drop n)) :
    Increments b (ds.take n) := by
  rcases Nat.lt_or_ge b 256 with hlow | hhigh
  · exact increments_of_lt hlow fun d hd => h d (List.mem_of_mem_take hd)
  · apply increments_of_le hhigh
    intro hlast
    exact hwraps ⟨hhigh, hlast, (roundsUp_iff_of_lt hb h n).mp hup⟩

/-! ## A last digit that wraps -/

section Wrapping

variable (hb : 2 ≤ b) (h : ∀ d ∈ ds, d.toNat < b) (hw : WrapsLast b n ds)
include hb h hw

theorem WrapsLast.lt_length : n < ds.length := by
  have hup := (roundsUp_iff_of_lt hb h n).mpr hw.up
  by_contra hle
  rw [List.drop_eq_nil_of_le (not_lt.mp hle), roundsUp_nil] at hup
  cases hup

/-- The last digit becomes 0, and nothing is carried. -/
theorem WrapsLast.roundTo_eq : roundTo b n ds = (0, (ds.take n).dropLast ++ [0]) := by
  have hup := (roundsUp_iff_of_lt hb h n).mpr hw.up
  rcases List.getLast?_eq_some_iff.mp hw.last with ⟨init, htake⟩
  unfold roundTo
  rw [if_neg (not_le.mpr (hw.lt_length hb h)), if_pos hup, htake, increment_concat hw.base,
    List.dropLast_concat]
  rfl

/-- This is 255 less than the digits kept, which are not more than the number themselves. -/
theorem WrapsLast.not_isRounding : ¬IsRounding b n ds (roundTo b n ds) := by
  intro hround
  have hnearest := hround.nearest.nearest (number b (ds.take n))
  rcases List.getLast?_eq_some_iff.mp hw.last with ⟨init, htake⟩
  have hnumber : number b (ds.take n) = number b (init ++ [0]) + 255 := by
    rw [htake]
    simp [number, wholeNumber]
  have hrest : (0 : ℚ) ≤ number b (ds.drop n) / ((b ^ (ds.drop n).length : ℕ) : ℚ) := by positivity
  rw [number_mul_zpow (by omega) (hw.lt_length hb h).le, hw.roundTo_eq hb h, hnumber, htake,
    List.dropLast_concat, Int.cast_natCast] at hnearest
  generalize (number b (ds.drop n) / ((b ^ (ds.drop n).length : ℕ) : ℚ)) = r at hnearest hrest
  push_cast at hnearest
  rw [abs_of_nonpos (by linarith), abs_of_nonpos (by linarith)] at hnearest
  linarith

end Wrapping

/-! ## Rounding -/

theorem isRounding_of_not_wrapsLast (hb : 2 ≤ b) (h : ∀ d ∈ ds, d.toNat < b)
    (hwraps : ¬WrapsLast b n ds) : IsRounding b n ds (roundTo b n ds) := by
  rcases roundTo_isHalfEven_of_increments hb h (increments_of_not_wrapsLast hb h hwraps)
    with ⟨hlen, hcarry, hround⟩
  refine ⟨by omega, hlen, roundTo_lt hb h n, ?_, carry_iff_of_isHalfEven hb h hlen hcarry hround⟩
  apply IsHalfEven.isNearestMultiple one_pos
  rwa [div_one]

/-- Digits in any base are rounded half to even, with a carry exactly if this gives the next power
of the base, unless the last digit that is kept wraps. If it does, it becomes 0. Where `n + 1` is
more than `maxLength`, this is about a list that no layout asks for. -/
theorem roundTo_isRounding_iff (hb : 2 ≤ b) (h : ∀ d ∈ ds, d.toNat < b) (n : ℕ) :
    (IsRounding b n ds (roundTo b n ds) ↔ ¬WrapsLast b n ds) ∧
    (WrapsLast b n ds → roundTo b n ds = (0, (ds.take n).dropLast ++ [0])) := by
  refine ⟨⟨?_, isRounding_of_not_wrapsLast hb h⟩, WrapsLast.roundTo_eq hb h⟩
  intro hround hw
  exact hw.not_isRounding hb h hround

/-- A carry in an odd base, where one half recurs, and a digit in a base with more digits than
bytes. -/
theorem roundTo_isRounding_iff_bases :
    (∀ d ∈ [2, 2, 1, 2], UInt8.toNat d < 3) ∧ IsRounding 3 2 [2, 2, 1, 2] (1, [1, 0, 0]) ∧
      (∀ d ∈ [254, 200], UInt8.toNat d < 300) ∧ IsRounding 300 1 [254, 200] (0, [255]) := by
  have hthree : ∀ d ∈ [2, 2, 1, 2], UInt8.toNat d < 3 := by simp
  have hlarge : ∀ d ∈ [254, 200], UInt8.toNat d < 300 := by simp
  refine ⟨hthree, ?_, hlarge, ?_⟩
  · exact (roundTo_isRounding_iff (by decide) hthree 2).1.mpr fun hw => absurd hw.base (by decide)
  · exact (roundTo_isRounding_iff (by decide) hlarge 1).1.mpr fun hw => absurd hw.last (by decide)

/-- In base 256 the digits 255.255 are rounded to 0, although 256 is the nearest integer. -/
theorem roundTo_wraps_byte :
    (∀ d ∈ [255, 255], UInt8.toNat d < 256) ∧ roundTo 256 1 [255, 255] = (0, [0]) ∧
      ¬IsRounding 256 1 [255, 255] (roundTo 256 1 [255, 255]) ∧
      IsRounding 256 1 [255, 255] (1, [1, 0]) := by
  have hbytes : ∀ d ∈ [255, 255], UInt8.toNat d < 256 := by simp
  have hwraps : WrapsLast 256 1 [255, 255] := ⟨by decide, by decide, by decide⟩
  refine ⟨hbytes, by decide, hwraps.not_isRounding (by decide) hbytes, ?_⟩
  refine ⟨.inr rfl, rfl, by simp, ?_, by decide⟩
  have hones : number 256 [1, 0] = 256 := by decide
  have hfull : number 256 [255, 255] = 65535 := by decide
  apply IsHalfEven.isNearestMultiple one_pos
  dsimp only
  rw [div_one, hones, hfull]
  exact mem_interval_of_lt (by norm_num) (by norm_num)

end Numerals.Layout
