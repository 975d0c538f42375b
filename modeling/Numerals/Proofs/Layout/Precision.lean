import Numerals.Proofs.Layout.HalfEven
import Numerals.Proofs.Layout.Rounded
import Numerals.Proofs.Text.Value

/-!
# The fixed layout with a precision

With a precision `p` the fixed layout is a numeral with `p` digits after the point. Main statement:
in units of the last of these places, it denotes the number that all digits stand for, rounded half
to even.
-/

namespace Numerals

namespace Layout

open Text (digitText pointText numeralValue)
open Digits (chars)

variable {b : ℕ} {ds out : List UInt8} {k : ℤ}

theorem fraction_eq (ds : List UInt8) : fraction ds = pointText (ds.map UInt8.toNat) := by
  cases ds with
  | nil => rfl
  | cons d ds =>
    rw [pointText_of_ne (by simp), ← chars_eq]
    rfl

/-- `cs` is a numeral with `p` digits after the point, which together with those before it stand for
the number `m`. -/
def IsFixed (b p m : ℕ) (cs : List Char) : Prop :=
  ∃ ws ps, ws ≠ [] ∧ ps.length = p ∧ (∀ d ∈ ws, d < b) ∧ (∀ d ∈ ps, d < b) ∧
    cs = digitText ws ++ pointText ps ∧ wholeNumber b (ws ++ ps) = m

/-- A point put after `n` digits. -/
theorem isFixed_take_drop {n p : ℕ} (hn : 0 < n) (hlen : out.length = n + p)
    (h : ∀ d ∈ out, d.toNat < b) :
    IsFixed b p (number b out) (chars (out.take n) ++ fraction (out.drop n)) := by
  have hlt : ∀ d ∈ out.map UInt8.toNat, d < b := List.forall_mem_map.mpr h
  refine ⟨(out.map UInt8.toNat).take n, (out.map UInt8.toNat).drop n, ?_, ?_, ?_, ?_, ?_, ?_⟩
  · rw [ne_eq, List.take_eq_nil_iff, not_or, ← List.length_eq_zero_iff, List.length_map]
    omega
  · rw [List.length_drop, List.length_map]
    omega
  · exact fun d hd => hlt d (List.mem_of_mem_take hd)
  · exact fun d hd => hlt d (List.mem_of_mem_drop hd)
  · rw [chars_eq, fraction_eq, List.map_take, List.map_drop]
  · rw [List.take_append_drop]
    rfl

theorem value_eq_number (hb : 0 < b) (ds : List UInt8) (k : ℤ) :
    Digits.value ⟨ds, k, b⟩ = number b ds * (b : ℚ) ^ (k - ds.length) := by
  rw [Digits.value_natCast, properFraction_mul_zpow hb, List.length_map, number]

/-- The digits that the fixed layout writes are the value rounded half to even. -/
theorem fixedDigits_isHalfEven (hb : 2 ≤ b) (hb' : b < 256) (h : DigitsBelow b ds) (k : ℤ) (p : ℕ) :
    (fixedDigits b ds k p).2.length = p + k.toNat + (fixedDigits b ds k p).1 ∧
      (fixedDigits b ds k p).1 ≤ 1 ∧ (∀ d ∈ (fixedDigits b ds k p).2, d.toNat < b) ∧
      IsHalfEven (number b (fixedDigits b ds k p).2) (Digits.value ⟨ds, k, b⟩ * (b : ℚ) ^ p) := by
  have hbq : (b : ℚ) ≠ 0 := by exact_mod_cast h.pos.ne'
  have hvalue : number b (List.replicate (-k).toNat 0 ++ ds) *
        (b : ℚ) ^ (((p + k.toNat : ℕ) : ℤ) - (List.replicate (-k).toNat 0 ++ ds).length) =
      Digits.value ⟨ds, k, b⟩ * (b : ℚ) ^ p := by
    rw [value_eq_number h.pos, number_append, number_replicate, Nat.zero_mul, Nat.zero_add, mul_assoc,
      ← zpow_natCast (b : ℚ) p, ← zpow_add₀ hbq]
    congr 2
    rw [List.length_append, List.length_replicate]
    omega
  rcases roundTo_isHalfEven hb hb' (h.padded _) (p + k.toNat) with ⟨hlen, hcarry, hround⟩
  rw [hvalue] at hround
  exact ⟨hlen, hcarry, roundTo_lt hb (h.padded _) _, hround⟩

/-- The digits before the point are those up to the exponent, after the carry if there is one. If
there are none, a zero is written, which is one more digit. -/
theorem fixedRounded_eq_take_drop (hb : 2 ≤ b) (hb' : b < 256) (h : DigitsBelow b ds) (k : ℤ)
    (p : ℕ) :
    ∃ out n, 0 < n ∧ out.length = n + p ∧ (∀ d ∈ out, d.toNat < b) ∧
      number b out = number b (fixedDigits b ds k p).2 ∧
      (1 < n → 0 < k ∧ out = (fixedDigits b ds k p).2) ∧
      fixedRounded b ds k p = chars (out.take n) ++ fraction (out.drop n) := by
  rcases fixedDigits_isHalfEven hb hb' h k p with ⟨hlen, hcarry, hlt, -⟩
  unfold fixedRounded
  dsimp only
  generalize fixedDigits b ds k p = r at hlen hcarry hlt
  have hzero : number b (0 :: r.2) = number b r.2 := by
    rw [number_cons, UInt8.toNat_zero, Nat.zero_mul, Nat.zero_add]
  have hlt' : ∀ d ∈ 0 :: r.2, d.toNat < b := List.forall_mem_cons.mpr ⟨h.pos, hlt⟩
  split_ifs with hk hempty hnone
  · have hwhole : k.toNat + r.1 = 0 := by
      rw [List.isEmpty_iff, ← List.length_eq_zero_iff, List.length_take_of_le (by omega)] at hempty
      exact hempty
    refine ⟨0 :: r.2, 1, one_pos, by simp; omega, hlt', hzero, by omega, ?_⟩
    rw [hwhole, List.drop_zero]
    rfl
  · have hwhole : 0 < k.toNat + r.1 := by
      by_contra hnot
      rw [Nat.eq_zero_of_not_pos hnot] at hempty
      exact hempty rfl
    exact ⟨r.2, k.toNat + r.1, hwhole, by omega, hlt, rfl, fun _ => ⟨by omega, rfl⟩, rfl⟩
  · exact ⟨0 :: r.2, 1, one_pos, by simp; omega, hlt', hzero, by omega, rfl⟩
  · exact ⟨r.2, 1, one_pos, by omega, hlt, rfl, by omega, rfl⟩

theorem fixedRounded_isFixed (hb : 2 ≤ b) (hb' : b < 256) (h : DigitsBelow b ds) (k : ℤ) (p : ℕ) :
    IsFixed b p (number b (fixedDigits b ds k p).2) (fixedRounded b ds k p) := by
  rcases fixedRounded_eq_take_drop hb hb' h k p with ⟨out, n, hn, hlen, hlt, hnumber, -, htext⟩
  rw [htext, ← hnumber]
  exact isFixed_take_drop hn hlen hlt

/-- A fixed layout with a precision, if there is one, is that of the rounded digits. -/
theorem eq_fixedRounded {ds : Digits} {p : ℤ} (hp : 0 ≤ p) {cs : List Char}
    (h : fixed ds p = .ok cs) : cs = fixedRounded ds.radix ds.digits ds.exponent p.toNat := by
  unfold fixed at h
  rw [if_neg (by omega)] at h
  rcases Result.exists_of_bind h with ⟨_, -, hroom⟩
  dsimp only at hroom
  split_ifs at hroom
  · rcases Result.exists_of_bind hroom with ⟨_, -, hchars⟩
    rcases Result.exists_of_bind hchars with ⟨_, -, htext⟩
    cases htext
    rfl
  · rcases Result.exists_of_bind hroom with ⟨_, -, htext⟩
    cases htext
    rfl

/-! ## What the text denotes -/

theorem IsFixed.fixedValue? {p m : ℕ} {cs : List Char} (h : IsFixed b p m cs) (hb : b ≤ 36)
    (negative : Bool) :
    Text.fixedValue? b (signed negative cs) = some (Text.signedRat negative (m / b ^ p)) := by
  rcases h with ⟨ws, ps, hne, hlen, hws, hps, rfl, rfl⟩
  have hvalue : numeralValue b ws ps 0 = wholeNumber b (ws ++ ps) / (b : ℚ) ^ p := by
    rw [numeralValue, hlen, zero_sub, zpow_neg, zpow_natCast, div_eq_mul_inv]
  rw [← hvalue]
  exact Text.fixedValue?_digitText hb hne hws hps negative

/-- The text of digits in the fixed style with a precision denotes their value, rounded half to even
in units of the last place. -/
theorem render_fixed_isHalfEven (hb : 2 ≤ b) (hb' : b ≤ 36) {ds : Digits} (hradix : ds.radix = b)
    (h : DigitsBelow b ds.digits) {p : ℤ} (hp : 0 ≤ p) {negative : Bool} {s : String}
    (hs : ds.render negative ⟨.fixed, p⟩ = .ok s) :
    ∃ m : ℕ, IsHalfEven m (ds.value * (b : ℚ) ^ p.toNat) ∧
      Text.fixedValue? b s = some (Text.signedRat negative (m / b ^ p.toNat)) := by
  rcases ds with ⟨ds, k, radix⟩
  obtain rfl : radix = b := hradix
  have hempty : ¬ ds.isEmpty := by simpa using h.ne_nil
  unfold Digits.render at hs
  rw [if_neg hempty, withRadix_eq (by omega)] at hs
  dsimp only [resolve] at hs
  cases hcs : fixed ⟨ds, k, b⟩ p with
  | error e =>
    rw [hcs] at hs
    cases hs
  | ok cs =>
    rw [hcs] at hs
    cases hs
    rw [eq_fixedRounded hp hcs]
    rcases fixedDigits_isHalfEven hb (by omega) h k p.toNat with ⟨-, -, -, hround⟩
    exact ⟨_, hround, (fixedRounded_isFixed hb (by omega) h k p.toNat).fixedValue? hb' negative⟩

end Layout

end Numerals
