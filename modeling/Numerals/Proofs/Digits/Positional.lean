import Numerals.Digits.Basic
import Mathlib.Algebra.Order.Field.Power
import Mathlib.Algebra.Order.Field.Rat
import Mathlib.Tactic.FieldSimp
import Mathlib.Tactic.Linarith
import Mathlib.Tactic.Positivity
import Mathlib.Tactic.Ring

/-!
# Values of digit sequences

Digits `d₁ … dₙ` in base `b` stand for the fraction `0.d₁…dₙ` and for the whole number `d₁…dₙ`. The
value of a digit sequence is its fraction times a power of its radix.
-/

namespace Numerals

/-- The number `0.d₁…dₙ` in base `b`. -/
def properFraction (b : ℕ) : List ℕ → ℚ
  | [] => 0
  | d :: ds => (d + properFraction b ds) / b

/-- The number `d₁…dₙ` in base `b`. -/
def wholeNumber (b : ℕ) (ds : List ℕ) : ℕ :=
  ds.foldl (fun n d => n * b + d) 0

/-- The number that a digit sequence stands for. -/
def Digits.value (ds : Digits) : ℚ :=
  properFraction ds.radix.toNat (ds.digits.map UInt8.toNat) * (ds.radix : ℚ) ^ ds.exponent

theorem Digits.value_natCast (ds : List UInt8) (k : ℤ) (b : ℕ) :
    Digits.value ⟨ds, k, b⟩ = properFraction b (ds.map UInt8.toNat) * (b : ℚ) ^ k := by
  simp [Digits.value]

variable {b : ℕ} {d : ℕ} {ds es : List ℕ}

theorem foldl_wholeNumber (n : ℕ) (ds : List ℕ) :
    ds.foldl (fun n d => n * b + d) n = n * b ^ ds.length + wholeNumber b ds := by
  induction ds generalizing n with
  | nil => simp [wholeNumber]
  | cons d ds ih =>
    have h : wholeNumber b (d :: ds) = d * b ^ ds.length + wholeNumber b ds := by
      rw [wholeNumber, List.foldl_cons, ih]
      ring
    rw [List.foldl_cons, ih, h, List.length_cons]
    ring

theorem wholeNumber_cons : wholeNumber b (d :: ds) = d * b ^ ds.length + wholeNumber b ds := by
  rw [wholeNumber, List.foldl_cons, foldl_wholeNumber]
  ring

theorem wholeNumber_append :
    wholeNumber b (ds ++ es) = wholeNumber b ds * b ^ es.length + wholeNumber b es := by
  rw [wholeNumber, List.foldl_append, foldl_wholeNumber]
  rfl

theorem properFraction_eq (hb : 0 < b) (ds : List ℕ) :
    properFraction b ds = wholeNumber b ds / b ^ ds.length := by
  have hbq : (0 : ℚ) < b := by exact_mod_cast hb
  induction ds with
  | nil => simp [properFraction, wholeNumber]
  | cons d ds ih =>
    rw [properFraction, ih, wholeNumber_cons, List.length_cons, pow_succ]
    push_cast
    field_simp

theorem wholeNumber_zeros (n : ℕ) : wholeNumber b (List.replicate n 0) = 0 := by
  induction n with
  | zero => rfl
  | succ n ih => rw [List.replicate_succ, wholeNumber_cons, ih, Nat.zero_mul]

/-- Zeros at the front have no effect. -/
theorem wholeNumber_zeros_append (n : ℕ) (ds : List ℕ) :
    wholeNumber b (List.replicate n 0 ++ ds) = wholeNumber b ds := by
  rw [wholeNumber_append, wholeNumber_zeros, Nat.zero_mul, Nat.zero_add]

/-- Zeros at the end multiply by a power of the base. -/
theorem wholeNumber_append_zeros (ds : List ℕ) (n : ℕ) :
    wholeNumber b (ds ++ List.replicate n 0) = wholeNumber b ds * b ^ n := by
  rw [wholeNumber_append, wholeNumber_zeros, List.length_replicate, Nat.add_zero]

/-- A fraction times a power of the base, as a whole number times one. -/
theorem properFraction_mul_zpow (hb : 0 < b) (ds : List ℕ) (k : ℤ) :
    properFraction b ds * (b : ℚ) ^ k = wholeNumber b ds * (b : ℚ) ^ (k - ds.length) := by
  have hbq : (b : ℚ) ≠ 0 := by exact_mod_cast hb.ne'
  rw [properFraction_eq hb, zpow_sub₀ hbq, zpow_natCast]
  ring

/-- A number leaves the same remainder as its last digit for every divisor of the base. -/
theorem wholeNumber_mod {m : ℕ} (hm : m ∣ b) (ds : List ℕ) :
    wholeNumber b ds % m = ds.getLastD 0 % m := by
  induction ds using List.reverseRecOn with
  | nil => rfl
  | append_singleton ds d _ =>
    have hd : wholeNumber b [d] = d := by simp [wholeNumber]
    rw [wholeNumber_append, List.getLastD_concat, List.length_singleton, pow_one, hd]
    rw [Nat.add_mod, Nat.mod_eq_zero_of_dvd (Dvd.dvd.mul_left hm _), Nat.zero_add, Nat.mod_mod]

/-- In base ten the last digit decides whether a number is even. -/
theorem wholeNumber_mod_two (ds : List ℕ) : wholeNumber 10 ds % 2 = ds.getLastD 0 % 2 :=
  wholeNumber_mod (by decide) ds

/-- Digits without a zero at the front stand for a number of that many digits. -/
theorem pow_le_wholeNumber (hd : 0 < d) : b ^ ds.length ≤ wholeNumber b (d :: ds) := by
  rw [wholeNumber_cons]
  exact le_trans (Nat.le_mul_of_pos_left _ hd) (Nat.le_add_right _ _)

theorem wholeNumber_lt (h : ∀ d ∈ ds, d < b) : wholeNumber b ds < b ^ ds.length := by
  induction ds with
  | nil => simp [wholeNumber]
  | cons d ds ih =>
    have hd : d < b := h d List.mem_cons_self
    have hds := ih fun e he => h e (List.mem_cons_of_mem d he)
    calc wholeNumber b (d :: ds) = d * b ^ ds.length + wholeNumber b ds := wholeNumber_cons
      _ < d * b ^ ds.length + b ^ ds.length := by omega
      _ = (d + 1) * b ^ ds.length := by ring
      _ ≤ b * b ^ ds.length := Nat.mul_le_mul_right _ hd
      _ = b ^ (d :: ds).length := by rw [List.length_cons, pow_succ']

theorem properFraction_lt_one (hb : 0 < b) (h : ∀ d ∈ ds, d < b) : properFraction b ds < 1 := by
  rw [properFraction_eq hb, div_lt_one (by positivity)]
  exact_mod_cast wholeNumber_lt h

end Numerals
