import Mathlib.Algebra.Order.Field.Rat
import Mathlib.Data.Set.Basic
import Mathlib.Tactic.Linarith
import Mathlib.Tactic.Positivity
import Mathlib.Tactic.Ring

/-!
# Intervals with both end points or with neither

A comparison that admits equality or excludes it, and the intervals that it bounds. Rounding half to
even takes the half-way points on both sides of a number together: the interval of the numbers that
round to it has both end points, or it has neither. A natural number is a rational one rounded so if
it is at most one half away, and exactly one half away only if it is even. In units other than one
this gives the nearest multiple of the unit.
-/

namespace Numerals

/-- `a ≤ b` if `closed`, and `a < b` otherwise. -/
def AtMost (closed : Bool) (a b : ℚ) : Prop :=
  if closed then a ≤ b else a < b

/-- The numbers between `lo` and `hi`: with both end points if `closed`, and with neither
otherwise. -/
def interval (closed : Bool) (lo hi : ℚ) : Set ℚ :=
  {q | AtMost closed lo q ∧ AtMost closed q hi}

variable {closed : Bool} {a b c lo hi p q x : ℚ}

/-! ## The comparison -/

theorem AtMost.le (h : AtMost closed a b) : a ≤ b := by
  cases closed
  · exact le_of_lt h
  · exact h

theorem AtMost.of_lt (h : a < b) : AtMost closed a b := by
  cases closed
  · exact h
  · exact h.le

theorem AtMost.trans_le (hab : AtMost closed a b) (hbc : b ≤ c) : AtMost closed a c := by
  cases closed
  · exact lt_of_lt_of_le hab hbc
  · exact le_trans hab hbc

theorem AtMost.of_le (hab : a ≤ b) (hbc : AtMost closed b c) : AtMost closed a c := by
  cases closed
  · exact lt_of_le_of_lt hab hbc
  · exact le_trans hab hbc

/-- What is not at most `b` is at least `b`, and is not `b` itself if equality is admitted. -/
theorem not_atMost : ¬ AtMost closed a b ↔ AtMost (!closed) b a := by
  cases closed
  · exact not_lt
  · exact not_le

theorem atMost_mul_right (hc : 0 < c) : AtMost closed (a * c) (b * c) ↔ AtMost closed a b := by
  cases closed
  · exact mul_lt_mul_iff_of_pos_right hc
  · exact mul_le_mul_iff_of_pos_right hc

theorem atMost_sub_right : AtMost closed (a - c) (b - c) ↔ AtMost closed a b := by
  cases closed
  · exact sub_lt_sub_iff_right c
  · exact sub_le_sub_iff_right c

theorem atMost_neg : AtMost closed (-a) (-b) ↔ AtMost closed b a := by
  cases closed
  · exact neg_lt_neg_iff
  · exact neg_le_neg_iff

/-- A comparison together with what is known in the case of equality. -/
theorem atMost_iff : AtMost closed a b ↔ a ≤ b ∧ (b = a → closed = true) := by
  cases closed
  · constructor
    · intro h
      exact ⟨le_of_lt h, fun e => absurd e (ne_of_gt h)⟩
    · intro h
      exact lt_of_le_of_ne h.1 fun e => absurd (h.2 e.symm) Bool.false_ne_true
  · exact ⟨fun h => ⟨h, fun _ => rfl⟩, fun h => h.1⟩

/-- Of two numbers the greater one is the nearer one to what lies above their mean. -/
theorem atMost_dist_of_lt (hab : a < b) :
    AtMost closed |b - q| |a - q| ↔ AtMost closed ((a + b) / 2) q := by
  cases closed
  · change |b - q| < |a - q| ↔ (a + b) / 2 < q
    rcases abs_cases (a - q) with ⟨ha, _⟩ | ⟨ha, _⟩ <;>
      rcases abs_cases (b - q) with ⟨hb, _⟩ | ⟨hb, _⟩ <;>
      rw [ha, hb] <;> constructor <;> intro h <;> linarith
  · change |b - q| ≤ |a - q| ↔ (a + b) / 2 ≤ q
    rcases abs_cases (a - q) with ⟨ha, _⟩ | ⟨ha, _⟩ <;>
      rcases abs_cases (b - q) with ⟨hb, _⟩ | ⟨hb, _⟩ <;>
      rw [ha, hb] <;> constructor <;> intro h <;> linarith

/-- Of two numbers the smaller one is the nearer one to what lies below their mean. -/
theorem atMost_dist_of_gt (hba : b < a) :
    AtMost closed |b - q| |a - q| ↔ AtMost closed q ((b + a) / 2) := by
  have h : AtMost closed |-b - -q| |-a - -q| ↔ AtMost closed ((-a + -b) / 2) (-q) :=
    atMost_dist_of_lt (neg_lt_neg hba)
  have hmean : (-a + -b) / 2 = -((b + a) / 2) := by ring
  rw [hmean, atMost_neg, neg_sub_neg, neg_sub_neg, abs_sub_comm q b, abs_sub_comm q a] at h
  exact h

/-- What lies between two numbers that are equally near is nearer. -/
theorem dist_lt_of_between (htie : |a - q| = |b - q|) (hac : a < c) (hcb : c < b) :
    |c - q| < |a - q| := by
  rcases abs_cases (a - q) with ⟨ha, _⟩ | ⟨ha, _⟩ <;>
    rcases abs_cases (b - q) with ⟨hb, _⟩ | ⟨hb, _⟩ <;>
    rw [ha, hb] at htie <;> rw [ha, abs_lt] <;> constructor <;> linarith

/-! ## The intervals -/

theorem mem_interval : q ∈ interval closed lo hi ↔ AtMost closed lo q ∧ AtMost closed q hi :=
  Iff.rfl

theorem mem_interval_of_lt (hlo : lo < q) (hhi : q < hi) : q ∈ interval closed lo hi :=
  ⟨.of_lt hlo, .of_lt hhi⟩

/-- With two numbers an interval has every number between them. -/
theorem mem_interval_of_between (hp : p ∈ interval closed lo hi) (hq : q ∈ interval closed lo hi)
    (hpx : p ≤ x) (hxq : x ≤ q) : x ∈ interval closed lo hi :=
  ⟨hp.1.trans_le hpx, .of_le hxq hq.2⟩

theorem mem_interval_mul (hc : 0 < c) :
    q * c ∈ interval closed (lo * c) (hi * c) ↔ q ∈ interval closed lo hi := by
  rw [mem_interval, mem_interval, atMost_mul_right hc, atMost_mul_right hc]

theorem mem_interval_sub :
    q - c ∈ interval closed (lo - c) (hi - c) ↔ q ∈ interval closed lo hi := by
  rw [mem_interval, mem_interval, atMost_sub_right, atMost_sub_right]

/-! ## Rounding half to even -/

/-- `m` is `q` rounded to a natural number, half to even. -/
def IsHalfEven (m : ℕ) (q : ℚ) : Prop :=
  q ∈ interval (m % 2 = 0) (m - 1 / 2) (m + 1 / 2)

variable {m n k r : ℕ}

/-- Rounding keeps the order. -/
theorem IsHalfEven.le_of_le (hm : IsHalfEven m p) (hn : IsHalfEven n q) (hpq : p ≤ q) : m ≤ n := by
  have hlow := hm.1
  have hhigh := hn.2
  by_contra hlt
  have hnm : (n : ℚ) + 1 ≤ m := by exact_mod_cast not_le.mp hlt
  -- both numbers are the half-way point between `n` and `n + 1`, and these would both be even
  have heq : q = (n : ℚ) + 1 / 2 := by linarith [hlow.le, hhigh.le]
  have hsucc : (m : ℚ) = n + 1 := by linarith [hlow.le, hhigh.le]
  have hsucc' : m = n + 1 := by exact_mod_cast hsucc
  have hp : p = (m : ℚ) - 1 / 2 := by linarith [hlow.le]
  have hmeven : m % 2 = 0 := by simpa using (atMost_iff.mp hlow).2 hp
  have hneven : n % 2 = 0 := by simpa using (atMost_iff.mp hhigh).2 heq.symm
  omega

theorem isHalfEven_natCast (n : ℕ) : IsHalfEven n n :=
  mem_interval_of_lt (by linarith) (by linarith)

theorem IsHalfEven.eq_zero (h : IsHalfEven m 0) : m = 0 :=
  Nat.le_zero.mp (h.le_of_le (isHalfEven_natCast 0) (by simp))

/-- A fraction below one half is dropped, and one half after an even number. -/
theorem isHalfEven_down (hn : 0 < n) (h : 2 * r < n ∨ 2 * r = n ∧ k % 2 = 0) :
    IsHalfEven k (k + r / n) := by
  have hnq : (0 : ℚ) < n := by exact_mod_cast hn
  have hnonneg : (0 : ℚ) ≤ r / n := by positivity
  rcases h with hlt | ⟨htie, heven⟩
  · have hhalf : (r / n : ℚ) < 1 / 2 := by
      rw [div_lt_div_iff₀ hnq two_pos]
      exact_mod_cast (show r * 2 < 1 * n by omega)
    exact mem_interval_of_lt (by linarith) (by linarith)
  · have hhalf : (r / n : ℚ) = 1 / 2 := by
      rw [div_eq_div_iff hnq.ne' two_ne_zero]
      exact_mod_cast (show r * 2 = 1 * n by omega)
    unfold IsHalfEven
    rw [decide_eq_true heven, hhalf]
    exact ⟨show (_ : ℚ) ≤ _ by linarith, le_refl _⟩

/-- A fraction above one half is made a whole, and one half after an odd number. -/
theorem isHalfEven_up (hn : 0 < n) (hrn : r ≤ n) (h : n < 2 * r ∨ 2 * r = n ∧ k % 2 = 1) :
    IsHalfEven (k + 1) (k + r / n) := by
  have hnq : (0 : ℚ) < n := by exact_mod_cast hn
  have hle : (r / n : ℚ) ≤ 1 := by
    rw [div_le_one hnq]
    exact_mod_cast hrn
  unfold IsHalfEven
  push_cast
  rcases h with hlt | ⟨htie, hodd⟩
  · have hhalf : (1 / 2 : ℚ) < r / n := by
      rw [div_lt_div_iff₀ two_pos hnq]
      exact_mod_cast (show 1 * n < r * 2 by omega)
    exact mem_interval_of_lt (by linarith) (by linarith)
  · have hhalf : (r / n : ℚ) = 1 / 2 := by
      rw [div_eq_div_iff hnq.ne' two_ne_zero]
      exact_mod_cast (show r * 2 = 1 * n by omega)
    rw [decide_eq_true (show (k + 1) % 2 = 0 by omega), hhalf]
    exact ⟨show (_ : ℚ) ≤ _ by linarith, show (_ : ℚ) ≤ _ by linarith⟩

/-! ## Multiples of a unit -/

/-- `m · u` is the multiple of `u` nearest to `q`, and `m` is even if another one is equally
near. -/
structure IsNearestMultiple (u q : ℚ) (m : ℕ) : Prop where
  nearest : ∀ n : ℤ, |m * u - q| ≤ |n * u - q|
  even : ∀ n : ℤ, n ≠ m → |n * u - q| = |m * u - q| → m % 2 = 0

/-- No integer is nearer than the number rounded half to even. -/
theorem IsHalfEven.atMost_dist (h : IsHalfEven m q) {n : ℤ} (hne : n ≠ m) :
    AtMost (m % 2 = 0) |m - q| |n - q| := by
  rcases lt_or_gt_of_ne hne with hlt | hgt
  · have hltq : (n : ℚ) < m := by exact_mod_cast hlt
    have hstep : (n : ℚ) + 1 ≤ m := by exact_mod_cast hlt
    rw [atMost_dist_of_lt hltq]
    exact .of_le (by linarith) h.1
  · have hgtq : (m : ℚ) < n := by exact_mod_cast hgt
    have hstep : (m : ℚ) + 1 ≤ n := by exact_mod_cast hgt
    rw [atMost_dist_of_gt hgtq]
    exact h.2.trans_le (by linarith)

theorem IsHalfEven.isNearestMultiple {u : ℚ} (hu : 0 < u) (h : IsHalfEven m (q / u)) :
    IsNearestMultiple u q m := by
  have hscale (a : ℚ) : |a * u - q| = |a - q / u| * u := by
    rw [← abs_of_pos hu, ← abs_mul, sub_mul, abs_of_pos hu, div_mul_cancel₀ q hu.ne']
  constructor
  · intro n
    rw [hscale, hscale]
    by_cases hne : n = m
    · rw [hne, Int.cast_natCast]
    · exact mul_le_mul_of_nonneg_right (h.atMost_dist hne).le hu.le
  · intro n hne htie
    rw [hscale, hscale, mul_left_inj' hu.ne'] at htie
    exact of_decide_eq_true ((atMost_iff.mp (h.atMost_dist hne)).2 htie)

end Numerals
