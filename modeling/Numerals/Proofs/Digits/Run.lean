import Numerals.Proofs.Digits.Positional
import Numerals.Proofs.Digits.Ratios

/-!
# The generation of digits

Digits are generated from an interval that no whole number lies in. One step multiplies it by the
radix and takes off the whole part of the number, which is the next digit. As long as no whole
number lies in the interval that is left, the same holds for the next step; the first time that one
does, it completes the last digit. Main statement: the digits so found are the first ones on their
grid that lie in the interval, no coarser grid meets the interval at all, and of the points of their
own grid in it they are the nearest one, with an even last digit if two are equally near.
-/

namespace Numerals.Scale

variable {c c' : Scale} {b : Radix} {d e left : ℕ} {ds : List ℕ} {x : ℚ}

/-! ## One step -/

/-- The next digit. -/
def digit (b : Radix) (c : Scale) : ℕ :=
  c.r * b.val / c.s

/-- The interval that is left after the next digit. -/
def rest (b : Radix) (c : Scale) : Scale :=
  { c.mul b.val (radix_pos b) with r := c.r * b.val % c.s }

theorem run_succ (b : Radix) (left : ℕ) (c : Scale) :
    run b (left + 1) c =
      if b.val ≤ digit b c then
        Result.refuse (.digitOutOfRange (maxDigits - (left + 1)) (digit b c) b.val)
      else
        match (rest b c).reachesZero, (rest b c).reachesOne with
        | false, false => (run b left (rest b c)).map (digit b c :: ·)
        | true, true => .ok [lastDigit (digit b c) (rest b c)]
        | false, true => .ok [digit b c + 1]
        | true, false => .ok [digit b c] := rfl

theorem whole_part (b : Radix) (c : Scale) :
    (c.r * b.val : ℚ) = c.s * digit b c + (rest b c).r := by
  exact_mod_cast (Nat.div_add_mod (c.r * b.val) c.s).symm

theorem value_rest (b : Radix) (c : Scale) :
    (rest b c).value = c.value * b.val - digit b c := by
  have hs := c.s_pos_rat
  have hw := whole_part b c
  change ((rest b c).r : ℚ) / c.s = c.r / c.s * b.val - digit b c
  rw [eq_sub_iff_add_eq, div_mul_eq_mul_div, hw]
  field_simp
  ring

theorem lower_rest (b : Radix) (c : Scale) :
    (rest b c).lower = c.lower * b.val - digit b c := by
  have hs := c.s_pos_rat
  have hw := whole_part b c
  change ((rest b c).r - (c.below * b.val : ℕ) : ℚ) / c.s =
    (c.r - c.below) / c.s * b.val - digit b c
  push_cast
  field_simp
  linarith

theorem upper_rest (b : Radix) (c : Scale) :
    (rest b c).upper = c.upper * b.val - digit b c := by
  have hs := c.s_pos_rat
  have hw := whole_part b c
  change ((rest b c).r + (c.above * b.val : ℕ) : ℚ) / c.s =
    (c.r + c.above) / c.s * b.val - digit b c
  push_cast
  field_simp
  linarith

theorem value_rest_lt_one (b : Radix) (c : Scale) : (rest b c).value < 1 := by
  have hs := c.s_pos_rat
  change ((c.r * b.val % c.s : ℕ) : ℚ) / c.s < 1
  rw [div_lt_one hs]
  exact_mod_cast Nat.mod_lt _ c.s_pos

/-- A number lies in the interval if what is left of it lies in what is left of the interval. -/
theorem mem_span_iff_rest (b : Radix) (c : Scale) (x : ℚ) :
    x ∈ c.span ↔ x * b.val - digit b c ∈ (rest b c).span := by
  unfold span
  rw [lower_rest, upper_rest, mem_interval_sub]
  exact (mem_interval_mul (radix_pos_rat b)).symm

/-- One step multiplies all distances by the radix. -/
theorem dist_rest (b : Radix) (c : Scale) (x : ℚ) :
    |x * b.val - digit b c - (rest b c).value| = |x - c.value| * b.val := by
  have h : x * b.val - digit b c - (rest b c).value = (x - c.value) * b.val := by
    rw [value_rest]
    ring
  rw [h, abs_mul, abs_of_pos (radix_pos_rat b)]

/-! ## Intervals without whole numbers -/

/-- No whole number lies in the interval of a number between 0 and 1. -/
structure Open (c : Scale) : Prop where
  zero : c.reachesZero = false
  one : c.reachesOne = false

theorem Open.not_mem (h : Open c) (z : ℤ) : (z : ℚ) ∉ c.span := by
  intro hz
  have hzero := Bool.eq_false_iff.mp h.zero
  have hone := Bool.eq_false_iff.mp h.one
  rw [ne_eq, reachesZero_iff] at hzero
  rw [ne_eq, reachesOne_iff] at hone
  rcases le_or_gt z 0 with hle | hgt
  · exact hzero (hz.1.trans_le (by exact_mod_cast hle))
  · exact hone (.of_le (by exact_mod_cast hgt) hz.2)

theorem Open.upper_le_one (h : Open c) : c.upper ≤ 1 := by
  have hone := Bool.eq_false_iff.mp h.one
  rw [ne_eq, reachesOne_iff, not_atMost] at hone
  exact hone.le

theorem Open.lower_nonneg (h : Open c) : 0 ≤ c.lower := by
  have hzero := Bool.eq_false_iff.mp h.zero
  rw [ne_eq, reachesZero_iff, not_atMost] at hzero
  exact hzero.le

theorem Open.digit_lt (h : Open c) (b : Radix) : digit b c < b.val := by
  have hv : c.value < 1 := lt_of_lt_of_le c.value_lt_upper h.upper_le_one
  have hb := radix_pos_rat b
  have hr := (rest b c).value_nonneg
  rw [value_rest] at hr
  have : (digit b c : ℚ) < b.val := by nlinarith
  exact_mod_cast this

/-! ## The last digit -/

/-- `e` is the digit `d` or the one after it: in the interval `c` that is left after `d` it is the
nearest whole number, and even if two of them are equally near. -/
structure IsLast (c : Scale) (d e : ℕ) : Prop where
  le_succ : e ≤ d + 1
  mem : (e : ℚ) - d ∈ c.span
  nearest : ∀ z : ℤ, (z : ℚ) - d ∈ c.span → z ≠ e →
    AtMost (e % 2 = 0) |(e : ℚ) - d - c.value| |(z : ℚ) - d - c.value|

/-- The digit itself is the last one if the whole numbers above it that lie in the interval are not
nearer. -/
theorem isLast_self (hmem : 0 ∈ c.span)
    (habove : ∀ z : ℤ, 1 ≤ z → (z : ℚ) ∈ c.span → AtMost (d % 2 = 0) c.value (z / 2)) :
    IsLast c d d := by
  refine ⟨Nat.le_succ d, by rwa [sub_self], ?_⟩
  intro z hz hne
  rw [sub_self]
  have hcast : (z : ℚ) - d = ((z - d : ℤ) : ℚ) := by push_cast; rfl
  rw [hcast] at hz ⊢
  rcases lt_or_gt_of_ne (show z - d ≠ 0 by omega) with hlt | hgt
  · have hltq : ((z - d : ℤ) : ℚ) < 0 := by exact_mod_cast hlt
    rw [atMost_dist_of_lt hltq]
    exact .of_lt (by linarith [c.value_nonneg])
  · have hgtq : (0 : ℚ) < ((z - d : ℤ) : ℚ) := by exact_mod_cast hgt
    rw [atMost_dist_of_gt hgtq, zero_add]
    exact habove _ hgt hz

/-- The next digit is the last one if the whole numbers below it that lie in the interval are not
nearer. -/
theorem isLast_succ (hv : c.value < 1) (hmem : 1 ∈ c.span)
    (hbelow : ∀ z : ℤ, z ≤ 0 → (z : ℚ) ∈ c.span →
      AtMost ((d + 1) % 2 = 0) ((z + 1) / 2) c.value) :
    IsLast c d (d + 1) := by
  have hone : ((d + 1 : ℕ) : ℚ) - d = 1 := by push_cast; ring
  refine ⟨le_rfl, by rwa [hone], ?_⟩
  intro z hz hne
  rw [hone]
  have hcast : (z : ℚ) - d = ((z - d : ℤ) : ℚ) := by push_cast; rfl
  rw [hcast] at hz ⊢
  rcases lt_or_gt_of_ne (show z - d ≠ 1 by push_cast at hne; omega) with hlt | hgt
  · have hltq : ((z - d : ℤ) : ℚ) < 1 := by exact_mod_cast hlt
    rw [atMost_dist_of_lt hltq]
    exact hbelow _ (by omega) hz
  · have hgtq : (1 : ℚ) < ((z - d : ℤ) : ℚ) := by exact_mod_cast hgt
    rw [atMost_dist_of_gt hgtq]
    exact .of_lt (by linarith)

theorem isLast_of_reachesZero (hzero : c.reachesZero) (hone : ¬ c.reachesOne) : IsLast c d d := by
  apply isLast_self (zero_mem_span_iff.mpr hzero)
  intro z hz hmem
  rw [reachesOne_iff] at hone
  exact absurd (.of_le (by exact_mod_cast hz) hmem.2) hone

theorem isLast_of_reachesOne (hv : c.value < 1) (hzero : ¬ c.reachesZero) (hone : c.reachesOne) :
    IsLast c d (d + 1) := by
  apply isLast_succ hv ((one_mem_span_iff hv).mpr hone)
  intro z hz hmem
  rw [reachesZero_iff] at hzero
  exact absurd (hmem.1.trans_le (by exact_mod_cast hz)) hzero

/-- If both neighbouring digits lie in the interval, the comparison with one half decides. -/
theorem isLast_lastDigit (hv : c.value < 1) (hzero : c.reachesZero) (hone : c.reachesOne) :
    IsLast c d (lastDigit d c) := by
  have habove : ∀ z : ℤ, 1 ≤ z → (1 / 2 : ℚ) ≤ z / 2 := by
    intro z hz
    have : (1 : ℚ) ≤ z := by exact_mod_cast hz
    linarith
  have hbelow : ∀ z : ℤ, z ≤ 0 → ((z : ℚ) + 1) / 2 ≤ 1 / 2 := by
    intro z hz
    have : (z : ℚ) ≤ 0 := by exact_mod_cast hz
    linarith
  unfold lastDigit
  simp only [two_mul_r_lt_iff, lt_two_mul_r_iff]
  split_ifs with hlow hhigh heven
  · exact isLast_self (zero_mem_span_iff.mpr hzero) fun z hz _ =>
      .of_lt (lt_of_lt_of_le hlow (habove z hz))
  · exact isLast_succ hv ((one_mem_span_iff hv).mpr hone) fun z hz _ =>
      .of_lt (lt_of_le_of_lt (hbelow z hz) hhigh)
  · -- an exact tie, and `d` is even
    apply isLast_self (zero_mem_span_iff.mpr hzero)
    intro z hz _
    rw [decide_eq_true heven]
    exact le_trans (not_lt.mp hhigh) (habove z hz)
  · -- an exact tie, and `d + 1` is even
    apply isLast_succ hv ((one_mem_span_iff hv).mpr hone)
    intro z hz _
    rw [decide_eq_true (show (d + 1) % 2 = 0 by omega)]
    exact le_trans (hbelow z hz) (not_lt.mp hlow)

/-! ## All digits -/

/-- The digits `ds` are what is generated from the interval `c`. -/
structure Generated (b : ℕ) (c : Scale) (ds : List ℕ) : Prop where
  digits_lt : ∀ d ∈ ds, d < b
  last_pos : 0 < ds.getLastD 0
  mem : properFraction b ds ∈ c.span
  /-- No coarser grid meets the interval. -/
  coarser : ∀ m < ds.length, ∀ z : ℤ, (z / b ^ m : ℚ) ∉ c.span
  /-- On the grid of the digits nothing in the interval is nearer, and what is equally near is ruled
  out by an even last digit. -/
  nearest : ∀ z : ℤ, (z / b ^ ds.length : ℚ) ∈ c.span →
    (z / b ^ ds.length : ℚ) ≠ properFraction b ds →
    AtMost (ds.getLastD 0 % 2 = 0) |properFraction b ds - c.value| |z / b ^ ds.length - c.value|

theorem Generated.ne_nil {n : ℕ} (h : Generated n c ds) : ds ≠ [] := by
  rintro rfl
  exact absurd h.last_pos (by decide)

/-- A last digit for what is left of an interval is the only digit of the interval. -/
theorem Generated.singleton (hopen : Open c) (h : IsLast (rest b c) (digit b c) e) :
    Generated b.val c [e] := by
  have hb := radix_pos_rat b
  have hfrac : properFraction b.val [e] = e / b.val := by simp [properFraction]
  have hmem : (e / b.val : ℚ) ∈ c.span := by
    rw [mem_span_iff_rest b, div_mul_cancel₀ _ hb.ne']
    exact h.mem
  have hlt : e < b.val := by
    -- a last digit equal to the radix would be the whole number 1 in the interval
    have hdigit := hopen.digit_lt b
    have hle := h.le_succ
    rcases (show e ≤ b.val by omega).lt_or_eq with hlt | heq
    · exact hlt
    · have hone := hopen.not_mem 1
      rw [heq, div_self hb.ne'] at hmem
      exact absurd (by exact_mod_cast hmem) hone
  have hpos : 0 < e := by
    rcases Nat.eq_zero_or_pos e with rfl | hpos
    · have hzero := hopen.not_mem 0
      simp at hmem hzero
      exact absurd hmem hzero
    · exact hpos
  refine ⟨by simpa using hlt, by simpa using hpos, by rwa [hfrac], ?_, ?_⟩
  · intro m hm z
    obtain rfl : m = 0 := by simpa using hm
    simpa using hopen.not_mem z
  · intro z hz hne
    simp only [List.length_singleton, pow_one] at hz hne ⊢
    rw [mem_span_iff_rest b, div_mul_cancel₀ _ hb.ne'] at hz
    have hze : z ≠ e := by
      rintro rfl
      exact hne (by rw [hfrac]; simp)
    have hnear := h.nearest z hz hze
    have he := dist_rest b c (e / b.val)
    have hz' := dist_rest b c (z / b.val)
    rw [div_mul_cancel₀ _ hb.ne'] at he hz'
    rw [he, hz', atMost_mul_right hb] at hnear
    rw [hfrac]
    exact hnear

/-- The digits of what is left of an interval continue those of the interval. -/
theorem Generated.cons (hopen : Open c) (h : Generated b.val (rest b c) ds) :
    Generated b.val c (digit b c :: ds) := by
  have hb := radix_pos_rat b
  have hlast : (digit b c :: ds).getLastD 0 = ds.getLastD 0 := by
    have hpos := h.last_pos
    cases ds with
    | nil => simp at hpos
    | cons d ds => rfl
  have hfrac : properFraction b.val (digit b c :: ds) * b.val - digit b c =
      properFraction b.val ds := by
    rw [properFraction, div_mul_cancel₀ _ hb.ne']
    ring
  -- a point of a grid, after one step, is a point of the grid that is coarser by one digit
  have hgrid : ∀ (m : ℕ) (z : ℤ), (z / b.val ^ (m + 1) : ℚ) * b.val - digit b c =
      ((z - digit b c * b.val ^ m : ℤ) : ℚ) / b.val ^ m := by
    intro m z
    rw [pow_succ]
    push_cast
    field_simp
  refine ⟨?_, ?_, ?_, ?_, ?_⟩
  · intro d hd
    rcases List.mem_cons.mp hd with rfl | hd
    · exact hopen.digit_lt b
    · exact h.digits_lt d hd
  · rw [hlast]
    exact h.last_pos
  · rw [mem_span_iff_rest b, hfrac]
    exact h.mem
  · intro m hm z
    cases m with
    | zero =>
      -- no digits at all: the interval has no whole number
      simpa using hopen.not_mem z
    | succ m =>
      rw [mem_span_iff_rest b, hgrid]
      exact h.coarser m (by simpa using hm) _
  · intro z hz hne
    rw [List.length_cons] at hz hne ⊢
    rw [mem_span_iff_rest b, hgrid] at hz
    have hne' : ((z - digit b c * b.val ^ ds.length : ℤ) : ℚ) / b.val ^ ds.length ≠
        properFraction b.val ds := by
      rw [← hgrid, ← hfrac]
      intro heq
      exact hne (mul_right_cancel₀ hb.ne' (sub_left_inj.mp heq))
    have hnear := h.nearest _ hz hne'
    rw [← hgrid, ← hfrac, dist_rest, dist_rest, atMost_mul_right hb] at hnear
    rw [hlast]
    exact hnear

/-- What a run returns is generated from its interval. -/
theorem run_generated (hopen : Open c) (h : run b left c = .ok ds) : Generated b.val c ds := by
  induction left generalizing c ds with
  | zero => exact absurd h (by simp [run, Result.refuse])
  | succ left ih =>
    have hv := value_rest_lt_one b c
    rw [run_succ, if_neg (not_le.mpr (hopen.digit_lt b))] at h
    -- what is left of the interval has no whole number, and the run goes on, or it has 0 or 1 or both
    cases hzero : (rest b c).reachesZero <;> cases hone : (rest b c).reachesOne <;>
      simp only [hzero, hone] at h
    · cases hrun : run b left (rest b c) with
      | error f => simp [hrun, Except.map] at h
      | ok es =>
        simp only [hrun, Except.map, Except.ok.injEq] at h
        subst h
        exact .cons hopen (ih ⟨hzero, hone⟩ hrun)
    all_goals
      simp only [Except.ok.injEq] at h
      subst h
      apply Generated.singleton hopen
    · exact isLast_of_reachesOne hv (by simp [hzero]) hone
    · exact isLast_of_reachesZero hzero (by simp [hone])
    · exact isLast_lastDigit hv hzero hone

/-- A run ends with digits, unless the number of digits is used up; and then the interval is still no
wider than 1 after as many steps. Nothing else can go wrong. -/
theorem run_cases (b : Radix) (left : ℕ) (hopen : Open c) :
    (∃ ds, run b left c = .ok ds) ∨
      run b left c = Result.refuse (.tooManyDigits maxDigits) ∧
        (c.upper - c.lower) * b.val ^ left ≤ 1 := by
  induction left generalizing c with
  | zero =>
    right
    constructor
    · rfl
    · rw [pow_zero, mul_one]
      linarith [hopen.upper_le_one, hopen.lower_nonneg]
  | succ left ih =>
    rw [run_succ, if_neg (not_le.mpr (hopen.digit_lt b))]
    by_cases hnext : (rest b c).reachesZero = false ∧ (rest b c).reachesOne = false
    · -- no whole number in what is left: the run goes on, with an interval wider by the radix
      rcases hnext with ⟨hzero, hone⟩
      rw [hzero, hone]
      rcases ih ⟨hzero, hone⟩ with ⟨ds, hds⟩ | ⟨hrun, hwidth⟩
      · left
        exact ⟨digit b c :: ds, by simp [hds, Except.map]⟩
      · right
        constructor
        · rw [hrun]
          rfl
        · rw [upper_rest, lower_rest] at hwidth
          rw [pow_succ']
          linarith
    · left
      cases hzero : (rest b c).reachesZero <;> cases hone : (rest b c).reachesOne
      · exact absurd ⟨hzero, hone⟩ hnext
      · exact ⟨_, rfl⟩
      · exact ⟨_, rfl⟩
      · exact ⟨_, rfl⟩

/-- A run ends if its interval becomes wider than 1 within the digits that are left. -/
theorem run_ok (hopen : Open c) (hwide : 1 < (c.upper - c.lower) * b.val ^ left) :
    ∃ ds, run b left c = .ok ds := by
  rcases run_cases b left hopen with hds | ⟨-, hwidth⟩
  · exact hds
  · exact absurd hwide (not_lt.mpr hwidth)

/-! ## Only the ratios matter -/

theorem SameRatios.digit_eq (h : SameRatios c c') (b : Radix) : digit b c = digit b c' := by
  -- both digits are whole parts of the same number
  have h₁ := (Scale.rest b c).value_nonneg
  have h₂ := value_rest_lt_one b c
  have h₁' := (Scale.rest b c').value_nonneg
  have h₂' := value_rest_lt_one b c'
  rw [value_rest, h.value] at h₁ h₂
  rw [value_rest] at h₁' h₂'
  have hle : (digit b c : ℚ) < digit b c' + 1 := by linarith
  have hge : (digit b c' : ℚ) < digit b c + 1 := by linarith
  have hle : digit b c < digit b c' + 1 := by exact_mod_cast hle
  have hge : digit b c' < digit b c + 1 := by exact_mod_cast hge
  omega

theorem SameRatios.rest (h : SameRatios c c') (b : Radix) :
    SameRatios (Scale.rest b c) (Scale.rest b c') := by
  refine ⟨h.inclusive, ?_, ?_, ?_⟩
  · rw [value_rest, value_rest, h.value, h.digit_eq]
  · rw [lower_rest, lower_rest, h.lower, h.digit_eq]
  · rw [upper_rest, upper_rest, h.upper, h.digit_eq]

/-- A run gives the same digits, or fails in the same way, for all scales with the same ratios. -/
theorem SameRatios.run_eq (h : SameRatios c c') (b : Radix) (left : ℕ) :
    run b left c = run b left c' := by
  induction left generalizing c c' with
  | zero => rfl
  | succ left ih =>
    rw [run_succ, run_succ, h.digit_eq, (h.rest b).reachesZero_eq, (h.rest b).reachesOne_eq,
      (h.rest b).lastDigit_eq, ih (h.rest b)]

end Numerals.Scale
