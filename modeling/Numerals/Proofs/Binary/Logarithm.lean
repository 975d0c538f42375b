import Numerals.Layout.Display
import Numerals.Proofs.Binary.Encoding

/-!
# The floor logarithm

The search for the floor of the binary logarithm narrows a bracket of exponents. The middle of the
bracket is rounded up, so that every round at least halves the distance of its ends, down to a
single exponent. Main statement: this takes twelve rounds for a positive finite double, the exponent
is the floor of its logarithm, and every other double raises a fault.
-/

namespace Numerals

/-! ## The search -/

namespace FloatValue

variable (v : FloatValue) {lo hi : ℤ}

/-- One round of the search: the half of the bracket from `b.1` to `b.2` that has the logarithm. A
bracket of one exponent stays as it is. -/
def narrow (b : ℤ × ℤ) : ℤ × ℤ :=
  if b.1 < b.2 then
    let mid := b.1 + (b.2 - b.1 + 1) / 2
    if v.atLeastTwoPow mid then (mid, b.2) else (b.1, mid - 1)
  else b

/-- A round keeps the order of the ends and halves their distance. -/
theorem narrow_halves (h : lo ≤ hi) :
    (v.narrow (lo, hi)).1 ≤ (v.narrow (lo, hi)).2 ∧
      2 * ((v.narrow (lo, hi)).2 - (v.narrow (lo, hi)).1) ≤ hi - lo := by
  unfold narrow
  dsimp only
  split_ifs with hlt hmid
  · -- the upper half has the middle itself
    constructor <;> dsimp only <;> omega
  · -- the lower half has not
    constructor <;> dsimp only <;> omega
  · constructor
    · exact h
    · dsimp only
      omega

/-- The search goes on from the narrowed bracket. -/
theorem searchLog2_narrow :
    v.searchLog2 (v.narrow (lo, hi)).1 (v.narrow (lo, hi)).2 = v.searchLog2 lo hi := by
  rw [searchLog2.eq_def v lo hi]
  unfold narrow
  dsimp only
  split_ifs with hlt hmid
  · rfl
  · rfl
  · rw [searchLog2, if_neg hlt]

/-- After enough rounds only the exponent that the search finds is left. -/
theorem iterate_narrow {n : ℕ} (h : lo ≤ hi) (hn : hi - lo < 2 ^ n) :
    v.narrow^[n] (lo, hi) = (v.searchLog2 lo hi, v.searchLog2 lo hi) := by
  induction n generalizing lo hi with
  | zero =>
    have heq : hi = lo := by
      rw [pow_zero] at hn
      omega
    subst heq
    rw [searchLog2, if_neg (lt_irrefl hi)]
    rfl
  | succ n ih =>
    rcases v.narrow_halves h with ⟨hle, hhalf⟩
    have hn' : (v.narrow (lo, hi)).2 - (v.narrow (lo, hi)).1 < 2 ^ n := by
      rw [pow_succ] at hn
      omega
    rw [Function.iterate_succ_apply, ih hle hn', searchLog2_narrow]

end FloatValue

/-! ## The logarithm of a double -/

namespace Binary64

open FloatFormat (binary64)

variable {x : Binary64}

theorem rank_pos_of_toRat (hx : x.isFinite) (hpos : 0 < x.toRat) :
    x.isNegative = false ∧ 0 < x.rank := by
  rw [toRat_of_isFinite hx] at hpos
  have hnonneg := binary64.rankValue_nonneg x.rank
  constructor
  · by_contra hneg
    rw [Bool.not_eq_false] at hneg
    rw [hneg, if_pos rfl] at hpos
    linarith
  · rw [Nat.pos_iff_ne_zero]
    intro hzero
    have hvalue : binary64.rankValue 0 = (0 : ℕ) * 2 ^ (-1074 : ℤ) := rfl
    rw [hzero, hvalue, Nat.cast_zero, zero_mul, mul_zero] at hpos
    exact lt_irrefl 0 hpos

theorem log2_of_pos (hx : x.isFinite) (hpos : 0 < x.toRat) : x.log2 = .ok x.value.floorLog2 := by
  rcases rank_pos_of_toRat hx hpos with ⟨hneg, hrank⟩
  unfold log2
  rw [value_of_rank_lt (isFinite_iff.mp hx), hneg]
  dsimp only
  rw [if_neg (Decomposition.rankMantissa_pos hrank).ne']

theorem log2_of_not_pos (h : ¬(x.isFinite ∧ 0 < x.toRat)) :
    x.log2 = .error (.raised (.logarithm x.display)) := by
  unfold log2
  cases hvalue : x.value with
  | nan => rfl
  | infinite negative => rfl
  | finite negative m e =>
    cases negative with
    | true => rfl
    | false =>
      dsimp only
      split_ifs with hm
      · rfl
      · exfalso
        apply h
        constructor
        · simp [isFinite, isNaN, isInfinite, hvalue]
        · have hmq : (0 : ℚ) < m := by exact_mod_cast Nat.pos_of_ne_zero hm
          rw [toRat, hvalue, FloatValue.toRat, if_neg Bool.false_ne_true, one_mul]
          positivity

/-- The logarithm of a positive finite double is found in twelve rounds of narrowing, and is the
exponent of the greatest power of two that is not above the double. Every other double raises a
fault. -/
theorem log2_exact (x : Binary64) :
    (x.isFinite → 0 < x.toRat →
      ∃ l, x.log2 = .ok l ∧ x.value.narrow^[12] (-1074, 1023) = (l, l) ∧ -1074 ≤ l ∧ l ≤ 1023 ∧
        (2 : ℚ) ^ l ≤ x.toRat ∧ x.toRat < 2 ^ (l + 1)) ∧
    (¬(x.isFinite ∧ 0 < x.toRat) →
      ∃ f, x.log2 = .error (.raised f) ∧ f.category = .invalidArgument) := by
  constructor
  · intro hx hpos
    rcases rank_pos_of_toRat hx hpos with ⟨hneg, hrank⟩
    have hfinite := isFinite_iff.mp hx
    have hrat : x.toRat = binary64.rankValue x.rank := toRat_of_nonneg hx hneg
    have hlow := FloatFormat.two_zpow_le_rankValue hrank
    have hhigh := FloatFormat.rankValue_lt_two_zpow hfinite
    have hvalue := value_of_rank_lt hfinite
    have hspec := FloatValue.floorLog2_spec x.isNegative hlow hhigh
    rw [← hvalue] at hspec
    change (2 : ℚ) ^ x.value.floorLog2 ≤ binary64.rankValue x.rank ∧
      binary64.rankValue x.rank < 2 ^ (x.value.floorLog2 + 1) at hspec
    rw [← hrat] at hlow hhigh hspec
    rcases hspec with ⟨hle, hlt⟩
    refine ⟨x.value.floorLog2, log2_of_pos hx hpos, ?_, ?_, ?_, hle, hlt⟩
    · exact x.value.iterate_narrow (by decide) (by decide)
    · have := (zpow_lt_zpow_iff_right₀ one_lt_two).mp (lt_of_le_of_lt hlow hlt)
      omega
    · have := (zpow_lt_zpow_iff_right₀ one_lt_two).mp (lt_of_le_of_lt hle hhigh)
      omega
  · intro h
    exact ⟨_, log2_of_not_pos h, rfl⟩

/-- The least positive double, the greatest double below 1, and the negative zero. -/
theorem log2_exact_borders :
    (∃ l, (Binary64.mk 1).log2 = .ok l ∧
        (Binary64.mk 1).value.narrow^[12] (-1074, 1023) = (l, l) ∧ -1074 ≤ l ∧ l ≤ 1023 ∧
        (2 : ℚ) ^ l ≤ (Binary64.mk 1).toRat ∧ (Binary64.mk 1).toRat < 2 ^ (l + 1)) ∧
      (Binary64.mk 1).log2 = .ok (-1074) ∧ (Binary64.mk 0x3FEFFFFFFFFFFFFF).log2 = .ok (-1) ∧
      ∃ f, (Binary64.mk 0x8000000000000000).log2 = .error (.raised f) ∧
        f.category = .invalidArgument := by
  have hfinite : (Binary64.mk 1).isFinite := by decide
  have hpos : 0 < (Binary64.mk 1).toRat := by
    rw [toRat_of_nonneg hfinite (by decide)]
    exact binary64.rankValue_pos (by decide)
  refine ⟨(log2_exact _).1 hfinite hpos, by decide +kernel, by decide +kernel, ?_⟩
  apply (log2_exact _).2
  rintro ⟨hx, hzero⟩
  exact absurd (rank_pos_of_toRat hx hzero).2 (by decide)

end Binary64

end Numerals
