import Numerals.Proofs.Binary.Words

/-!
# Correct rounding to doubles

A finite double is what a correctly rounding reader finds for a number `q` if no finite double is
nearer to `q`, if its last bit is zero whenever another one is equally near, and if `q` does not
reach the half-way point past the largest finite double. Main statements: that is so exactly for the
numbers in the interval of its rank, and `encodeRatio` is such a reader.
-/

namespace Numerals.Binary64

open FloatFormat (binary64)

variable {x : Binary64} {q : ℚ}

/-- `x` is the double that rounding half to even assigns to `q`. -/
structure IsNearest (x : Binary64) (q : ℚ) : Prop where
  finite : x.isFinite
  nearest : ∀ y : Binary64, y.isFinite → |x.toRat - q| ≤ |y.toRat - q|
  even : ∀ y : Binary64, y.isFinite → y.toRat ≠ x.toRat → |y.toRat - q| = |x.toRat - q| →
    x.bits.toNat % 2 = 0
  inRange : |q| < 2 ^ 1024 - 2 ^ 970

/-- The half-way point past the largest finite double. -/
theorem midpoint_last : binary64.midpoint (binary64.infinityWord - 1) = 2 ^ 1024 - 2 ^ 970 := by
  have hlast : binary64.rankValue (binary64.infinityWord - 1) = (2 ^ 53 - 1 : ℕ) * 2 ^ (971 : ℤ) :=
    rfl
  have hinf : binary64.rankValue (binary64.infinityWord - 1 + 1) = (2 ^ 52 : ℕ) * 2 ^ (972 : ℤ) :=
    rfl
  have h₁ : (2 : ℚ) ^ (971 : ℤ) = 2 ^ 970 * 2 := by rw [← pow_succ]; rfl
  have h₂ : (2 : ℚ) ^ (972 : ℤ) = 2 ^ 970 * 2 ^ 2 := by rw [← pow_add]; rfl
  have h₃ : (2 : ℚ) ^ 1024 = 2 ^ 970 * 2 ^ 54 := by rw [← pow_add]
  rw [FloatFormat.midpoint, hlast, hinf, h₁, h₂, h₃]
  generalize (2 : ℚ) ^ 970 = u
  push_cast
  ring

/-- No finite double lies strictly between the values of neighbouring ranks. -/
theorem toRat_cases (hx : x.isFinite) (w : ℕ) :
    x.toRat ≤ binary64.rankValue (w - 1) ∨ x.toRat = binary64.rankValue w ∨
      binary64.rankValue (w + 1) ≤ x.toRat := by
  have hmono := binary64.rankValue_strictMono.monotone
  rw [toRat_of_isFinite hx]
  cases x.isNegative
  · rw [if_neg (by simp), one_mul]
    rcases Nat.lt_trichotomy x.rank w with h | h | h
    · exact .inl (hmono (by omega))
    · exact .inr (.inl (by rw [h]))
    · exact .inr (.inr (hmono (by omega)))
  · left
    have h₁ := binary64.rankValue_nonneg x.rank
    have h₂ := binary64.rankValue_nonneg (w - 1)
    rw [if_pos rfl]
    linarith

theorem toRat_of_nonneg (hx : x.isFinite) (hneg : x.isNegative = false) :
    x.toRat = binary64.rankValue x.rank := by
  rw [toRat_of_isFinite hx, hneg]
  simp

theorem isFinite_ofRank {w : ℕ} (hw : w < binary64.infinityWord) : (ofRank w).isFinite := by
  rw [isFinite_iff, rank_ofRank (hw.trans binary64.infinityWord_lt_signWord)]
  exact hw

theorem toRat_ofRank {w : ℕ} (hw : w < binary64.infinityWord) :
    (ofRank w).toRat = binary64.rankValue w := by
  have hs := hw.trans binary64.infinityWord_lt_signWord
  rw [toRat_of_nonneg (isFinite_ofRank hw) (isNegative_ofRank hs), rank_ofRank hs]

/-- A number in the interval of a rank is nearer to the datum of that rank than to any other; it may
be equally near only if the rank is even. -/
theorem atMost_dist_of_mem {w : ℕ} (hq : q ∈ binary64.rankInterval w) (hx : x.isFinite)
    (hne : x.toRat ≠ binary64.rankValue w) :
    AtMost (w % 2 = 0) |binary64.rankValue w - q| |x.toRat - q| := by
  rcases lt_or_gt_of_ne hne with hlt | hgt
  · rw [atMost_dist_of_lt hlt]
    refine AtMost.of_le ?_ hq.1
    have hle : x.toRat ≤ binary64.rankValue (w - 1) := by
      rcases toRat_cases hx w with h | h | h
      · exact h
      · exact absurd h hne
      · linarith [binary64.rankValue_lt_succ w]
    unfold FloatFormat.lowerEnd
    linarith
  · rw [atMost_dist_of_gt hgt]
    refine hq.2.trans_le ?_
    have hge : binary64.rankValue (w + 1) ≤ x.toRat := by
      rcases toRat_cases hx w with h | h | h
      · linarith [binary64.rankValue_strictMono.monotone (Nat.sub_le w 1)]
      · exact absurd h hne
      · exact h
    unfold FloatFormat.midpoint
    linarith

theorem nonneg_of_mem_rankInterval {w : ℕ} (hq : q ∈ binary64.rankInterval w) : 0 ≤ q := by
  have h₁ := binary64.rankValue_nonneg (w - 1)
  have h₂ := binary64.rankValue_nonneg w
  have h₃ : (binary64.rankValue (w - 1) + binary64.rankValue w) / 2 ≤ q := hq.1.le
  linarith

/-- The interval of a finite rank ends before the half-way point past the largest finite double. -/
theorem lt_of_mem_rankInterval {w : ℕ} (hw : w < binary64.infinityWord)
    (hq : q ∈ binary64.rankInterval w) : q < 2 ^ 1024 - 2 ^ 970 := by
  rw [← midpoint_last]
  rcases (show w ≤ binary64.infinityWord - 1 by omega).lt_or_eq with hlt | heq
  · exact lt_of_le_of_lt hq.2.le (binary64.midpoint_strictMono hlt)
  · -- the last finite rank is odd, so that its upper end is excluded
    have hup := hq.2
    have heven : binary64.infinityWord % 2 = 0 := by decide
    rw [decide_eq_false (show w % 2 ≠ 0 by omega), heq] at hup
    exact hup

theorem isNearest_of_mem (hx : x.isFinite) (hneg : x.isNegative = false)
    (hq : q ∈ binary64.rankInterval x.rank) : x.IsNearest q := by
  have hbits : x.bits.toNat = x.rank := isNegative_eq_false_iff.mp hneg
  have hval := toRat_of_nonneg hx hneg
  refine ⟨hx, ?_, ?_, ?_⟩
  · intro y hy
    by_cases hne : y.toRat = x.toRat
    · rw [hne]
    · rw [hval] at hne ⊢
      exact (atMost_dist_of_mem hq hy hne).le
  · intro y hy hne heq
    rw [hval] at hne heq
    rw [hbits]
    exact of_decide_eq_true ((atMost_iff.mp (atMost_dist_of_mem hq hy hne)).2 heq)
  · rw [abs_of_nonneg (nonneg_of_mem_rankInterval hq)]
    exact lt_of_mem_rankInterval (isFinite_iff.mp hx) hq

theorem mem_of_isNearest (hneg : x.isNegative = false) (hpos : 0 < x.rank) (h : x.IsNearest q) :
    q ∈ binary64.rankInterval x.rank := by
  have hbits : x.bits.toNat = x.rank := isNegative_eq_false_iff.mp hneg
  have hval := toRat_of_nonneg h.finite hneg
  have hrank := isFinite_iff.mp h.finite
  -- what is known of another finite rank is one comparison of distances
  have hdist : ∀ w, w < binary64.infinityWord → w ≠ x.rank →
      AtMost (x.rank % 2 = 0) |binary64.rankValue x.rank - q| |binary64.rankValue w - q| := by
    intro w hw hne
    have hle := h.nearest _ (isFinite_ofRank hw)
    have heven := h.even _ (isFinite_ofRank hw)
    rw [hval, toRat_ofRank hw] at hle heven
    rw [hbits] at heven
    exact atMost_iff.mpr ⟨hle, fun heq => decide_eq_true
      (heven (binary64.rankValue_strictMono.injective.ne hne) heq)⟩
  constructor
  · have hlt : binary64.rankValue (x.rank - 1) < binary64.rankValue x.rank :=
      binary64.rankValue_strictMono (by omega)
    exact (atMost_dist_of_lt hlt).mp (hdist (x.rank - 1) (by omega) (by omega))
  · rcases (show x.rank + 1 ≤ binary64.infinityWord by omega).lt_or_eq with hlt | heq
    · exact (atMost_dist_of_gt (binary64.rankValue_lt_succ x.rank)).mp
        (hdist (x.rank + 1) hlt (by omega))
    · have hend : x.rank = binary64.infinityWord - 1 := by omega
      apply AtMost.of_lt
      rw [hend, midpoint_last]
      exact lt_of_le_of_lt (le_abs_self q) h.inRange

/-- A positive double is the nearest one to exactly the numbers in the interval of its rank. -/
theorem isNearest_iff (hx : x.isFinite) (hneg : x.isNegative = false) (hpos : 0 < x.rank) :
    x.IsNearest q ↔ q ∈ binary64.rankInterval x.rank :=
  ⟨mem_of_isNearest hneg hpos, isNearest_of_mem hx hneg⟩

/-- The word that `encodeRatio` finds for a ratio in the interval of a finite rank. -/
theorem encodeRatio_of_mem {n d w : ℕ} (hd : 0 < d) (hw : w < binary64.infinityWord)
    (hq : (n / d : ℚ) ∈ binary64.rankInterval w) (negative : Bool) :
    binary64.encodeRatio negative n d = (binary64.withSign negative w, false) := by
  have hrank : binary64.nearestRank n d = w :=
    (binary64.nearestRank_eq_iff (by decide) hd).mpr hq
  unfold FloatFormat.encodeRatio
  rw [hrank]
  exact if_neg (by omega)

end Numerals.Binary64
