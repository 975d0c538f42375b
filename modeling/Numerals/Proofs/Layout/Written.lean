import Numerals.Proofs.Layout.RoundTrip
import Numerals.Settings.Basic

/-!
# Digits of doubles in every radix

The digits of a finite double other than zero begin with a digit other than 0, and their exponent
lies between those of the least and of the largest double, in every radix. Settings without flaw
name such a radix.
-/

namespace Numerals

open FloatFormat (binary64)

/-- Digits in base `b` that do not begin with 0, with an exponent that doubles have. -/
structure Digits.Written (b : ℕ) (ds : Digits) : Prop where
  radix : ds.radix = b
  below : Layout.DigitsBelow b ds.digits
  head : ds.digits.head? ≠ some 0
  lower : -1074 < ds.exponent
  upper : ds.exponent ≤ 1025

namespace Decomposition

variable {x : Binary64}

/-- A finite double other than zero has digits in every radix, and these identify its rank. -/
theorem generate_written (hx : x.isFinite) (hz : x.isZero = false) (b : Radix) :
    ∃ ds, Digits.generate (ofBinary64 x) b.val = .ok ds ∧ ds.Written b.val ∧
      ds.value ∈ binary64.rankInterval x.rank := by
  obtain ⟨k, ds, hscale, hgen, hrun, -⟩ := generate_generated hx hz b
  obtain ⟨hk, hk'⟩ := exponent_bounds hx hz hscale
  have hmem := value_mem_roundingInterval hgen
  rw [roundingInterval_eq hx hz] at hmem
  refine ⟨_, hrun, ⟨rfl, hgen.digitsBelow, ?_, hk, hk'⟩, hmem⟩
  -- the first digit is positive as a number, and so is its byte
  obtain ⟨d, es, rfl, hd⟩ := hgen.head_pos hscale.one_le_upper
  have hbyte := Digits.toNat_digits hgen.digits_lt
  intro hhead
  simp only [List.map_cons, List.head?_cons, Option.some.injEq] at hhead hbyte
  rw [hhead] at hbyte
  have hzero := (List.cons.inj hbyte).1
  rw [← hzero] at hd
  exact absurd hd (by decide)

end Decomposition

theorem Radix.exists_of_mem {n : ℤ} (hlow : 2 ≤ n) (hhigh : n ≤ 36) : ∃ b : Radix, n = b.val := by
  refine ⟨⟨n.toNat, by omega, by omega⟩, ?_⟩
  change n = n.toNat
  omega

namespace Settings

/-- What settings without flaw promise. -/
structure Valid (s : Settings) : Prop where
  style : s.options.style ∈ Style.named
  precision : -1 ≤ s.precision ∧ s.precision ≤ maxPrecision
  radix : ∃ b : Radix, s.radix = b.val
  ecma : s.options.style = .ecma → s.radix = 10

theorem validate_eq_ok_iff {s : Settings} : s.validate = .ok s ↔ s.flaw? = none := by
  unfold validate
  cases s.flaw? with
  | none => exact iff_of_true rfl rfl
  | some f => exact iff_of_false nofun nofun

theorem valid_of_flaw?_eq_none {s : Settings} (h : s.flaw? = none) : s.Valid := by
  unfold flaw? at h
  split at h
  · cases h
  · rename_i style hstyle
    split_ifs at h with hprecision hradix hecma
    simp only [Bool.or_eq_true, Bool.and_eq_true, decide_eq_true_eq, not_or, not_lt, not_and,
      not_not] at hprecision hradix hecma
    have hoptions : s.options.style = style := by simp [options, hstyle]
    refine ⟨?_, hprecision, Radix.exists_of_mem hradix.1 hradix.2, ?_⟩
    · rw [hoptions]
      exact List.mem_of_find?_eq_some hstyle
    · rw [hoptions]
      exact hecma

end Settings

end Numerals
