import Numerals.Main
import Numerals.Proofs.Command.Values

/-!
# Settings and texts

Settings are validated apart from the layouts that they are for. Main statement: the two agree. With
settings that are accepted, such as all that a command loads, every double has a text. A finite
double can be without a text for two reasons only, and settings that give such a reason are not
accepted: the ECMA style in a radix other than ten, and a precision for which the list of digits
would be too long.
-/

namespace Numerals

/-! ## What is not accepted -/

namespace Settings

variable {s : Settings} {style : Style}

theorem validate_of_flaw {f : Flaw} (h : s.flaw? = some f) : s.validate = .error f.error := by
  rw [validate, h]

theorem flaw?_of_precision (hstyle : Style.ofName? s.style = some style)
    (hp : maxPrecision < s.precision) : s.flaw? = some (.precision s.precision) := by
  have hout : (s.precision < -1 || maxPrecision < s.precision : Bool) = true := by
    rw [decide_eq_true hp, Bool.or_true]
  unfold flaw?
  rw [hstyle]
  dsimp only
  rw [if_pos hout]

/-- The precision is looked at before the radix of the ECMA style. -/
theorem flaw?_of_ecma (hstyle : Style.ofName? s.style = some .ecma) (hp : -1 ≤ s.precision)
    (hlow : 2 ≤ s.radix) (hhigh : s.radix ≤ 36) (hten : s.radix ≠ 10) :
    s.flaw? = some (if maxPrecision < s.precision then .precision s.precision
      else .ecmaRadix s.radix) := by
  split_ifs with hmax
  · exact flaw?_of_precision hstyle hmax
  · have hin : ¬(s.precision < -1 || maxPrecision < s.precision : Bool) = true := by
      rw [Bool.or_eq_true, decide_eq_true_eq, decide_eq_true_eq]
      omega
    have hradix : ¬(s.radix < 2 || 36 < s.radix : Bool) = true := by
      rw [Bool.or_eq_true, decide_eq_true_eq, decide_eq_true_eq]
      omega
    have hecma : (Style.ecma = .ecma && s.radix ≠ 10 : Bool) = true := by
      rw [Bool.and_eq_true, decide_eq_true_eq, decide_eq_true_eq]
      exact ⟨rfl, hten⟩
    unfold flaw?
    rw [hstyle]
    dsimp only
    rw [if_neg hin, if_neg hradix, if_pos hecma]

end Settings

/-! ## What is accepted has a text -/

namespace Command

open Decomposition (ofBinary64)
open Layout (maxLength roundedLength)

theorem loadSettings_flaw? {env : Surroundings} {a : Arguments} {s : Settings}
    (h : loadSettings env a = .ok s) : s.flaw? = none := by
  cases hread : readSettings env a.config with
  | error e =>
    rw [loadSettings_of_error hread] at h
    cases h
  | ok c =>
    rw [loadSettings_of_ok hread] at h
    rcases Settings.mapError_validate_cases (override c a) with ⟨hvalid, hflaw⟩ | ⟨_, hrefused⟩
    · cases hvalid.symm.trans h
      exact hflaw
    · cases hrefused.symm.trans h

/-- Settings that are loaded are accepted, and with accepted settings every double has a text. If
only the style and the radix are known to be ones that there are, a finite double is without a text
exactly for one of two reasons, and each of them is reported by the validation as well. -/
theorem settings_render (s : Settings) :
    (∀ env a, loadSettings env a = .ok s → s.validate = .ok s) ∧
    (s.validate = .ok s → ∀ x, ∃ t, ((ofBinary64 x).render s.radix s.options).recover = .ok t) ∧
    (2 ≤ s.radix → s.radix ≤ 36 → -1 ≤ s.precision →
      ∀ style, Style.ofName? s.style = some style → ∀ x : Binary64, x.isFinite →
      ∃ ds, Digits.generate (ofBinary64 x) s.radix = .ok ds ∧
        ((∃ e, (ofBinary64 x).render s.radix s.options = .error e) →
          style = .ecma ∧ s.radix ≠ 10 ∨ maxLength < roundedLength style s.precision ds) ∧
        (style = .ecma ∧ s.radix ≠ 10 →
          (ofBinary64 x).render s.radix s.options = .error (.returned (.decimalOnly s.radix)) ∧
          s.validate = .error (Settings.Flaw.error
            (if Settings.maxPrecision < s.precision then .precision s.precision
              else .ecmaRadix s.radix))) ∧
        (maxLength < roundedLength style s.precision ds →
          (∃ n, (ofBinary64 x).render s.radix s.options = .error (.raised (.listTooLong n))) ∧
          s.validate = .error (Settings.Flaw.error (.precision s.precision)))) := by
  refine ⟨fun env a h => Settings.validate_eq_ok_iff.mpr (loadSettings_flaw? h), ?_, ?_⟩
  · intro hs x
    rcases Decomposition.exists_render (Settings.validate_eq_ok_iff.mp hs) x with ⟨t, ht⟩
    rw [ht]
    exact ⟨t, rfl⟩
  · intro hlow hhigh hp style hstyle x hx
    rcases Radix.exists_of_mem hlow hhigh with ⟨b, hb⟩
    rcases Decomposition.generate_bounded hx b with ⟨ds, hds, hbounded⟩
    have hoptions : s.options = ⟨style, s.precision⟩ := by
      rw [Settings.options, hstyle]
      rfl
    have hnamed : style ∈ Style.named := List.mem_of_find?_eq_some hstyle
    have hrender : (ofBinary64 x).render s.radix s.options =
        ds.render x.isNegative ⟨style, s.precision⟩ := by
      rw [hb, Decomposition.render_of_isFinite hx _ hds, hoptions]
    rw [hrender]
    refine ⟨ds, by rw [hb, hds], ?_, ?_, ?_⟩
    · rintro ⟨e, he⟩
      by_contra hnone
      rw [not_or, not_and_not_right, not_lt] at hnone
      rcases hnone with ⟨hecma, hroom⟩
      have hten : style = .ecma → b.val = 10 := by
        intro hstyle
        have := hecma hstyle
        omega
      rcases Digits.exists_render (o := ⟨style, s.precision⟩) b.two_le b.le_max hbounded hnamed
        hroom hten x.isNegative with ⟨t, ht⟩
      rw [ht] at he
      cases he
    · rintro ⟨rfl, hten⟩
      constructor
      · rw [hb]
        exact Digits.render_ecma_eq_error b.two_le hbounded rfl (by omega) _
      · exact Settings.validate_of_flaw (Settings.flaw?_of_ecma hstyle hp hlow hhigh hten)
    · intro hlong
      constructor
      · exact Digits.render_eq_error_of_lt b.two_le hbounded hnamed hp hlong _
      · -- the list of a double is not much longer than the precision
        have hle := Layout.roundedLength_le hbounded style hp
        apply Settings.validate_of_flaw
        apply Settings.flaw?_of_precision hstyle
        unfold maxLength at hlong
        unfold Settings.maxPrecision
        omega

/-- A file with settings and arguments that change them, and the two reasons. -/
theorem settings_render_loaded :
    loadSettings (surroundings "" "" [("a", "precision: 1100\nradix: 16\n")])
        ⟨false, "a", some "FIXED", none, some 36, [], []⟩ = .ok ⟨"FIXED", 1100, 36, ""⟩ ∧
      (∀ x, ∃ t, ((ofBinary64 x).render 36 ⟨.fixed, 1100⟩).recover = .ok t) ∧
      (ofBinary64 ⟨0x3FF0000000000000⟩).render 16 ⟨.ecma, -1⟩ =
        .error (.returned (.decimalOnly 16)) ∧
      (Settings.mk "ecma" (-1) 16 "").validate = .error (Settings.Flaw.error (.ecmaRadix 16)) := by
  have hload : loadSettings (surroundings "" "" [("a", "precision: 1100\nradix: 16\n")])
      ⟨false, "a", some "FIXED", none, some 36, [], []⟩ = .ok ⟨"FIXED", 1100, 36, ""⟩ := by
    decide +kernel
  rcases settings_render ⟨"FIXED", 1100, 36, ""⟩ with ⟨haccepted, htexts, -⟩
  have htext := htexts (haccepted _ _ hload)
  rcases (settings_render ⟨"ecma", -1, 16, ""⟩).2.2 (by decide) (by decide) (by decide) .ecma
    (by decide) ⟨0x3FF0000000000000⟩ (by decide) with ⟨ds, -, -, hecma, -⟩
  exact ⟨hload, htext, hecma ⟨rfl, by decide⟩⟩

/-- The number 1 is without a text for a greater precision than any that is accepted, although the
style is not the ECMA one. -/
theorem render_crashes_of_precision :
    (Binary64.mk 0x3FF0000000000000).isFinite ∧ Style.ofName? "fixed" = some .fixed ∧
      (ofBinary64 ⟨0x3FF0000000000000⟩).render 10
          (Settings.mk "fixed" 9223372036854775807 10 "").options =
        .error (.raised (.listTooLong 9223372036854775809)) := by
  decide +kernel

end Command

end Numerals
