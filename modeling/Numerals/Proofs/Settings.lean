import Numerals.Settings.Decode

/-!
# Settings from texts

The default settings are valid. What becomes of settings in a text is said for any format of the
text: `Format.Crashes` is all that need be known of it. A text on which the format does not crash
gives settings, or is refused with an error of the settings.
-/

namespace Numerals.Settings

variable {s : Settings} {f : Format} {text : String} {e : Error}

/-! ## Valid settings -/

theorem flaw?_default (home : String) : (Settings.default home).flaw? = none := by
  have hstyle : Style.ofName? Style.general.name = some .general := by decide
  unfold flaw? Settings.default
  dsimp only
  rw [hstyle]
  rfl

theorem options_default (home : String) : (Settings.default home).options = .default := by
  have hstyle : Style.ofName? Style.general.name = some .general := by decide
  unfold options Settings.default
  dsimp only
  rw [hstyle]
  rfl

/-- Settings are accepted as they are, or refused for a flaw. -/
theorem mapError_validate_cases (s : Settings) :
    s.validate.mapError Failure.returned = .ok s ∧ s.flaw? = none ∨
      ∃ cause, s.validate.mapError Failure.returned = .error (.returned (.settings cause)) := by
  unfold validate
  cases hflaw : s.flaw? with
  | none => exact .inl ⟨rfl, rfl⟩
  | some flaw => exact .inr ⟨_, rfl⟩

/-! ## Texts -/

/-- The format crashes with `e` on the text, on its first document or on what comes after it. -/
inductive Format.Crashes (f : Format) (s : Settings) (text : String) (e : Error) : Prop
  | first (h : f.first s text = .crashed e)
  | second (hfirst : f.first s text = .nothing ∨ ∃ s', f.first s text = .document s')
    (h : f.second text = .crashed e)

theorem decode_of_crashes (h : f.Crashes s text e) : s.decode f text = .error (.raised e) := by
  unfold decode
  cases h with
  | first hfirst =>
    rw [hfirst]
    rfl
  | second hfirst hsecond =>
    rcases hfirst with hfirst | ⟨s', hfirst⟩
    · rw [hfirst, hsecond]
      rfl
    · rw [hfirst, hsecond]
      rfl

/-- Where the format does not crash, a text gives settings or is refused. -/
theorem decode_cases (h : ∀ e, ¬f.Crashes s text e) :
    (∃ s', s.decode f text = .ok s') ∨
      ∃ cause, s.decode f text = .error (.returned (.settings cause)) := by
  unfold decode
  cases hfirst : f.first s text with
  | refused reason => exact .inr ⟨_, rfl⟩
  | crashed e => exact absurd (.first hfirst) (h e)
  | _ =>
    cases hsecond : f.second text with
    | document => exact .inr ⟨_, rfl⟩
    | refused reason => exact .inr ⟨_, rfl⟩
    | crashed e => exact absurd (.second (by simp [hfirst]) hsecond) (h e)
    | nothing =>
      rcases mapError_validate_cases _ with ⟨hvalid, -⟩ | hrefused
      · exact .inl ⟨_, hvalid⟩
      · exact .inr hrefused

end Numerals.Settings
