import Numerals.Proofs.Command.Values

/-!
# Commands return

Whether or not their streams have limits, the commands on values return an exit code: what fails is
reported, and a report that fails changes the exit code only. The one exception are the files with
settings on which their format crashes.
-/

namespace Numerals.Command

variable {α β : Type} {env : Surroundings} {name : String} {args vs : List String} {t t' : Traces}

/-! ## Computations -/

/-- On all streams the computation returns, and what it returns has the property `P`. -/
def Run.Returns (r : Run α) (P : α → Prop) : Prop :=
  ∀ t, ∃ a t', r.outcome t = (.ok a, t') ∧ P a

/-- On all streams the computation returns something. -/
def Run.Ends (r : Run α) : Prop :=
  r.Returns fun _ => True

theorem returns_pure {a : α} {P : α → Prop} (ha : P a) : Run.Returns (pure a) P := by
  intro t
  exact ⟨a, t, rfl, ha⟩

theorem ends_pure (a : α) : Run.Ends (pure a) :=
  returns_pure trivial

theorem Run.Returns.bind {r : Run α} {f : α → Run β} {P : α → Prop} {Q : β → Prop}
    (hr : r.Returns P) (hf : ∀ a, P a → (f a).Returns Q) : Run.Returns (r >>= f) Q := by
  intro t
  rcases hr t with ⟨a, t', hout, ha⟩
  rcases hf a ha t' with ⟨b, t'', hout', hb⟩
  exact ⟨b, t'', by rw [outcome_bind hout, hout'], hb⟩

theorem Run.Ends.bind {r : Run α} {f : α → Run β} {Q : β → Prop} (hr : r.Ends)
    (hf : ∀ a, (f a).Returns Q) : Run.Returns (r >>= f) Q :=
  Run.Returns.bind hr fun a _ => hf a

theorem outcome_map {r : Run α} {a : α} (f : α → β) (h : r.outcome t = (.ok a, t')) :
    Run.outcome (f <$> r) t = (.ok (f a), t') := by
  rw [map_eq_pure_bind, outcome_bind h]
  rfl

theorem outcome_bind_error {r : Run α} {e : Error} (f : α → Run β)
    (h : r.outcome t = (.error e, t')) : Run.outcome (r >>= f) t = (.error e, t') := by
  unfold Run.outcome at h ⊢
  rw [ExceptT.run_bind, StateT.run_bind, h]
  rfl

theorem outcome_map_error {r : Run α} {e : Error} (f : α → β)
    (h : r.outcome t = (.error e, t')) : Run.outcome (f <$> r) t = (.error e, t') := by
  rw [map_eq_pure_bind]
  exact outcome_bind_error _ h

/-- What follows a computation depends on its outcome only. -/
theorem outcome_bind_congr {r r' : Run α} (f : α → Run β) (h : r.outcome t = r'.outcome t') :
    Run.outcome (r >>= f) t = Run.outcome (r' >>= f) t' := by
  unfold Run.outcome at h ⊢
  rw [ExceptT.run_bind, ExceptT.run_bind, StateT.run_bind, StateT.run_bind, h]

theorem outcome_discard {r : Run α} {a : α} (h : r.outcome t = (.ok a, t')) :
    Run.outcome (discard r) t = (.ok ⟨⟩, t') :=
  outcome_map _ h

theorem Run.Ends.discard {r : Run α} (hr : r.Ends) : Run.Ends (discard r) := by
  intro t
  rcases hr t with ⟨a, t', hout, -⟩
  exact ⟨⟨⟩, t', outcome_discard hout, trivial⟩

theorem Run.Returns.map {r : Run α} {P : α → Prop} {Q : β → Prop} {f : α → β} (hr : r.Returns P)
    (hf : ∀ a, P a → Q (f a)) : Run.Returns (f <$> r) Q := by
  intro t
  rcases hr t with ⟨a, t', hout, ha⟩
  exact ⟨f a, t', outcome_map f hout, hf a ha⟩

theorem ends_writeOut (s : String) : (writeOut s).Ends := by
  intro t
  unfold writeOut
  rw [outcome_bind (outcome_get t)]
  cases t.out.write s with
  | none => exact ⟨false, t, rfl, trivial⟩
  | some out => exact ⟨true, _, rfl, trivial⟩

theorem ends_writeErr (s : String) : (writeErr s).Ends := by
  intro t
  unfold writeErr
  rw [outcome_bind (outcome_get t)]
  cases t.err.write s with
  | none => exact ⟨false, t, rfl, trivial⟩
  | some err => exact ⟨true, _, rfl, trivial⟩

theorem ends_fail (code : ℕ) (message : String) : (fail code message).Ends := by
  unfold fail
  apply (ends_writeErr message).bind
  intro written
  cases written
  · exact ends_pure exitInternal
  · exact ends_pure code

theorem ends_report (e : Error) : (report e).Ends :=
  ends_fail e.exitCode e.report

theorem ends_help (code : ℕ) (lines : List String) : (help code lines).Ends := by
  induction lines with
  | nil => exact ends_pure code
  | cons line lines ih =>
    unfold help
    apply (ends_writeErr _).bind
    intro written
    cases written
    · exact ends_pure exitInternal
    · exact ih

/-- Lines end if no value raises a fault. -/
theorem ends_eachLine {line : String → Result String}
    (hline : ∀ v ∈ vs, RefusedOnlyFor (line v) fun _ => True) : (eachLine line vs).Ends := by
  induction vs with
  | nil => exact ends_pure exitSuccess
  | cons v vs ih =>
    unfold eachLine
    rcases hline v List.mem_cons_self with ⟨text, htext⟩ | ⟨f, -, hf⟩
    · rw [htext]
      apply (ends_writeOut text).bind
      intro written
      cases written
      · exact ends_fail _ _
      · exact ih fun w hw => hline w (List.mem_cons_of_mem v hw)
    · rw [hf]
      exact ends_report (.fault f)

/-! ## Commands -/

theorem ends_withArguments {lines : List String} {go : Arguments → Run ℕ}
    (hgo : ∀ a, Arguments.parse args = .ok a → a.help = false → (go a).Ends) :
    (withArguments args lines go).Ends := by
  unfold withArguments
  cases ha : Arguments.parse args with
  | error e => exact ends_fail _ _
  | ok a =>
    dsimp only
    cases hhelp : a.help with
    | true => exact ends_help _ _
    | false => exact hgo a ha hhelp

theorem ends_onlyWith {a : Arguments} {allowed : List Flag} {go : Run ℕ} (command : String)
    (hgo : a.misplaced? allowed = none → go.Ends) : (onlyWith a command allowed go).Ends := by
  unfold onlyWith
  cases hflag : a.misplaced? allowed with
  | none => exact hgo hflag
  | some f => exact ends_report _

theorem runShow_ends (h : ∀ e, ¬ReadsCrashingFile env ("show" :: args) e) :
    (runShow env args).Ends := by
  unfold runShow
  apply ends_withArguments
  intro a ha hhelp
  have hfile (e : Error) : ¬IsCrashingFile env a.config e :=
    fun hfile => h e ⟨_, _, a, rfl, ha, hhelp, .inl rfl, hfile⟩
  rcases loadSettings_cases hfile with ⟨c, hload, hc⟩ | ⟨cause, hload⟩
  · rw [hload]
    dsimp only
    cases showValues env.input a.positional with
    | error message => exact ends_fail _ _
    | ok values =>
      apply ends_eachLine
      intro v _
      exact (showLine_refused hc v).mono fun _ _ => trivial
  · rw [hload]
    exact ends_report _

theorem runDigits_ends (h : ∀ e, ¬ReadsCrashingFile env ("digits" :: args) e) :
    (runDigits env args).Ends := by
  unfold runDigits
  apply ends_withArguments
  intro a ha hhelp
  apply ends_onlyWith
  intro hnone
  split_ifs with hempty
  · exact ends_fail _ _
  · have hfile (e : Error) : ¬IsCrashingFile env a.config e := fun hfile =>
      h e ⟨_, _, a, rfl, ha, hhelp, .inr ⟨rfl, hnone, by simpa using hempty⟩, hfile⟩
    rcases readSettings_cases hfile with ⟨c, hc⟩ | ⟨cause, hc⟩
    · rw [hc]
      apply ends_eachLine
      intro v _
      exact (digitsLine_refused _ v).mono fun _ _ => trivial
    · rw [hc]
      exact ends_report _

theorem runDecompose_ends (args : List String) : (runDecompose args).Ends := by
  unfold runDecompose
  apply ends_withArguments
  intro a _ _
  apply ends_onlyWith
  intro _
  split_ifs
  · exact ends_fail _ _
  · apply ends_eachLine
    intro v _
    exact (decomposeLine_refused v).mono fun _ _ => trivial

theorem runPow_ends (args : List String) : (runPow args).Ends := by
  unfold runPow
  apply ends_withArguments
  intro a _ _
  apply ends_onlyWith
  intro _
  split
  · rename_i base exponent _
    apply ends_eachLine
    intro b _
    by_cases hpower : IsNegativePower b exponent
    · -- a negative exponent is a fault too, but a returned one
      rcases powLine_of_isNegativePower hpower with ⟨f, hf, -⟩
      exact .inr ⟨f, trivial, hf⟩
    · exact (powLine_refused hpower).mono fun _ _ => trivial
  · exact ends_fail _ _

/-- The commands on values return, unless they read a file on which the format of the settings
crashes. -/
theorem valueCommand?_ends {command : Run ℕ} (hcommand : valueCommand? env name args = some command)
    (h : ∀ e, ¬ReadsCrashingFile env (name :: args) e) : command.Ends := by
  unfold valueCommand? at hcommand
  split at hcommand
  · cases hcommand
    exact runShow_ends h
  · cases hcommand
    exact runDigits_ends h
  · cases hcommand
    exact runDecompose_ends args
  · cases hcommand
    exact runPow_ends args
  · cases hcommand

theorem valueCommand?_crashes {e : Error} (h : ReadsCrashingFile env (name :: args) e) :
    ∃ command, valueCommand? env name args = some command ∧
      ∀ t, command.outcome t = (.error e, t) := by
  rcases h with ⟨name', args', a, heq, ha, hhelp, hreads, hfile⟩
  cases heq
  have hcrash : ReadsCrashingFile env (name :: args) e :=
    ⟨name, args, a, rfl, ha, hhelp, hreads, hfile⟩
  rcases hreads with rfl | ⟨rfl, -⟩
  · exact ⟨runShow env args, rfl, fun _ => runShow_crashes hcrash⟩
  · exact ⟨runDigits env args, rfl, fun _ => runDigits_crashes hcrash⟩

end Numerals.Command
