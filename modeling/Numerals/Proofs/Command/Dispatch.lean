import Numerals.Main
import Numerals.Proofs.Command.Values
import Numerals.Proofs.Document.Keys
import Numerals.Proofs.Layout.RoundTrip

/-!
# The command line

What whole command lines end with, apart from sessions. The first main statement says which exit
codes there are, what the one for internal failures is for, and which files crash the program. The
second one says what becomes of a number among the arguments.
-/

namespace Numerals.Command

variable {t : Traces} {env : Surroundings} {args : List String}

/-! ## Exit codes -/

theorem run_crashes {e : Error} (h : ReadsCrashingFile env args e) :
    (run env args).outcome t = (.error e, t) := by
  obtain ⟨name, rest, a, rfl, ha, hhelp, hreads, hfile⟩ := h
  have hcrash : ReadsCrashingFile env (name :: rest) e :=
    ⟨name, rest, a, rfl, ha, hhelp, hreads, hfile⟩
  obtain rfl | ⟨rfl, -⟩ := hreads
  · exact runShow_crashes hcrash
  · exact runDigits_crashes hcrash

theorem run_of_asks (ht : t.Unlimited) (h : AsksNegativePower args) :
    ∃ t', (run env args).outcome t = (.ok exitInternal, t') := by
  obtain ⟨rest, a, base, exponent, rfl, hasks⟩ := h
  exact runPow_of_asks ht ⟨rest, a, base, exponent, rfl, hasks⟩

theorem run_ordinary (ht : t.Unlimited) (hargs : args.head? ≠ some "repl")
    (hfile : ∀ e, ¬ReadsCrashingFile env args e) (hpow : ¬AsksNegativePower args) :
    Ordinary (run env args) t := by
  cases args with
  | nil => exact ordinary_help ht (.inr rfl) _
  | cons name rest =>
    unfold run valueCommand?
    dsimp only
    -- the four commands on values by their names, then what is no such command
    split
    · rename_i command hcommand
      split at hcommand
      · cases hcommand
        exact runShow_ordinary ht hfile
      · cases hcommand
        exact runDigits_ordinary ht hfile
      · cases hcommand
        exact runDecompose_ordinary ht rest
      · cases hcommand
        exact runPow_ordinary ht hpow
      · cases hcommand
    · split_ifs with hrepl hhelp
      · exact absurd (congrArg some hrepl) hargs
      · exact ordinary_help ht (.inl rfl) _
      · exact ordinary_help ht (.inr rfl) _

theorem crashes_unhashableKey (hformat : env.format = Document.format) {path text : String}
    {e : Error} (hread : env.read path = .ok text) (h : IsCrashingFile env path e) :
    (∃ type, e = .fault (.unhashableKey type)) ∧ ¬Document.HasScalarKeys text := by
  obtain ⟨-, text', hread', hcrash⟩ := h
  cases hread.symm.trans hread'
  rw [hformat] at hcrash
  exact Document.format_crashes hcrash

/-- A command line that starts no session ends with one of three exit codes, and with the one for
internal failures exactly if it asks for a negative power. The exception are files on which the
format of the settings crashes, which crash the program. If settings are documents, these are files
with a key that the decoder must compare and cannot, and a file whose keys all stand for scalars is
none of them. Valid settings have a line for every number, every radix that there is has digits for
every finite number, and every number has parts. -/
theorem run_ends (env : Surroundings) (ht : t.Unlimited) (hargs : args.head? ≠ some "repl") :
    (∀ e, ReadsCrashingFile env args e → (run env args).outcome t = (.error e, t)) ∧
    ((∀ e, ¬ReadsCrashingFile env args e) →
      ∃ code t', (run env args).outcome t = (.ok code, t') ∧
        code ∈ [exitSuccess, exitInvalid, exitInternal] ∧
        (code = exitInternal ↔ AsksNegativePower args)) ∧
    (env.format = Document.format → ∀ path text e, env.read path = .ok text →
      IsCrashingFile env path e →
        (∃ type, e = .fault (.unhashableKey type)) ∧ ¬Document.HasScalarKeys text) ∧
    ∀ v, (∀ c : Settings, c.flaw? = none →
        RefusedOnlyFor (showLine c.radix c.options v) (· = .notANumber v)) ∧
      (∀ radix, RefusedOnlyFor (digitsLine radix v)
        (· ∈ [.notANumber v, .radixOutOfRange radix, .notFinite])) ∧
      RefusedOnlyFor (decomposeLine v) (· = .notANumber v) := by
  refine ⟨fun _ => run_crashes, ?_, fun hformat _ _ _ => crashes_unhashableKey hformat,
    fun v => ⟨fun c hc => showLine_refused hc v, fun radix => digitsLine_refused radix v,
      decomposeLine_refused v⟩⟩
  intro hfile
  by_cases hpow : AsksNegativePower args
  · obtain ⟨t', hrun⟩ := run_of_asks ht hpow
    exact ⟨exitInternal, t', hrun, by simp, by simp [hpow]⟩
  · obtain ⟨code, t', hrun, rfl | rfl⟩ := run_ordinary ht hargs hfile hpow
    · exact ⟨exitSuccess, t', hrun, by simp, by simp [hpow, exitSuccess, exitInternal]⟩
    · exact ⟨exitInvalid, t', hrun, by simp, by simp [hpow, exitInvalid, exitInternal]⟩

/-- The power 2⁻³ is an internal failure. -/
theorem run_ends_negative_power :
    Traces.empty.Unlimited ∧ ["pow", "2", "-3"].head? ≠ some "repl" ∧
      (∀ e, ¬ReadsCrashingFile (surroundings "" "" []) ["pow", "2", "-3"] e) ∧
      AsksNegativePower ["pow", "2", "-3"] ∧
      ∃ t', (run (surroundings "" "" []) ["pow", "2", "-3"]).outcome .empty =
        (.ok exitInternal, t') := by
  have hempty := Traces.unlimited_empty
  have hargs : ["pow", "2", "-3"].head? ≠ some "repl" := by decide
  have hnone (e : Error) : ¬ReadsCrashingFile (surroundings "" "" []) ["pow", "2", "-3"] e := by
    rintro ⟨name, rest, a, heq, -, -, hshow | ⟨hdigits, -⟩, -⟩
    · cases heq
      exact absurd hshow (by decide)
    · cases heq
      exact absurd hdigits (by decide)
  have hpow : AsksNegativePower ["pow", "2", "-3"] :=
    ⟨_, Arguments.empty.addPositional ["2", "-3"], "2", "-3", rfl, by decide +kernel, rfl, rfl, rfl,
      Integer.ofInt64 2, -3, by decide +kernel, by decide +kernel, by decide, by decide⟩
  obtain ⟨code, t', hrun, -, hinternal⟩ := (run_ends _ hempty hargs).2.1 hnone
  rw [hinternal.mpr hpow] at hrun
  exact ⟨hempty, hargs, hnone, hpow, t', hrun⟩

/-- A sequence as a key beside the key `<<` crashes the program. -/
theorem run_raises_unhashableKey :
    (run (surroundings "" "" [("settings.yaml", "\x7b[a]: 1, <<: \x7b\x7d\x7d")])
        ["show", "--config", "settings.yaml", "1"]).outcome .empty =
      (.error (.fault (.unhashableKey "[]interface \x7b\x7d")), .empty) := by
  decide +kernel

/-! ## Numbers among the arguments -/

theorem outcome_show {s line : String} {x : Binary64} (ht : t.Unlimited)
    (hs : Argument.ofText s = .positional) (hx : Binary64.ofText s = .ok x)
    (hline : x.render .default = .ok line) :
    (run env ["show", s]).outcome t = (.ok exitSuccess, t.addOut (line ++ "\n")) := by
  have hparse : Arguments.parse [s] = .ok (Arguments.empty.addPositional [s]) := by
    unfold Arguments.parse Arguments.parseFrom
    rw [hs]
    rfl
  have hlone : s ≠ "-" := by
    rintro rfl
    cases hx
  have hvalues : showValues env.input [s] = .ok [s] := by
    unfold showValues
    exact if_neg (by simpa using hlone)
  have hshow : showLine 10 (Settings.default env.home).options s = .ok (line ++ "\n") := by
    rw [Settings.options_default]
    exact showLine_eq hx hline
  have hrun : run env ["show", s] =
      eachLine (showLine 10 (Settings.default env.home).options) [s] := by
    exact runShow_eq_eachLine hparse rfl (loadSettings_addPositional env [s]) hvalues
  rw [hrun]
  exact outcome_eachLine_cons ht hshow []

theorem outcome_unknown {s : String} (ht : t.Unlimited) (hs : Argument.ofText s = .unknown) :
    (run env ["show", s]).outcome t =
      (.ok exitInvalid, t.addErr ("error: " ++ ("unknown option: " ++ s) ++ "\n")) := by
  have hparse : Arguments.parse [s] = .error (.unknown s) := by
    unfold Arguments.parse Arguments.parseFrom
    rw [hs]
  change (runShow env [s]).outcome t = _
  unfold runShow withArguments
  rw [hparse]
  exact outcome_fail ht _ _

/-- A number is positional wherever an option may stand: the other arguments are read as if it were
not there, and `show` writes its line. The exception are numbers below zero that overflow, to the
negative infinity: before the argument `--` they are taken for options that are not known. -/
theorem run_number (env : Surroundings) (ht : t.Unlimited) {s : String} {x : Binary64}
    (h : Binary64.ofText s = .ok x) :
    (¬IsNegativeOverflow s →
      (∀ pre rest a, Arguments.parse pre = .ok a →
        Arguments.parse (pre ++ s :: rest) =
          (Arguments.parse (pre ++ rest)).map (·.insertPositional a.positional.length s)) ∧
      ∃ line, x.render .default = .ok line ∧
        (run env ["show", s]).outcome t = (.ok exitSuccess, t.addOut (line ++ "\n"))) ∧
    (IsNegativeOverflow s →
      (∀ pre rest a, Arguments.parse pre = .ok a → Arguments.terminated pre = false →
        Arguments.parse (pre ++ s :: rest) = .error (.unknown s)) ∧
      x.render .default = .ok "-Infinity" ∧
      (run env ["show", s]).outcome t =
        (.ok exitInvalid, t.addErr ("error: " ++ ("unknown option: " ++ s) ++ "\n"))) := by
  constructor
  · intro hs
    have hpositional := Argument.ofText_eq_positional h hs
    obtain ⟨line, hline, -⟩ := x.render_readsAs (o := .default) (by decide) fun _ => by decide
    exact ⟨fun pre rest a hpre => Arguments.parse_insert hpre hpositional,
      line, hline, outcome_show ht hpositional h hline⟩
  · intro hs
    have hunknown := Argument.ofText_eq_unknown hs
    refine ⟨fun pre rest a hpre hend => Arguments.parse_unknown hpre hend hunknown, ?_,
      outcome_unknown ht hunknown⟩
    rw [hs.eq_infinite h]
    rfl

/-- The number -3 in hexadecimal is no option. -/
theorem run_number_hexadecimal :
    Traces.empty.Unlimited ∧ Binary64.ofText "-0x1.8p1" = .ok ⟨0xC008000000000000⟩ ∧
      ¬IsNegativeOverflow "-0x1.8p1" ∧
      ∃ line, (Binary64.mk 0xC008000000000000).render .default = .ok line ∧
        (run (surroundings "" "" []) ["show", "-0x1.8p1"]).outcome .empty =
          (.ok exitSuccess, Traces.empty.addOut (line ++ "\n")) := by
  have hempty := Traces.unlimited_empty
  have htext : Binary64.ofText "-0x1.8p1" = .ok ⟨0xC008000000000000⟩ := by decide +kernel
  have hfits : ¬IsNegativeOverflow "-0x1.8p1" := by
    rintro ⟨-, x, hx⟩
    have hnumeral : Binary64.isNumeral "-0x1.8p1" = true := by decide +kernel
    simp [Binary64.isNumeral, hx] at hnumeral
  exact ⟨hempty, htext, hfits, ((run_number _ hempty htext).1 hfits).2⟩

/-- A number that overflows to the negative infinity is refused as an option. -/
theorem show_refuses_negative_overflow :
    Binary64.ofText "-1e400" = .ok ⟨0xFFF0000000000000⟩ ∧
      (Binary64.mk 0xFFF0000000000000).render .default = .ok "-Infinity" ∧
      (run (surroundings "" "" []) ["show", "-1e400"]).outcome .empty =
        (.ok exitInvalid, Traces.empty.addErr "error: unknown option: -1e400\n") := by
  decide +kernel

end Numerals.Command
