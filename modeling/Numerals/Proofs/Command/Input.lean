import Numerals.Main
import Numerals.Proofs.Command.Arguments
import Numerals.Proofs.Text.Fields

/-!
# Values in the arguments and in the standard input

The command `show` takes its values from the arguments, or from the standard input if a minus sign
stands in their place. Main statement: values that are given in either way, under the same options,
make the same run: the streams are left with the same texts, and the exit code is the same.
-/

namespace Numerals.Command

variable {env env' : Surroundings} {args args' opts vs : List String} {a a' : Arguments}
  {text : String}

/-! ## The arguments -/

namespace Arguments

theorem parse_append (h : parse opts = .ok a) (hend : terminated opts = false)
    (rest : List String) : parse (opts ++ rest) = parseFrom a rest := by
  unfold parse at h ⊢
  rw [parseFrom_append h, if_neg (by simp [hend])]

/-- After the argument `--` all further ones are positional. -/
theorem parse_append_terminator (h : parse opts = .ok a) (hend : terminated opts = false)
    (vs : List String) : parse (opts ++ "--" :: vs) = .ok (a.addPositional vs) := by
  have hterminator : Argument.ofText "--" = .terminator := by decide +kernel
  rw [parse_append h hend, parseFrom, hterminator]

theorem parse_append_minus (h : parse opts = .ok a) (hend : terminated opts = false) :
    parse (opts ++ ["-"]) = .ok (a.addPositional ["-"]) := by
  have hminus : Argument.ofText "-" = .positional := by decide +kernel
  rw [parse_append h hend, parseFrom, hminus]
  rfl

end Arguments

/-! ## The values -/

/-- Only help, the settings and the values of its arguments matter to `show`. -/
theorem runShow_congr (ha : Arguments.parse args = .ok a) (ha' : Arguments.parse args' = .ok a')
    (hhelp : a.help = a'.help) (hload : loadSettings env a = loadSettings env' a')
    (hvalues : showValues env.input a.positional = showValues env'.input a'.positional) :
    runShow env args = runShow env' args' := by
  unfold runShow withArguments
  rw [ha, ha']
  dsimp only
  rw [hhelp, hload, hvalues]

theorem showValues_of_ne (input : Input) (hne : vs ≠ []) (hminus : vs ≠ ["-"]) :
    showValues input vs = .ok vs := by
  unfold showValues
  exact if_neg (by simp [hne, hminus])

theorem showValues_minus (hsize : text.utf8ByteSize ≤ maxInputSize) :
    showValues ⟨text, false⟩ ["-"] = .ok (Text.fields text) := by
  have hread : readInput ⟨text, false⟩ = .ok text := by
    unfold readInput
    rw [if_neg (by simp), if_neg (not_lt.mpr hsize)]
  unfold showValues
  rw [if_pos (by simp), hread]
  rfl

/-- Let options be read without positional arguments and without the argument `--` among them. Then
values after the argument `--` and the same values in the standard input, with blanks between them,
make the same run, whatever becomes of it. -/
theorem run_show_input (env : Surroundings) (input : Input) (hopts : Arguments.parse opts = .ok a)
    (hnone : a.positional = []) (hend : Arguments.terminated opts = false)
    (hwords : ∀ v ∈ vs, Text.IsWord v) (hminus : vs ≠ ["-"]) (htext : Text.Spaced vs text)
    (hsize : text.utf8ByteSize ≤ maxInputSize) :
    run { env with input := input } ("show" :: (opts ++ "--" :: vs)) =
      run { env with input := ⟨text, false⟩ } ("show" :: (opts ++ ["-"])) := by
  have hne : vs ≠ [] := by
    rintro rfl
    cases htext
  change runShow { env with input := input } (opts ++ "--" :: vs) =
    runShow { env with input := ⟨text, false⟩ } (opts ++ ["-"])
  apply runShow_congr (Arguments.parse_append_terminator hopts hend vs)
    (Arguments.parse_append_minus hopts hend)
  · rfl
  · rfl
  · -- both ways lead to the values `vs`
    unfold Arguments.addPositional
    rw [hnone, List.nil_append, List.nil_append, showValues_of_ne input hne hminus,
      showValues_minus hsize, htext.fields_eq hwords]

/-- Three values, one of which looks like an option and one of which is no number, in radix 2. -/
theorem run_show_input_mixed :
    Arguments.parse ["--radix", "2", "--style=fixed"] =
        .ok ⟨false, "", some "fixed", none, some 2, [.radix, .style], []⟩ ∧
      Arguments.terminated ["--radix", "2", "--style=fixed"] = false ∧
      (∀ v ∈ ["-2.5", "1e3", "--radix"], Text.IsWord v) ∧
      Text.Spaced ["-2.5", "1e3", "--radix"] "\t-2.5 1e3\r\n\u2003--radix\n" ∧
      "\t-2.5 1e3\r\n\u2003--radix\n".utf8ByteSize ≤ maxInputSize ∧
      run { surroundings "" "" [] with input := ⟨"0", false⟩ }
          ("show" :: (["--radix", "2", "--style=fixed"] ++ "--" :: ["-2.5", "1e3", "--radix"])) =
        run { surroundings "" "" [] with input := ⟨"\t-2.5 1e3\r\n\u2003--radix\n", false⟩ }
          ("show" :: (["--radix", "2", "--style=fixed"] ++ ["-"])) := by
  have hopts : Arguments.parse ["--radix", "2", "--style=fixed"] =
      .ok ⟨false, "", some "fixed", none, some 2, [.radix, .style], []⟩ := by decide +kernel
  have hend : Arguments.terminated ["--radix", "2", "--style=fixed"] = false := by decide +kernel
  have hwords : ∀ v ∈ ["-2.5", "1e3", "--radix"], Text.IsWord v := by decide
  have hspaced : Text.Spaced ["-2.5", "1e3", "--radix"] "\t-2.5 1e3\r\n\u2003--radix\n" := by
    have htext : "\t" ++ "-2.5" ++ " " ++ ("" ++ "1e3" ++ "\r\n\u2003" ++ ("" ++ "--radix" ++ "\n")) =
        "\t-2.5 1e3\r\n\u2003--radix\n" := by decide
    rw [← htext]
    refine .cons "\t" "-2.5" " " (by decide) (by decide) (by decide) ?_
    refine .cons "" "1e3" "\r\n\u2003" (by decide) (by decide) (by decide) ?_
    exact .last "" "--radix" "\n" (by decide) (by decide)
  have hsize : "\t-2.5 1e3\r\n\u2003--radix\n".utf8ByteSize ≤ maxInputSize := by decide
  exact ⟨hopts, hend, hwords, hspaced, hsize,
    run_show_input (surroundings "" "" []) ⟨"0", false⟩ hopts rfl hend hwords (by decide) hspaced
      hsize⟩

end Numerals.Command
