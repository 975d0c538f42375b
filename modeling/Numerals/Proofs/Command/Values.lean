import Numerals.Proofs.Command.Arguments
import Numerals.Proofs.Command.Streams
import Numerals.Proofs.Integer.Reading
import Numerals.Proofs.Layout.Rounded
import Numerals.Proofs.Settings

/-!
# Commands on values

A line is refused only for what its values are (`RefusedOnlyFor`), so that a command ends with
success or because of invalid input (`Ordinary`). The exceptions are negative powers and files with
settings on which their format crashes (`IsCrashingFile`), whatever the format is.
-/

namespace Numerals.Command

variable {t : Traces} {s v : String} {x : Binary64}

/-! ## Lines -/

theorem ofText_cases (v : String) :
    (∃ x, Binary64.ofText v = .ok x) ∨
      Binary64.ofText v = .error (.returned (.notANumber v)) := by
  unfold Binary64.ofText
  split
  · exact .inl ⟨_, rfl⟩
  · exact .inr rfl

theorem showLine_eq {radix : ℤ} {o : Options} {text : String} (hx : Binary64.ofText v = .ok x)
    (htext : (Decomposition.ofBinary64 x).render radix o = .ok text) :
    showLine radix o v = .ok (text ++ "\n") := by
  unfold showLine
  rw [hx]
  change ((Decomposition.ofBinary64 x).render radix o).recover >>= _ = _
  rw [htext]
  rfl

theorem showLine_of_error {radix : ℤ} {o : Options} {e : Failure Fault}
    (hx : Binary64.ofText v = .error e) : showLine radix o v = .error e := by
  unfold showLine
  rw [hx]
  rfl

/-- There is a line, unless it is refused for a fault with the property `P`. -/
def RefusedOnlyFor (r : Result String) (P : Fault → Prop) : Prop :=
  (∃ text, r = .ok text) ∨ ∃ f, P f ∧ r = .error (.returned f)

theorem RefusedOnlyFor.mono {r : Result String} {P Q : Fault → Prop} (h : RefusedOnlyFor r P)
    (hPQ : ∀ f, P f → Q f) : RefusedOnlyFor r Q := by
  rcases h with htext | ⟨f, hf, hr⟩
  · exact .inl htext
  · exact .inr ⟨f, hPQ f hf, hr⟩

/-- With valid settings every number has a line. -/
theorem showLine_refused {c : Settings} (hc : c.flaw? = none) (v : String) :
    RefusedOnlyFor (showLine c.radix c.options v) (· = .notANumber v) := by
  rcases ofText_cases v with ⟨x, hx⟩ | hx
  · obtain ⟨text, htext⟩ := Decomposition.exists_render hc x
    exact .inl ⟨_, showLine_eq hx htext⟩
  · exact .inr ⟨.notANumber v, rfl, showLine_of_error hx⟩

/-- In every radix that there is, every finite number has a line of digits. -/
theorem digitsLine_refused (radix : ℤ) (v : String) :
    RefusedOnlyFor (digitsLine radix v)
      (· ∈ [.notANumber v, .radixOutOfRange radix, .notFinite]) := by
  unfold digitsLine
  rcases ofText_cases v with ⟨x, hx⟩ | hx
  · rw [hx]
    change RefusedOnlyFor (Digits.generate (.ofBinary64 x) radix >>= _) _
    rcases Decomposition.generate_cases x radix with ⟨ds, hds⟩ | hds | hds
    · rw [hds]
      exact .inl ⟨_, rfl⟩
    · rw [hds]
      exact .inr ⟨.radixOutOfRange radix, by simp, rfl⟩
    · rw [hds]
      exact .inr ⟨.notFinite, by simp, rfl⟩
  · rw [hx]
    exact .inr ⟨.notANumber v, by simp, rfl⟩

theorem decomposeLine_refused (v : String) :
    RefusedOnlyFor (decomposeLine v) (· = .notANumber v) := by
  unfold decomposeLine
  rcases ofText_cases v with ⟨x, hx⟩ | hx
  · rw [hx]
    exact .inl ⟨_, rfl⟩
  · rw [hx]
    exact .inr ⟨.notANumber v, rfl, rfl⟩

/-- The texts are a number and a negative exponent in the range of exponents. -/
def IsNegativePower (base exponent : String) : Prop :=
  ∃ x n, Integer.read base 10 = .ok x ∧ Text.readInt64? exponent = some n ∧
    -2147483648 ≤ n ∧ n < 0

theorem exponentOf_eq_ok {n : ℤ} (h : Text.readInt64? s = some n) (hlow : -2147483648 ≤ n)
    (hhigh : n ≤ maxExponent) : exponentOf s = .ok n := by
  unfold exponentOf
  rw [h]
  refine if_neg ?_
  simp only [Bool.or_eq_true, decide_eq_true_eq]
  omega

theorem exponentOf_cases (s : String) :
    (∃ n, Text.readInt64? s = some n ∧ -2147483648 ≤ n ∧ exponentOf s = .ok n) ∨
      exponentOf s = .error (.returned (.exponentArgument s maxExponent)) := by
  cases hread : Text.readInt64? s with
  | none =>
    right
    unfold exponentOf
    rw [hread]
    rfl
  | some n =>
    by_cases hmem : -2147483648 ≤ n ∧ n ≤ maxExponent
    · exact .inl ⟨n, rfl, hmem.1, exponentOf_eq_ok hread hmem.1 hmem.2⟩
    · right
      unfold exponentOf
      rw [hread]
      refine if_pos ?_
      simp only [Bool.or_eq_true, decide_eq_true_eq]
      omega

theorem powLine_eq {base exponent : String} {x : Integer} {n : ℤ}
    (hx : Integer.read base 10 = .ok x) (hn : exponentOf exponent = .ok n) :
    powLine base exponent = (x.pow n).recover.map fun p => p.decimal ++ "\n" := by
  unfold powLine
  rw [hx]
  change exponentOf exponent >>= _ = _
  rw [hn]
  change (x.pow n).recover >>= _ = _
  cases (x.pow n).recover <;> rfl

theorem powLine_of_isNegativePower {base exponent : String} (h : IsNegativePower base exponent) :
    ∃ f, powLine base exponent = .error (.returned f) ∧ f.category = .negativeExponent := by
  obtain ⟨x, n, hx, hread, hlow, hneg⟩ := h
  have hn := exponentOf_eq_ok hread hlow (hneg.le.trans (Int.natCast_nonneg _))
  refine ⟨.negativeExponent x.toInt n, ?_, rfl⟩
  rw [powLine_eq hx hn, Integer.pow_of_neg x hneg]
  rfl

/-- Apart from negative exponents, a power is refused only for what is no number or no exponent. -/
theorem powLine_refused {base exponent : String} (h : ¬IsNegativePower base exponent) :
    RefusedOnlyFor (powLine base exponent) (·.category = .invalidArgument) := by
  rcases Integer.read_cases base with ⟨x, hx⟩ | ⟨f, hf, hcategory⟩
  · rcases exponentOf_cases exponent with ⟨n, hread, hlow, hn⟩ | hn
    · -- the exponent is not negative, and then there is a power
      have hpos : 0 ≤ n := by
        by_contra hneg
        exact h ⟨x, n, hx, hread, hlow, by omega⟩
      obtain ⟨z, hz⟩ := x.exists_pow hpos
      rw [powLine_eq hx hn, hz]
      exact .inl ⟨_, rfl⟩
    · refine .inr ⟨.exponentArgument exponent maxExponent, rfl, ?_⟩
      unfold powLine
      rw [hx]
      change exponentOf exponent >>= _ = _
      rw [hn]
      rfl
  · refine .inr ⟨f, hcategory, ?_⟩
    unfold powLine
    rw [hf]
    rfl

/-! ## Ends of commands -/

/-- The computation ends with success or because of invalid input. -/
def Ordinary (r : Run ℕ) (t : Traces) : Prop :=
  ∃ code t', r.outcome t = (.ok code, t') ∧ (code = exitSuccess ∨ code = exitInvalid)

theorem ordinary_fail (ht : t.Unlimited) (message : String) :
    Ordinary (fail exitInvalid message) t :=
  ⟨_, _, outcome_fail ht _ _, .inr rfl⟩

theorem ordinary_help (ht : t.Unlimited) {code : ℕ}
    (hcode : code = exitSuccess ∨ code = exitInvalid) (lines : List String) :
    Ordinary (help code lines) t :=
  ⟨_, _, outcome_help ht _ _, hcode⟩

theorem ordinary_report (ht : t.Unlimited) {e : Error} (he : e.exitCode = exitInvalid) :
    Ordinary (report e) t :=
  ⟨_, _, outcome_report ht e, .inr he⟩

/-- Lines end well if each value has one or is refused as invalid. -/
theorem ordinary_eachLine (ht : t.Unlimited) {line : String → Result String} {vs : List String}
    (hline : ∀ v ∈ vs, RefusedOnlyFor (line v) (·.category.exitCode = exitInvalid)) :
    Ordinary (eachLine line vs) t := by
  rcases outcome_eachLine ht line vs with ⟨t', ht', ⟨-, hout⟩ | ⟨v, hmem, e, he, hout⟩⟩
  · exact ⟨_, _, hout, .inl rfl⟩
  · rcases hline v hmem with ⟨text, htext⟩ | ⟨f, hcode, hf⟩
    · cases he.symm.trans htext
    · cases he.symm.trans hf
      obtain ⟨code, t'', hreport, hordinary⟩ := ordinary_report (e := .fault f) ht' hcode
      exact ⟨code, t'', hout.trans hreport, hordinary⟩

theorem withArguments_eq {args : List String} {a : Arguments} (ha : Arguments.parse args = .ok a)
    (hhelp : a.help = false) (lines : List String) (go : Arguments → Run ℕ) :
    withArguments args lines go = go a := by
  unfold withArguments
  rw [ha]
  dsimp only
  rw [hhelp]
  rfl

theorem withArguments_cases (ht : t.Unlimited) (args lines : List String)
    (go : Arguments → Run ℕ) :
    (∃ a, Arguments.parse args = .ok a ∧ a.help = false ∧ withArguments args lines go = go a) ∨
      Ordinary (withArguments args lines go) t := by
  cases ha : Arguments.parse args with
  | error e =>
    right
    unfold withArguments
    rw [ha]
    exact ordinary_fail ht _
  | ok a =>
    cases hhelp : a.help with
    | true =>
      right
      unfold withArguments
      rw [ha]
      dsimp only
      rw [hhelp]
      exact ordinary_help ht (.inl rfl) lines
    | false => exact .inl ⟨a, rfl, hhelp, withArguments_eq ha hhelp lines go⟩

theorem onlyWith_eq {a : Arguments} {allowed : List Flag} (h : a.misplaced? allowed = none)
    (command : String) (go : Run ℕ) : onlyWith a command allowed go = go := by
  unfold onlyWith
  rw [h]

theorem onlyWith_cases (ht : t.Unlimited) (a : Arguments) (command : String) (allowed : List Flag)
    (go : Run ℕ) :
    a.misplaced? allowed = none ∧ onlyWith a command allowed go = go ∨
      Ordinary (onlyWith a command allowed go) t := by
  cases hflag : a.misplaced? allowed with
  | none => exact .inl ⟨rfl, onlyWith_eq hflag command go⟩
  | some f =>
    right
    unfold onlyWith
    rw [hflag]
    exact ordinary_report ht rfl

/-! ## Settings -/

/-- The format of the settings crashes with `e` on the file at `path`. -/
def IsCrashingFile (env : Surroundings) (path : String) (e : Error) : Prop :=
  path ≠ "" ∧ ∃ text, env.read path = .ok text ∧
    env.format.Crashes (Settings.default env.home) text e

theorem readSettings_of_isCrashingFile {env : Surroundings} {path : String} {e : Error}
    (h : IsCrashingFile env path e) : readSettings env path = .error (.raised e) := by
  obtain ⟨hpath, text, hread, hcrash⟩ := h
  unfold readSettings
  rw [if_neg hpath, hread]
  exact Settings.decode_of_crashes hcrash

/-- Any other file gives settings or is refused. -/
theorem readSettings_cases {env : Surroundings} {path : String}
    (h : ∀ e, ¬IsCrashingFile env path e) :
    (∃ c, readSettings env path = .ok c) ∨
      ∃ cause, readSettings env path = .error (.returned (.settings cause)) := by
  unfold readSettings
  split_ifs with hpath
  · exact .inl ⟨_, rfl⟩
  · cases hread : env.read path with
    | error e => exact .inr ⟨_, rfl⟩
    | ok text => exact Settings.decode_cases fun e hcrash => h e ⟨hpath, text, hread, hcrash⟩

theorem loadSettings_of_ok {env : Surroundings} {a : Arguments} {c : Settings}
    (h : readSettings env a.config = .ok c) :
    loadSettings env a = (override c a).validate.mapError .returned := by
  unfold loadSettings
  rw [h]
  rfl

theorem loadSettings_of_error {env : Surroundings} {a : Arguments} {e : Failure Error}
    (h : readSettings env a.config = .error e) : loadSettings env a = .error e := by
  unfold loadSettings
  rw [h]
  rfl

theorem loadSettings_addPositional (env : Surroundings) (args : List String) :
    loadSettings env (Arguments.empty.addPositional args) = .ok (.default env.home) := by
  have hread : readSettings env "" = .ok (.default env.home) := if_pos rfl
  have hsame : override (.default env.home) (Arguments.empty.addPositional args) =
      .default env.home := rfl
  rw [loadSettings_of_ok hread, hsame, Settings.validate, Settings.flaw?_default]
  rfl

/-- Settings that are loaded have no flaw. -/
theorem loadSettings_cases {env : Surroundings} {a : Arguments}
    (h : ∀ e, ¬IsCrashingFile env a.config e) :
    (∃ c, loadSettings env a = .ok c ∧ c.flaw? = none) ∨
      ∃ cause, loadSettings env a = .error (.returned (.settings cause)) := by
  rcases readSettings_cases h with ⟨c, hc⟩ | ⟨cause, hc⟩
  · rw [loadSettings_of_ok hc]
    rcases Settings.mapError_validate_cases (override c a) with ⟨hvalid, hflaw⟩ | hrefused
    · exact .inl ⟨_, hvalid, hflaw⟩
    · exact .inr hrefused
  · exact .inr ⟨cause, loadSettings_of_error hc⟩

/-! ## The commands -/

/-- The command with the given name reads the file with settings that its arguments name. -/
def ReadsSettings (name : String) (a : Arguments) : Prop :=
  name = "show" ∨ name = "digits" ∧ a.misplaced? [.radix, .config] = none ∧ a.positional ≠ []

/-- The command line is one of a command that reads a file on which the format of the settings
crashes with `e`. -/
def ReadsCrashingFile (env : Surroundings) (args : List String) (e : Error) : Prop :=
  ∃ name rest a, args = name :: rest ∧ Arguments.parse rest = .ok a ∧ a.help = false ∧
    ReadsSettings name a ∧ IsCrashingFile env a.config e

theorem ordinary_settings (ht : t.Unlimited) (cause : Error) :
    Ordinary (conclude (.returned (.settings cause))) t :=
  ordinary_report ht rfl

/-- With valid settings the values that are shown end well, and so does an input that is not
read. -/
theorem ordinary_showValues (ht : t.Unlimited) {c : Settings} (hc : c.flaw? = none) (input : Input)
    (positional : List String) :
    Ordinary (match showValues input positional with
      | .error message => fail exitInvalid ("error: reading input: " ++ message ++ "\n")
      | .ok values => eachLine (showLine c.radix c.options) values) t := by
  cases showValues input positional with
  | error message => exact ordinary_fail ht _
  | ok values =>
    refine ordinary_eachLine ht fun v _ => (showLine_refused hc v).mono ?_
    rintro f rfl
    rfl

/-- The command `show`, once its arguments, its settings and its values are known. -/
theorem runShow_eq_eachLine {env : Surroundings} {args values : List String} {a : Arguments}
    {c : Settings} (ha : Arguments.parse args = .ok a) (hhelp : a.help = false)
    (hload : loadSettings env a = .ok c)
    (hvalues : showValues env.input a.positional = .ok values) :
    runShow env args = eachLine (showLine c.radix c.options) values := by
  unfold runShow
  rw [withArguments_eq ha hhelp, hload]
  dsimp only
  rw [hvalues]

theorem runShow_crashes {env : Surroundings} {args : List String} {e : Error}
    (h : ReadsCrashingFile env ("show" :: args) e) :
    (runShow env args).outcome t = (.error e, t) := by
  obtain ⟨_, _, a, heq, ha, hhelp, -, hfile⟩ := h
  cases heq
  unfold runShow
  rw [withArguments_eq ha hhelp, loadSettings_of_error (readSettings_of_isCrashingFile hfile)]
  rfl

theorem runShow_ordinary (ht : t.Unlimited) {env : Surroundings} {args : List String}
    (h : ∀ e, ¬ReadsCrashingFile env ("show" :: args) e) : Ordinary (runShow env args) t := by
  unfold runShow
  rcases withArguments_cases ht args showHelp _ with ⟨a, ha, hhelp, hgo⟩ | hordinary
  · rw [hgo]
    have hfile (e : Error) : ¬IsCrashingFile env a.config e :=
      fun hfile => h e ⟨_, _, a, rfl, ha, hhelp, .inl rfl, hfile⟩
    rcases loadSettings_cases hfile with ⟨c, hload, hc⟩ | ⟨cause, hload⟩
    · rw [hload]
      exact ordinary_showValues ht hc env.input a.positional
    · rw [hload]
      exact ordinary_settings ht cause
  · exact hordinary

theorem ordinary_digits (ht : t.Unlimited) (radix : ℤ) (vs : List String) :
    Ordinary (eachLine (digitsLine radix) vs) t := by
  refine ordinary_eachLine ht fun v _ => (digitsLine_refused radix v).mono fun f hf => ?_
  simp only [List.mem_cons, List.not_mem_nil, or_false] at hf
  rcases hf with rfl | rfl | rfl <;> rfl

theorem runDigits_crashes {env : Surroundings} {args : List String} {e : Error}
    (h : ReadsCrashingFile env ("digits" :: args) e) :
    (runDigits env args).outcome t = (.error e, t) := by
  obtain ⟨_, _, a, heq, ha, hhelp, hreads, hfile⟩ := h
  cases heq
  obtain habsurd | ⟨-, hnone, hpositional⟩ := hreads
  · exact absurd habsurd (by decide)
  · unfold runDigits
    rw [withArguments_eq ha hhelp, onlyWith_eq hnone, if_neg (by simpa using hpositional),
      readSettings_of_isCrashingFile hfile]
    rfl

theorem runDigits_ordinary (ht : t.Unlimited) {env : Surroundings} {args : List String}
    (h : ∀ e, ¬ReadsCrashingFile env ("digits" :: args) e) :
    Ordinary (runDigits env args) t := by
  unfold runDigits
  rcases withArguments_cases ht args _ _ with ⟨a, ha, hhelp, hgo⟩ | hordinary
  · rw [hgo]
    rcases onlyWith_cases ht a "digits" [.radix, .config] _ with ⟨hnone, hwith⟩ | hordinary
    · rw [hwith]
      split_ifs with hempty
      · exact ordinary_fail ht _
      · -- the radix of the arguments or of the settings may still be out of range
        have hfile (e : Error) : ¬IsCrashingFile env a.config e := fun hfile =>
          h e ⟨_, _, a, rfl, ha, hhelp, .inr ⟨rfl, hnone, by simpa using hempty⟩, hfile⟩
        rcases readSettings_cases hfile with ⟨c, hc⟩ | ⟨cause, hc⟩
        · rw [hc]
          exact ordinary_digits ht _ _
        · rw [hc]
          exact ordinary_settings ht cause
    · exact hordinary
  · exact hordinary

theorem runDecompose_ordinary (ht : t.Unlimited) (args : List String) :
    Ordinary (runDecompose args) t := by
  unfold runDecompose
  rcases withArguments_cases ht args _ _ with ⟨a, -, -, hgo⟩ | hordinary
  · rw [hgo]
    rcases onlyWith_cases ht a "decompose" [] _ with ⟨-, hwith⟩ | hordinary
    · rw [hwith]
      split_ifs
      · exact ordinary_fail ht _
      · refine ordinary_eachLine ht fun v _ => (decomposeLine_refused v).mono ?_
        rintro f rfl
        rfl
    · exact hordinary
  · exact hordinary

/-- The command line is one of `pow` with a number and a negative exponent. -/
def AsksNegativePower (args : List String) : Prop :=
  ∃ rest a base exponent, args = "pow" :: rest ∧ Arguments.parse rest = .ok a ∧ a.help = false ∧
    a.seen = [] ∧ a.positional = [base, exponent] ∧ IsNegativePower base exponent

theorem misplaced?_eq_none_iff (a : Arguments) (allowed : List Flag) :
    a.misplaced? allowed = none ↔ ∀ f ∈ a.seen, f ∈ allowed := by
  unfold Arguments.misplaced?
  rw [List.find?_eq_none]
  simp

theorem misplaced?_nil_eq_none_iff (a : Arguments) : a.misplaced? [] = none ↔ a.seen = [] := by
  rw [misplaced?_eq_none_iff]
  exact List.subset_nil

theorem runPow_of_asks (ht : t.Unlimited) {args : List String}
    (h : AsksNegativePower ("pow" :: args)) :
    ∃ t', (runPow args).outcome t = (.ok exitInternal, t') := by
  obtain ⟨_, a, base, exponent, heq, ha, hhelp, hseen, hpositional, hpower⟩ := h
  cases heq
  obtain ⟨f, hf, hcategory⟩ := powLine_of_isNegativePower hpower
  have hrun : runPow args = report (.fault f) := by
    unfold runPow
    rw [withArguments_eq ha hhelp, onlyWith_eq ((misplaced?_nil_eq_none_iff a).mpr hseen),
      hpositional]
    dsimp only
    rw [eachLine, hf]
    rfl
  have hcode : (Error.fault f).exitCode = exitInternal := by
    change f.category.exitCode = exitInternal
    rw [hcategory]
    rfl
  rw [hrun, outcome_report ht, hcode]
  exact ⟨_, rfl⟩

theorem runPow_ordinary (ht : t.Unlimited) {args : List String}
    (h : ¬AsksNegativePower ("pow" :: args)) : Ordinary (runPow args) t := by
  unfold runPow
  rcases withArguments_cases ht args _ _ with ⟨a, ha, hhelp, hgo⟩ | hordinary
  · rw [hgo]
    rcases onlyWith_cases ht a "pow" [] _ with ⟨hnone, hwith⟩ | hordinary
    · rw [hwith]
      have hseen := (misplaced?_nil_eq_none_iff a).mp hnone
      split
      · rename_i base exponent hpositional
        refine ordinary_eachLine ht fun b hb => ?_
        obtain rfl : b = base := List.mem_singleton.mp hb
        have hpower : ¬IsNegativePower b exponent := fun hpower =>
          h ⟨_, a, b, exponent, rfl, ha, hhelp, hseen, hpositional, hpower⟩
        exact (powLine_refused hpower).mono fun f => congrArg Category.exitCode
      · exact ordinary_fail ht _
    · exact hordinary
  · exact hordinary

end Numerals.Command
