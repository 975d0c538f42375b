import Numerals.Proofs.Command.Input
import Numerals.Proofs.Command.Returns
import Numerals.Proofs.Command.Settings

/-!
# Values in order

The commands `show`, `digits` and `decompose` write a line for each of their values. Main statement:
a run for many values is put together from runs for one value each. Their output is written in
order, up to the first value whose run fails, and the run ends as the run for that value does.
Options that are rejected leave the standard output as it is.
-/

namespace Numerals.Command

variable {α β : Type} {t : Traces} {env : Surroundings} {name : String}
  {args opts vs : List String} {a : Arguments} {line : String → Result String}

/-- What a run leaves: its exit code, or the error that it is left with, and its traces. -/
abbrev Outcome := Except Error ℕ × Traces

/-- Whether the run ended with success. -/
def Outcome.succeeds (r : Outcome) : Bool :=
  r.1 = .ok exitSuccess

/-- A run for the values `vs` has left `r`, where a run for one value leaves `alone` of it. The
output is that of the values before the first one that fails. If there is none, the run succeeds; if
there is one, the run ends with its exit code and its message. -/
structure InOrder (alone : String → Outcome) (vs : List String) (r : Outcome) : Prop where
  out : r.2.out.text =
    String.join ((vs.takeWhile fun v => (alone v).succeeds).map fun v => (alone v).2.out.text)
  all_succeed : (vs.takeWhile fun v => (alone v).succeeds) = vs →
    r.1 = .ok exitSuccess ∧ r.2.err.text = ""
  first_fails : ∀ v, vs.find? (fun v => !(alone v).succeeds) = some v →
    ∃ code, r.1 = .ok code ∧ (alone v).1 = .ok code ∧ r.2.err.text = (alone v).2.err.text

/-! ## Lines one after another -/

theorem exitCode_fault_ne (f : Fault) : (Error.fault f).exitCode ≠ exitSuccess := by
  change f.category.exitCode ≠ 0
  cases f.category <;> exact Nat.succ_ne_zero _

/-- The first value is refused. -/
theorem outcome_eachLine_refused (ht : t.Unlimited) {v : String} {f : Fault}
    (hv : line v = .error (.returned f)) (vs : List String) :
    (eachLine line (v :: vs)).outcome t =
      (.ok (Error.fault f).exitCode, t.addErr (Error.fault f).report) := by
  rw [eachLine, hv]
  exact outcome_report ht (.fault f)

/-- The first values have lines. -/
theorem outcome_eachLine_append (ht : t.Unlimited) {pre : List String} {text : String → String}
    (hpre : ∀ v ∈ pre, line v = .ok (text v)) (vs : List String) :
    (eachLine line (pre ++ vs)).outcome t =
      (eachLine line vs).outcome (t.addOut (String.join (pre.map text))) := by
  induction pre generalizing t with
  | nil =>
    rw [List.map_nil, String.join_nil, ht.addOut_empty]
    rfl
  | cons v pre ih =>
    rcases List.forall_mem_cons.mp hpre with ⟨hv, hrest⟩
    rw [List.cons_append, outcome_eachLine_cons ht hv, ih (ht.addOut _) hrest,
      Traces.addOut_addOut, List.map_cons, String.join_cons]

/-- One value has a line, and its run succeeds and leaves this line, or it is refused, and its run
ends with a report. -/
theorem eachLine_singleton_cases {v : String} {r : Outcome}
    (hline : RefusedOnlyFor (line v) fun _ => True)
    (hr : r = (eachLine line [v]).outcome .empty) :
    r.succeeds = true ∧ line v = .ok r.2.out.text ∨
      r.succeeds = false ∧ ∃ f, line v = .error (.returned f) ∧
        r = (.ok (Error.fault f).exitCode, Traces.empty.addErr (Error.fault f).report) := by
  have hempty := Traces.unlimited_empty
  rcases hline with ⟨text, htext⟩ | ⟨f, -, hf⟩
  · left
    rw [outcome_eachLine_cons hempty htext] at hr
    subst hr
    exact ⟨rfl, htext.trans (congrArg Except.ok String.empty_append.symm)⟩
  · right
    rw [outcome_eachLine_refused hempty hf] at hr
    subst hr
    refine ⟨?_, f, hf, rfl⟩
    apply decide_eq_false
    intro hok
    exact exitCode_fault_ne f (Except.ok.inj hok)

/-- Lines are written in order, if no value raises a fault. -/
theorem eachLine_inOrder (hline : ∀ v, RefusedOnlyFor (line v) fun _ => True)
    {alone : String → Outcome} (halone : ∀ v ∈ vs, alone v = (eachLine line [v]).outcome .empty) :
    InOrder alone vs ((eachLine line vs).outcome .empty) := by
  have hempty := Traces.unlimited_empty
  obtain ⟨p, hp⟩ : ∃ p : String → Bool, p = fun v => (alone v).succeeds := ⟨_, rfl⟩
  have hsplit : vs.takeWhile p ++ vs.dropWhile p = vs := List.takeWhile_append_dropWhile
  have hfind : vs.find? (fun v => !p v) = (vs.dropWhile p).head? :=
    List.find?_not_eq_head?_dropWhile p vs
  have hgood : ∀ v ∈ vs.takeWhile p, line v = .ok (alone v).2.out.text := by
    intro v hv
    have hmem := (List.takeWhile_prefix p).subset hv
    rcases eachLine_singleton_cases (hline v) (halone v hmem) with ⟨-, htext⟩ | ⟨hfails, -⟩
    · exact htext
    · have hpv := List.mem_takeWhile_imp hv
      simp [hp, hfails] at hpv
  have hrun := outcome_eachLine_append hempty hgood (vs.dropWhile p)
  rw [hsplit] at hrun
  rw [hrun]
  rcases hrest : vs.dropWhile p with _ | ⟨v, post⟩
  · -- all values have lines
    rw [hrest] at hfind
    subst hp
    constructor
    · exact String.empty_append
    · intro _
      exact ⟨rfl, rfl⟩
    · intro v hv
      rw [hfind] at hv
      cases hv
  · -- `v` is the first value that is refused
    rw [hrest] at hfind hsplit
    have hmem : v ∈ vs := List.mem_of_find?_eq_some hfind
    have hpv := List.find?_some hfind
    subst hp
    rcases eachLine_singleton_cases (hline v) (halone v hmem) with ⟨hok, -⟩ | ⟨-, f, hf, hv⟩
    · simp [hok] at hpv
    · rw [outcome_eachLine_refused (hempty.addOut _) hf]
      constructor
      · exact String.empty_append
      · intro hall
        rw [hall] at hsplit
        simp at hsplit
      · intro w hw
        rw [hfind] at hw
        cases hw
        rw [hv]
        exact ⟨_, rfl, rfl, rfl⟩

/-! ## Options -/

/-- The command with the given name accepts the options: it takes all of them, and there are
settings that it can load. -/
inductive Accepts (env : Surroundings) (a : Arguments) : String → Prop where
  | texts {s : Settings} (settings : loadSettings env a = .ok s) : Accepts env a "show"
  | digits {s : Settings} (only : ∀ f ∈ a.seen, f ∈ [.radix, .config])
      (settings : readSettings env a.config = .ok s) : Accepts env a "digits"
  | parts (only : a.seen = []) : Accepts env a "decompose"

/-- The command with the given name rejects the options: it does not accept them, or it finds for
each value that there are no digits in their radix. -/
inductive Rejects (env : Surroundings) (a : Arguments) (name : String) : Prop where
  | options (not_accepted : ¬Accepts env a name)
  | radix {s : Settings} (command : name = "digits") (settings : readSettings env a.config = .ok s)
      (range : ¬(2 ≤ a.radix.getD s.radix ∧ a.radix.getD s.radix ≤ 36))

theorem runDigits_eq_eachLine {c : Settings} (ha : Arguments.parse args = .ok a)
    (hhelp : a.help = false) (honly : ∀ f ∈ a.seen, f ∈ [.radix, .config])
    (hread : readSettings env a.config = .ok c) (hne : a.positional ≠ []) :
    runDigits env args = eachLine (digitsLine (a.radix.getD c.radix)) a.positional := by
  unfold runDigits
  rw [withArguments_eq ha hhelp, onlyWith_eq ((misplaced?_eq_none_iff _ _).mpr honly),
    if_neg (by simpa using hne), hread]

theorem runDecompose_eq_eachLine (ha : Arguments.parse args = .ok a) (hhelp : a.help = false)
    (honly : a.seen = []) (hne : a.positional ≠ []) :
    runDecompose args = eachLine decomposeLine a.positional := by
  unfold runDecompose
  rw [withArguments_eq ha hhelp, onlyWith_eq ((misplaced?_nil_eq_none_iff _).mpr honly),
    if_neg (by simpa using hne)]

/-- With options that it accepts, a command writes a line for each value. -/
theorem Accepts.exists_line (h : Accepts env a name) (hopts : Arguments.parse opts = .ok a)
    (hnone : a.positional = []) (hend : Arguments.terminated opts = false)
    (hhelp : a.help = false) :
    ∃ line, (∀ v, RefusedOnlyFor (line v) fun _ => True) ∧
      ∀ vs, vs ≠ [] → "-" ∉ vs → run env (name :: (opts ++ "--" :: vs)) = eachLine line vs := by
  have hparse (vs : List String) :
      Arguments.parse (opts ++ "--" :: vs) = .ok { a with positional := vs } := by
    rw [Arguments.parse_append_terminator hopts hend vs, Arguments.addPositional, hnone,
      List.nil_append]
  cases h with
  | @texts s hload =>
    refine ⟨showLine s.radix s.options, ?_, ?_⟩
    · intro v
      exact (showLine_refused (loadSettings_flaw? hload) v).mono fun _ _ => trivial
    · intro vs hne hminus
      have hlone : vs ≠ ["-"] := by
        rintro rfl
        exact hminus List.mem_cons_self
      exact runShow_eq_eachLine (hparse vs) hhelp hload (showValues_of_ne env.input hne hlone)
  | @digits s honly hread =>
    refine ⟨digitsLine (a.radix.getD s.radix), ?_, ?_⟩
    · intro v
      exact (digitsLine_refused _ v).mono fun _ _ => trivial
    · intro vs hne _
      exact runDigits_eq_eachLine (hparse vs) hhelp honly hread hne
  | parts honly =>
    refine ⟨decomposeLine, ?_, ?_⟩
    · intro v
      exact (decomposeLine_refused v).mono fun _ _ => trivial
    · intro vs hne _
      exact runDecompose_eq_eachLine (hparse vs) hhelp honly hne

/-! ## Options that are rejected -/

/-- On all streams the computation leaves the standard output as it is. -/
def Run.Silent (r : Run α) : Prop :=
  ∀ t, (r.outcome t).2.out = t.out

theorem Run.Silent.bind {r : Run α} {f : α → Run β} (hr : r.Silent) (hf : ∀ a, (f a).Silent) :
    Run.Silent (r >>= f) := by
  intro t
  have hout := hr t
  rcases h : r.outcome t with ⟨e | a, t'⟩
  · rw [outcome_bind_error f h]
    rwa [h] at hout
  · rw [outcome_bind h, hf a t']
    rwa [h] at hout

theorem silent_pure (a : α) : Run.Silent (pure a) :=
  fun _ => rfl

theorem silent_writeErr (s : String) : (writeErr s).Silent := by
  intro t
  unfold writeErr
  rw [outcome_bind (outcome_get t)]
  cases t.err.write s <;> rfl

theorem silent_fail (code : ℕ) (message : String) : (fail code message).Silent := by
  unfold fail
  apply (silent_writeErr message).bind
  rintro (_ | _)
  · exact silent_pure exitInternal
  · exact silent_pure code

theorem silent_help (code : ℕ) (lines : List String) : (help code lines).Silent := by
  induction lines with
  | nil => exact silent_pure code
  | cons line lines ih =>
    unfold help
    apply (silent_writeErr _).bind
    rintro (_ | _)
    · exact silent_pure exitInternal
    · exact ih

theorem silent_conclude (e : Failure Error) : (conclude e).Silent := by
  cases e with
  | returned e => exact silent_fail e.exitCode e.report
  | raised e => exact fun _ => rfl

theorem silent_withArguments {lines : List String} {go : Arguments → Run ℕ}
    (hgo : ∀ a, Arguments.parse args = .ok a → (go a).Silent) :
    (withArguments args lines go).Silent := by
  unfold withArguments
  cases ha : Arguments.parse args with
  | error e => exact silent_fail _ _
  | ok a =>
    dsimp only
    split_ifs
    · exact silent_help _ _
    · exact hgo a ha

theorem silent_onlyWith {allowed : List Flag} {go : Run ℕ} (command : String)
    (hgo : (∀ f ∈ a.seen, f ∈ allowed) → go.Silent) :
    (onlyWith a command allowed go).Silent := by
  unfold onlyWith
  cases hflag : a.misplaced? allowed with
  | none => exact hgo ((misplaced?_eq_none_iff a allowed).mp hflag)
  | some f => exact silent_fail _ _

theorem digitsLine_of_range {radix : ℤ} (h : ¬(2 ≤ radix ∧ radix ≤ 36)) (v : String) :
    ∃ e, digitsLine radix v = .error e := by
  unfold digitsLine
  rcases ofText_cases v with ⟨x, hx⟩ | hx
  · rw [hx]
    change ∃ e, (Digits.generate (.ofBinary64 x) radix >>= _) = .error e
    -- also a zero and a value that is not finite are refused for the radix
    rw [Decomposition.generate_of_no_radix (dif_neg h)]
    exact ⟨_, rfl⟩
  · rw [hx]
    exact ⟨_, rfl⟩

theorem silent_eachLine (hline : ∀ v, ∃ e, line v = .error e) (vs : List String) :
    (eachLine line vs).Silent := by
  cases vs with
  | nil => exact silent_pure exitSuccess
  | cons v vs =>
    rcases hline v with ⟨e, he⟩
    rw [eachLine, he]
    exact silent_conclude _

theorem silent_of_rejects (hname : name ∈ ["show", "digits", "decompose"])
    (h : ∀ a, Arguments.parse args = .ok a → Rejects env a name) :
    (run env (name :: args)).Silent := by
  simp only [List.mem_cons, List.not_mem_nil, or_false] at hname
  rcases hname with rfl | rfl | rfl
  · change (runShow env args).Silent
    unfold runShow
    apply silent_withArguments
    intro a ha
    cases hload : loadSettings env a with
    | error e => exact silent_conclude e
    | ok s =>
      rcases h a ha with hnot | ⟨hdigits, -, -⟩
      · exact absurd (.texts hload) hnot
      · exact absurd hdigits (by decide)
  · change (runDigits env args).Silent
    unfold runDigits
    apply silent_withArguments
    intro a ha
    apply silent_onlyWith
    intro honly
    split_ifs
    · exact silent_fail _ _
    · cases hread : readSettings env a.config with
      | error e => exact silent_conclude e
      | ok s =>
        rcases h a ha with hnot | ⟨-, hread', hrange⟩
        · exact absurd (.digits honly hread) hnot
        · cases hread.symm.trans hread'
          exact silent_eachLine (digitsLine_of_range hrange) a.positional
  · change (runDecompose args).Silent
    unfold runDecompose
    apply silent_withArguments
    intro a ha
    apply silent_onlyWith
    intro honly
    rcases h a ha with hnot | ⟨hdigits, -, -⟩
    · exact absurd (.parts (List.subset_nil.mp honly)) hnot
    · exact absurd hdigits (by decide)

/-! ## The commands -/

/-- What the command with the given name leaves for the options `opts` and the values `vs`. -/
def valuesOutcome (env : Surroundings) (name : String) (opts vs : List String) : Outcome :=
  (run env (name :: (opts ++ "--" :: vs))).outcome .empty

/-- Let options be accepted by a command that writes lines for values, without positional arguments
and without the argument `--` among them. Then values after the argument `--` are treated one by one
and in order, as by the same command for one value each, up to the first that fails. A command that
rejects its options, or cannot read them, writes nothing on the standard output. -/
theorem run_values_inOrder (env : Surroundings) {name : String}
    (hname : name ∈ ["show", "digits", "decompose"]) :
    (∀ opts a, Arguments.parse opts = .ok a → a.positional = [] →
      Arguments.terminated opts = false → a.help = false → Accepts env a name →
      ∀ vs, vs ≠ [] → "-" ∉ vs →
        InOrder (fun v => valuesOutcome env name opts [v]) vs (valuesOutcome env name opts vs)) ∧
    ∀ args, (∀ a, Arguments.parse args = .ok a → Rejects env a name) →
      ((run env (name :: args)).outcome .empty).2.out.text = "" := by
  constructor
  · intro opts a hopts hnone hend hhelp haccepts vs hne hminus
    rcases haccepts.exists_line hopts hnone hend hhelp with ⟨line, hline, hrun⟩
    have hvalues {ws : List String} (hws : ws ≠ []) (hlone : "-" ∉ ws) :
        valuesOutcome env name opts ws = (eachLine line ws).outcome .empty := by
      rw [valuesOutcome, hrun ws hws hlone]
    rw [hvalues hne hminus]
    apply eachLine_inOrder hline
    intro v hv
    have hlone : "-" ≠ v := by
      rintro rfl
      exact hminus hv
    exact hvalues (List.cons_ne_nil v []) (by simpa using hlone)
  · intro args hargs
    rw [silent_of_rejects hname hargs]
    rfl

/-- The third of four values is no number, so that the fourth one is not looked at. An option that
has no meaning for `decompose` is rejected, and so is the radix 1. -/
theorem run_values_inOrder_digits :
    Arguments.parse ["--radix", "16"] = .ok ⟨false, "", none, none, some 16, [.radix], []⟩ ∧
      Arguments.terminated ["--radix", "16"] = false ∧
      Accepts (surroundings "" "" []) ⟨false, "", none, none, some 16, [.radix], []⟩ "digits" ∧
      InOrder (fun v => valuesOutcome (surroundings "" "" []) "digits" ["--radix", "16"] [v])
        ["255", "-0x1p-2", "--radix", "1"]
        (valuesOutcome (surroundings "" "" []) "digits" ["--radix", "16"]
          ["255", "-0x1p-2", "--radix", "1"]) ∧
      valuesOutcome (surroundings "" "" []) "digits" ["--radix", "16"]
          ["255", "-0x1p-2", "--radix", "1"] =
        (.ok exitInvalid, (Traces.empty.addOut "ff e2\n4 e0\n").addErr
          "error: INVALID_ARGUMENT: rterr: INVALID_ARGUMENT: \"--radix\" is not a number\n") ∧
      Arguments.parse ["--style=fixed", "1"] =
        .ok ⟨false, "", some "fixed", none, none, [.style], ["1"]⟩ ∧
      ((run (surroundings "" "" [])
          ["decompose", "--style=fixed", "1"]).outcome .empty).2.out.text = "" ∧
      Arguments.parse ["--radix=1", "0"] =
        .ok ⟨false, "", none, none, some 1, [.radix], ["0"]⟩ ∧
      ((run (surroundings "" "" [])
          ["digits", "--radix=1", "0"]).outcome .empty).2.out.text = "" := by
  have hopts : Arguments.parse ["--radix", "16"] =
      .ok ⟨false, "", none, none, some 16, [.radix], []⟩ := by decide +kernel
  have hend : Arguments.terminated ["--radix", "16"] = false := by decide +kernel
  have haccepts : Accepts (surroundings "" "" [])
      ⟨false, "", none, none, some 16, [.radix], []⟩ "digits" :=
    .digits (by simp) (s := .default "") rfl
  have hstyle : Arguments.parse ["--style=fixed", "1"] =
      .ok ⟨false, "", some "fixed", none, none, [.style], ["1"]⟩ := by decide +kernel
  have hradix : Arguments.parse ["--radix=1", "0"] =
      .ok ⟨false, "", none, none, some 1, [.radix], ["0"]⟩ := by decide +kernel
  refine ⟨hopts, hend, haccepts, ?_, by decide +kernel, hstyle, ?_, hradix, ?_⟩
  · exact (run_values_inOrder _ (by decide)).1 _ _ hopts rfl hend rfl haccepts _ (by decide)
      (by decide)
  · apply (run_values_inOrder _ (by decide)).2
    intro a ha
    cases hstyle.symm.trans ha
    apply Rejects.options
    generalize hname : "decompose" = name
    intro h
    cases h with
    | texts => exact absurd hname (by decide)
    | digits => exact absurd hname (by decide)
    | parts honly => cases honly
  · apply (run_values_inOrder _ (by decide)).2
    intro a ha
    cases hradix.symm.trans ha
    exact .radix (s := .default "") rfl rfl (by decide)

end Numerals.Command
