import Numerals.Main
import Numerals.Proofs.Command.Input
import Numerals.Proofs.Command.Returns
import Numerals.Proofs.Text.Value

/-!
# Sessions

A session is valid if numbers can be written with its settings. Main statement: a valid session
stays valid for as long as it goes on. A line changes the one setting that it names, to a value with
which the session is still valid, and any other line changes none. The values on a line are written
with the settings of the session, up to the first one that is no number; nothing else can fail. No
line ends the program, unless a command on it reads a file with settings on which their format
crashes.
-/

namespace Numerals

namespace Command

variable {α : Type} {env : Surroundings} {s s' next : Session} {t t' : Traces}
  {name text : String} {e : Error} {args fields lines vs : List String} {ps : List Prompt}

/-! ## Valid sessions -/

namespace Session

/-- Numbers can be written with the settings of the session. -/
def Valid (s : Session) : Prop :=
  s.settings.flaw? = none

theorem validate_eq_ok_iff : s.settings.validate = .ok s.settings ↔ s.Valid :=
  Settings.validate_eq_ok_iff

/-- The precision and the radix of a valid session are long words. -/
theorem Valid.isInt64 (hs : s.Valid) : Text.isInt64 s.precision ∧ Text.isInt64 s.radix := by
  have hvalid := Settings.valid_of_flaw?_eq_none hs
  rcases hvalid.radix with ⟨b, hb⟩
  constructor
  · rcases hvalid.precision with ⟨hlow, hhigh⟩
    exact Text.isInt64_of_mem (le_trans (by decide) hlow) (lt_of_le_of_lt hhigh (by decide))
  · have hradix : s.radix = b.val := hb
    have hlo := b.two_le
    have hhi := b.le_max
    rw [hradix]
    exact Text.isInt64_of_mem (by omega) (by omega)

/-! ## What a line does to the settings -/

/-- The line asks for `next`: it has exactly two fields, the name of a setting and its value, and
`next` differs from `s` in no other setting. -/
def Assigns (fields : List String) (s next : Session) : Prop :=
  (∃ v, fields = [":style", v] ∧ next = { s with style := v }) ∨
  (∃ v n, fields = [":precision", v] ∧ Text.readInt64? v = some n ∧
    next = { s with precision := n }) ∨
  ∃ v n, fields = [":radix", v] ∧ Text.readInt64? v = some n ∧ next = { s with radix := n }

theorem Assigns.name_mem (h : Assigns (name :: args) s next) :
    name ∈ [":style", ":precision", ":radix"] ∧ ∃ v, args = [v] := by
  rcases h with ⟨v, hfields, -⟩ | ⟨v, n, hfields, -⟩ | ⟨v, n, hfields, -⟩
  · cases hfields
    exact ⟨by simp, v, rfl⟩
  · cases hfields
    exact ⟨by simp, v, rfl⟩
  · cases hfields
    exact ⟨by simp, v, rfl⟩

theorem assigns_style_iff {v : String} :
    Assigns [":style", v] s next ↔ next = { s with style := v } := by
  simp [Assigns]

theorem assigns_precision_iff {v : String} :
    Assigns [":precision", v] s next ↔
      ∃ n, Text.readInt64? v = some n ∧ next = { s with precision := n } := by
  simp [Assigns]

theorem assigns_radix_iff {v : String} :
    Assigns [":radix", v] s next ↔
      ∃ n, Text.readInt64? v = some n ∧ next = { s with radix := n } := by
  simp [Assigns]

/-- The session `s'` after the line: what the line asks for, if it asks for anything and that is
valid, and otherwise `s` as it was. -/
structure After (fields : List String) (s s' : Session) : Prop where
  assigned : ∀ next, Assigns fields s next → next.Valid → s' = next
  kept : (∀ next, Assigns fields s next → ¬next.Valid) → s' = s

theorem After.of_not_assigns (h : ∀ next, ¬Assigns fields s next) : After fields s s :=
  ⟨fun next hnext => absurd hnext (h next), fun _ => rfl⟩

/-- One line keeps a session valid. -/
theorem After.valid (h : After fields s s') (hs : s.Valid) : s'.Valid := by
  by_cases hnext : ∃ next, Assigns fields s next ∧ next.Valid
  · rcases hnext with ⟨next, hassigns, hvalid⟩
    rw [h.assigned next hassigns hvalid]
    exact hvalid
  · rw [h.kept fun next hassigns hvalid => hnext ⟨next, hassigns, hvalid⟩]
    exact hs

/-- A session changes to what a line asks for if that is valid, and otherwise stays as it is. -/
theorem returns_change (hassigns : ∀ s', Assigns fields s s' ↔ s' = next) :
    (s.change next).Returns fun s' => After fields s s' := by
  unfold change Settings.validate
  cases hflaw : next.settings.flaw? with
  | none =>
    apply returns_pure
    constructor
    · intro s' hs' _
      exact ((hassigns s').mp hs').symm
    · intro hnone
      exact absurd hflaw (hnone next ((hassigns next).mpr rfl))
  | some f =>
    apply (ends_report _).discard.bind
    intro _
    apply returns_pure
    constructor
    · intro s' hs' hvalid
      rw [(hassigns s').mp hs', Valid, hflaw] at hvalid
      cases hvalid
    · intro _
      rfl

theorem returns_changeInteger (flag : Flag) {v : String} {change : ℤ → Session}
    (hassigns : ∀ s', Assigns fields s s' ↔ ∃ n, Text.readInt64? v = some n ∧ s' = change n) :
    (s.changeInteger flag v change).Returns fun s' => After fields s s' := by
  unfold changeInteger
  cases hread : Text.readInt64? v with
  | none =>
    apply (ends_writeErr _).discard.bind
    intro _
    apply returns_pure
    apply After.of_not_assigns
    intro s' hs'
    rcases (hassigns s').mp hs' with ⟨n, hn, -⟩
    rw [hread] at hn
    cases hn
  | some n =>
    apply returns_change
    intro s'
    rw [hassigns, hread]
    simp

theorem returns_set (s : Session) (hname : name ∈ [":style", ":precision", ":radix"])
    (args : List String) : (s.set name args).Returns fun s' => After (name :: args) s s' := by
  by_cases hargs : ∃ v, args = [v]
  · rcases hargs with ⟨v, rfl⟩
    simp only [List.mem_cons, List.not_mem_nil, or_false] at hname
    rcases hname with rfl | rfl | rfl
    · exact returns_change fun _ => assigns_style_iff
    · exact returns_changeInteger .precision fun _ => assigns_precision_iff
    · exact returns_changeInteger .radix fun _ => assigns_radix_iff
  · -- a setting without exactly one value
    have hafter : After (name :: args) s s := .of_not_assigns fun next h => hargs h.name_mem.2
    unfold set
    split
    · exact absurd ⟨_, rfl⟩ hargs
    · apply (ends_writeErr _).discard.bind
      intro _
      exact returns_pure hafter

/-! ## Lines without a colon -/

theorem valueCommand?_eq_none (hname : name ∉ ["show", "digits", "decompose", "pow"]) :
    valueCommand? env name args = none := by
  unfold valueCommand?
  split
  · exact absurd (by simp) hname
  · exact absurd (by simp) hname
  · exact absurd (by simp) hname
  · exact absurd (by simp) hname
  · rfl

theorem valueCommand?_eq_none_of_colon (hhead : name.toList.head? = some ':') :
    valueCommand? env name args = none := by
  apply valueCommand?_eq_none
  simp only [List.mem_cons, List.not_mem_nil, or_false]
  rintro (rfl | rfl | rfl | rfl) <;> exact absurd hhead (by decide)

theorem ne_of_head {n : String} (hhead : name.toList.head? ≠ some ':')
    (hn : n.toList.head? = some ':') : name ≠ n := by
  rintro rfl
  exact hhead hn

/-- A line that does not begin with a colon runs a command, which is `show` if no other one is
named. -/
theorem eval_of_head (s : Session) (hhead : name.toList.head? ≠ some ':') :
    s.eval env (name :: args) = (do
      discard ((valueCommand? env.withoutInput name args).getD
        (runShow env.withoutInput (s.showArguments (name :: args))))
      return some s) := by
  have hne {n : String} : n.toList.head? = some ':' → name ≠ n := ne_of_head hhead
  have hquit : ¬(name = ":quit" || name = ":exit") := by
    simp [hne (n := ":quit") rfl, hne (n := ":exit") rfl]
  have hset : ¬(name = ":style" || name = ":precision" || name = ":radix") := by
    simp [hne (n := ":style") rfl, hne (n := ":precision") rfl, hne (n := ":radix") rfl]
  unfold eval
  dsimp only
  rw [if_neg hquit, if_neg (hne rfl), if_neg (hne rfl), if_neg hset]
  cases valueCommand? env.withoutInput name args with
  | some command => rw [Option.getD_some]
  | none =>
    dsimp only
    rw [if_neg hhead, Option.getD_none]

/-! ## Values under the settings of a session -/

end Session

theorem Arguments.parseFrom_flag {a b : Arguments} {flag : Flag} {arg value : String}
    (harg : Argument.ofText arg = .flag flag none) (hset : a.set flag value = .ok b)
    (rest : List String) : a.parseFrom (arg :: value :: rest) = b.parseFrom rest := by
  rw [Arguments.parseFrom, harg]
  dsimp only
  rw [hset]

namespace Session

/-- The arguments of a session for `show` are read as its settings and the values. -/
theorem Valid.parse_showArguments (hs : s.Valid) (vs : List String) :
    Arguments.parse (s.showArguments vs) =
      .ok ⟨false, "", some s.style, some s.precision, some s.radix, [.style, .precision, .radix],
        vs⟩ := by
  have hstyle : Argument.ofText "--style" = .flag .style none := by decide +kernel
  have hprecision : Argument.ofText "--precision" = .flag .precision none := by decide +kernel
  have hradix : Argument.ofText "--radix" = .flag .radix none := by decide +kernel
  have hterminator : Argument.ofText "--" = .terminator := by decide +kernel
  have hset : Arguments.empty.set .style s.style =
      .ok ⟨false, "", some s.style, none, none, [.style], []⟩ := rfl
  have hset' : Arguments.set ⟨false, "", some s.style, none, none, [.style], []⟩ .precision
      (Text.decimal s.precision) =
      .ok ⟨false, "", some s.style, some s.precision, none, [.style, .precision], []⟩ := by
    unfold Arguments.set
    rw [Text.readInt64?_decimal hs.isInt64.1]
    rfl
  have hset'' : Arguments.set ⟨false, "", some s.style, some s.precision, none,
      [.style, .precision], []⟩ .radix (Text.decimal s.radix) =
      .ok ⟨false, "", some s.style, some s.precision, some s.radix,
        [.style, .precision, .radix], []⟩ := by
    unfold Arguments.set
    rw [Text.readInt64?_decimal hs.isInt64.2]
    rfl
  unfold Arguments.parse showArguments
  rw [List.cons_append, List.cons_append, Arguments.parseFrom_flag hstyle hset, List.cons_append,
    List.cons_append, Arguments.parseFrom_flag hprecision hset', List.cons_append,
    List.cons_append, Arguments.parseFrom_flag hradix hset'', List.cons_append,
    List.nil_append, Arguments.parseFrom, hterminator]
  rfl

/-- The settings of a session without the file of its lines are loaded as they are. -/
theorem Valid.loadSettings_eq (hs : s.Valid) (env : Surroundings) (seen : List Flag) :
    loadSettings env ⟨false, "", some s.style, some s.precision, some s.radix, seen, vs⟩ =
      .ok { s.settings with history := (Settings.default env.home).history } := by
  have hread : readSettings env "" = .ok (.default env.home) := if_pos rfl
  have hflaw : (override (.default env.home)
      ⟨false, "", some s.style, some s.precision, some s.radix, seen, vs⟩).flaw? = none := hs
  rw [loadSettings_of_ok hread, Settings.validate, hflaw]
  rfl

/-- The values are written with exactly the settings of the session. -/
theorem Valid.runShow_eq (hs : s.Valid) (env : Surroundings) (hne : vs ≠ [])
    (hminus : vs ≠ ["-"]) :
    runShow env (s.showArguments vs) = eachLine (showLine s.radix s.settings.options) vs := by
  rw [runShow_eq_eachLine (hs.parse_showArguments vs) rfl (hs.loadSettings_eq env _)
    (showValues_of_ne env.input hne hminus)]
  rfl

theorem Valid.runShow_ends (hs : s.Valid) (env : Surroundings) (vs : List String) :
    (runShow env (s.showArguments vs)).Ends := by
  apply Command.runShow_ends
  rintro e ⟨name, args, a, heq, ha, -, -, hfile⟩
  cases heq
  rw [hs.parse_showArguments vs] at ha
  cases ha
  exact hfile.1 rfl

/-- The line consists of values. -/
def IsValueLine (fields : List String) : Prop :=
  ∃ name args, fields = name :: args ∧ name ∉ ["show", "digits", "decompose", "pow"] ∧
    name.toList.head? ≠ some ':' ∧ fields ≠ ["-"]

theorem IsValueLine.eval_eq (h : IsValueLine fields) (hs : s.Valid) (env : Surroundings) :
    s.eval env fields = (do
      discard (eachLine (showLine s.radix s.settings.options) fields)
      return some s) := by
  rcases h with ⟨name, args, rfl, hname, hhead, hminus⟩
  rw [eval_of_head s hhead, valueCommand?_eq_none hname,
    Option.getD_none, hs.runShow_eq _ (List.cons_ne_nil name args) hminus]

/-- Values with their lines. The texts up to the first value that is no number, and this value. -/
inductive Shown (radix : ℤ) (o : Options) : List String → String → Option String → Prop
  | nil : Shown radix o [] "" none
  | number {v : String} {vs : List String} {x : Binary64} {text out : String}
      {refused : Option String} (hx : Binary64.ofText v = .ok x)
      (htext : (Decomposition.ofBinary64 x).render radix o = .ok text)
      (hrest : Shown radix o vs out refused) :
      Shown radix o (v :: vs) (text ++ "\n" ++ out) refused
  | refused {v : String} (vs : List String)
      (hv : Binary64.ofText v = .error (.returned (.notANumber v))) :
      Shown radix o (v :: vs) "" (some v)

/-- What is reported if the value `refused` is no number. -/
def complaint (refused : Option String) : String :=
  refused.elim "" fun v => (Error.fault (.notANumber v)).report

/-- The values are written on standard output up to the first one that is no number, and that one is
reported. Nothing else is reported. -/
theorem outcome_eachLine_showLine {c : Settings} (hc : c.flaw? = none) (ht : t.Unlimited)
    (vs : List String) :
    ∃ out refused code, Shown c.radix c.options vs out refused ∧
      (eachLine (showLine c.radix c.options) vs).outcome t =
        (.ok code, (t.addOut out).addErr (complaint refused)) := by
  induction vs generalizing t with
  | nil =>
    refine ⟨"", none, exitSuccess, .nil, ?_⟩
    change (Except.ok exitSuccess, t) = _
    rw [complaint, Option.elim_none, ht.addOut_empty, ht.addErr_empty]
  | cons v vs ih =>
    rcases ofText_cases v with ⟨x, hx⟩ | hx
    · rcases Decomposition.exists_render hc x with ⟨text, htext⟩
      rcases ih (ht.addOut (text ++ "\n")) with ⟨out, refused, code, hshown, hout⟩
      refine ⟨_, refused, code, .number hx htext hshown, ?_⟩
      rw [outcome_eachLine_cons ht (showLine_eq hx htext) vs, hout, Traces.addOut_addOut]
    · refine ⟨"", some v, (Error.fault (.notANumber v)).exitCode, .refused vs hx, ?_⟩
      rw [eachLine, showLine_of_error hx, ht.addOut_empty]
      exact outcome_report ht _

/-! ## Answers to prompts -/

/-- The line asks to leave the session. -/
def Quits (fields : List String) : Prop :=
  fields.head? = some ":quit" ∨ fields.head? = some ":exit"

/-- A line that neither asks for a setting nor to leave keeps the session. -/
theorem returns_kept {r : Run α} (s : Session) (hr : r.Ends)
    (hname : name ∉ [":style", ":precision", ":radix"]) (hquit : ¬Quits (name :: args)) :
    Run.Returns (do discard r; return some s) fun r =>
      After (name :: args) s (r.getD s) ∧ (r.isNone ↔ Quits (name :: args)) := by
  apply hr.discard.bind
  intro _
  apply returns_pure
  constructor
  · exact .of_not_assigns fun next h => hname h.name_mem.1
  · exact iff_of_false nofun hquit

/-- A line is evaluated to the session after it, or to nothing if it asks to leave. -/
theorem returns_eval (hs : s.Valid)
    (hfile : ∀ e, ¬ReadsCrashingFile env.withoutInput fields e) :
    (s.eval env fields).Returns fun r =>
      After fields s (r.getD s) ∧ (r.isNone ↔ Quits fields) := by
  cases fields with
  | nil => exact returns_pure ⟨.of_not_assigns (by simp [Assigns]), by simp [Quits]⟩
  | cons name args =>
    by_cases hhead : name.toList.head? = some ':'
    · unfold eval
      dsimp only
      split_ifs with hquit hhelp hsettings hset
      · simp only [Bool.or_eq_true, decide_eq_true_eq] at hquit
        apply returns_pure
        constructor
        · apply After.of_not_assigns
          intro next h
          rcases hquit with rfl | rfl <;> exact absurd h.name_mem.1 (by simp)
        · simpa [Quits] using hquit
      · subst hhelp
        exact returns_kept s (ends_writeOut _) (by simp) (by simp [Quits])
      · subst hsettings
        exact returns_kept s (ends_writeOut _) (by simp) (by simp [Quits])
      · have hname : name ∈ [":style", ":precision", ":radix"] := by
          simpa [or_assoc] using hset
        apply (returns_set s hname args).map
        intro s' hafter
        exact ⟨hafter, by simpa [Quits] using hquit⟩
      · -- an unknown command
        rw [valueCommand?_eq_none_of_colon hhead]
        exact returns_kept s (ends_writeErr _) (by simpa [or_assoc] using hset)
          (by simpa [Quits] using hquit)
    · have hne {n : String} : n.toList.head? = some ':' → name ≠ n := ne_of_head hhead
      have hends : ((valueCommand? env.withoutInput name args).getD
          (runShow env.withoutInput (s.showArguments (name :: args)))).Ends := by
        cases hcommand : valueCommand? env.withoutInput name args with
        | some command =>
          rw [Option.getD_some]
          exact valueCommand?_ends hcommand hfile
        | none =>
          rw [Option.getD_none]
          exact hs.runShow_ends _ _
      rw [eval_of_head s hhead]
      apply returns_kept s hends
      · simp [hne (n := ":style") rfl, hne (n := ":precision") rfl, hne (n := ":radix") rfl]
      · simp [Quits, hne (n := ":quit") rfl, hne (n := ":exit") rfl]

theorem eval_crashes (s : Session) (h : ReadsCrashingFile env.withoutInput fields e) (t : Traces) :
    (s.eval env fields).outcome t = (.error e, t) := by
  rcases h with ⟨name, args, a, rfl, ha, hhelp, hreads, hfile⟩
  have hhead : name.toList.head? ≠ some ':' := by
    rcases hreads with rfl | ⟨rfl, -⟩ <;> decide
  rcases valueCommand?_crashes ⟨name, args, a, rfl, ha, hhelp, hreads, hfile⟩ with
    ⟨command, hcommand, hcrash⟩
  rw [eval_of_head s hhead, hcommand, Option.getD_some]
  exact outcome_bind_error _ (outcome_map_error _ (hcrash t))

/-- The turn of a session that evaluates a line to `r`. -/
def turn (s : Session) (line : String) (r : Option Session) : Turn :=
  ⟨some line, r.getD s, if r.isNone then some exitSuccess else none⟩

theorem answer_line (s : Session) (h : (Text.trim text).isEmpty = false) :
    s.answer env (.line text) = s.turn (Text.trim text) <$> s.eval env (Text.fields text) := by
  unfold answer
  dsimp only
  rw [h, Text.fields_trim, map_eq_pure_bind]
  apply bind_congr
  intro r
  cases r <;> rfl

/-- A session answers a prompt without an exception, and stays valid, unless a command reads a file
on which the format of the settings crashes. -/
theorem returns_answer {p : Prompt} (hs : s.Valid)
    (hfile : ∀ text, p = .line text →
      ∀ e, ¬ReadsCrashingFile env.withoutInput (Text.fields text) e) :
    (s.answer env p).Returns fun turn => turn.session.Valid := by
  cases p with
  | endOfInput => exact returns_pure hs
  | aborted => exact returns_pure hs
  | failure message =>
    apply (ends_fail _ _).bind
    intro code
    exact returns_pure hs
  | line text =>
    cases hempty : (Text.trim text).isEmpty with
    | true =>
      unfold answer
      dsimp only
      rw [hempty]
      exact returns_pure hs
    | false =>
      rw [answer_line s hempty]
      apply (returns_eval hs (hfile text rfl)).map
      rintro r ⟨hafter, -⟩
      exact hafter.valid hs

/-- One prompt keeps a session valid. -/
theorem Valid.answer {p : Prompt} {turn : Turn} (hs : s.Valid)
    (h : (s.answer env p).outcome t = (.ok turn, t')) : turn.session.Valid := by
  by_cases hfile : ∀ text, p = .line text →
      ∀ e, ¬ReadsCrashingFile env.withoutInput (Text.fields text) e
  · rcases returns_answer hs hfile t with ⟨turn', t'', hout, hvalid⟩
    cases hout.symm.trans h
    exact hvalid
  · push Not at hfile
    rcases hfile with ⟨text, rfl, e, hcrash⟩
    have hne : Text.fields text ≠ [] := by
      rcases hcrash with ⟨name, args, -, heq, -⟩
      rw [heq]
      exact List.cons_ne_nil name args
    have hout := outcome_map_error (s.turn (Text.trim text)) (eval_crashes s hcrash t)
    rw [← answer_line s (Text.trim_isEmpty_of_ne hne), h] at hout
    cases hout

/-! ## Sessions of any length -/

/-- The session `s` on the streams `t` takes the prompts without an end, remembers the lines, and is
then `s'` on the streams `t'`. -/
inductive Follows (env : Surroundings) :
    Session → Traces → List Prompt → List String → Session → Traces → Prop
  | nil (s : Session) (t : Traces) : Follows env s t [] [] s t
  | cons {s s' : Session} {t t₁ t' : Traces} {p : Prompt} {ps : List Prompt} {turn : Turn}
      {lines : List String} (hanswer : (s.answer env p).outcome t = (.ok turn, t₁))
      (hexit : turn.exit = none) (hrest : Follows env turn.session t₁ ps lines s' t') :
      Follows env s t (p :: ps) (turn.entered.toList ++ lines) s' t'

/-- A session stays valid for as long as it goes on. -/
theorem Follows.valid (h : Follows env s t ps lines s' t') (hs : s.Valid) : s'.Valid := by
  induction h with
  | nil => exact hs
  | cons hanswer hexit hrest ih => exact ih (hs.answer hanswer)

/-- The loop comes to the session `s'` and goes on from there. -/
theorem Follows.outcome_loop (h : Follows env s t ps lines s' t') (rest : List Prompt) :
    (s.loop env (ps ++ rest)).outcome t =
      Run.outcome ((fun r => (r.1, lines ++ r.2)) <$> s'.loop env rest) t' := by
  induction h with
  | nil s t =>
    simp only [List.nil_append]
    exact congrArg (Run.outcome · t) (id_map _).symm
  | cons hanswer hexit hrest ih =>
    rw [List.cons_append, loop, outcome_bind hanswer, hexit]
    dsimp only
    rw [outcome_bind_congr _ ih, map_eq_pure_bind, map_eq_pure_bind, bind_assoc]
    simp only [pure_bind, List.append_assoc]

/-- What a valid session does with a line that is not blank. -/
structure Handles (env : Surroundings) (s : Session) (t : Traces) (text : String) : Prop where
  /-- A file on which the format of the settings crashes ends the program. -/
  crashes : ∀ e, ReadsCrashingFile env.withoutInput (Text.fields text) e →
    (s.answer env (.line text)).outcome t = (.error e, t)
  /-- Otherwise there is a session after the line, which is valid and as the line asks. -/
  settles : (∀ e, ¬ReadsCrashingFile env.withoutInput (Text.fields text) e) →
    ∃ turn t', (s.answer env (.line text)).outcome t = (.ok turn, t') ∧
      After (Text.fields text) s turn.session ∧
      turn.session.settings.validate = .ok turn.session.settings ∧
      (turn.exit.isSome ↔ Quits (Text.fields text))
  /-- Values are written with the settings of the session. -/
  shows : IsValueLine (Text.fields text) →
    s.answer env (.line text) = (do
      discard (eachLine (showLine s.radix s.settings.options) (Text.fields text))
      return ⟨some (Text.trim text), s, none⟩)
  /-- They are refused only for the first one that is no number. -/
  refuses : IsValueLine (Text.fields text) → t.Unlimited →
    ∃ out refused, Shown s.radix s.settings.options (Text.fields text) out refused ∧
      (s.answer env (.line text)).outcome t =
        (.ok ⟨some (Text.trim text), s, none⟩, (t.addOut out).addErr (complaint refused))

theorem IsValueLine.answer_eq (h : IsValueLine (Text.fields text)) (hs : s.Valid)
    (env : Surroundings) :
    s.answer env (.line text) = (do
      discard (eachLine (showLine s.radix s.settings.options) (Text.fields text))
      return ⟨some (Text.trim text), s, none⟩) := by
  have hne : Text.fields text ≠ [] := by
    rcases h with ⟨name, args, heq, -⟩
    rw [heq]
    exact List.cons_ne_nil name args
  rw [answer_line s (Text.trim_isEmpty_of_ne hne), h.eval_eq hs env, map_bind]
  rfl

theorem Valid.handles (hs : s.Valid) (env : Surroundings) (t : Traces)
    (hne : Text.fields text ≠ []) : Handles env s t text := by
  have hline : s.answer env (.line text) =
      s.turn (Text.trim text) <$> s.eval env (Text.fields text) :=
    answer_line s (Text.trim_isEmpty_of_ne hne)
  constructor
  · intro e hcrash
    rw [hline]
    exact outcome_map_error _ (eval_crashes s hcrash t)
  · intro hfile
    rcases returns_eval hs hfile t with ⟨r, t', hout, hafter, hquit⟩
    refine ⟨s.turn (Text.trim text) r, t', ?_, hafter, ?_, ?_⟩
    · rw [hline]
      exact outcome_map _ hout
    · exact validate_eq_ok_iff.mpr (hafter.valid hs)
    · rw [← hquit]
      cases r <;> simp [turn]
  · intro hvalues
    exact hvalues.answer_eq hs env
  · intro hvalues ht
    rcases outcome_eachLine_showLine hs ht (Text.fields text) with
      ⟨out, refused, code, hshown, hout⟩
    refine ⟨out, refused, hshown, ?_⟩
    rw [hvalues.answer_eq hs env]
    exact outcome_bind (outcome_discard hout)

/-- Let the settings of a session be valid at its start. After any prompts they are valid, the loop
goes on with them, and any line is handled under them. -/
theorem settings_invariant (hs : s.settings.validate = .ok s.settings)
    (h : Follows env s t ps lines s' t') :
    s'.settings.validate = .ok s'.settings ∧
      (∀ rest, (s.loop env (ps ++ rest)).outcome t =
        Run.outcome ((fun r => (r.1, lines ++ r.2)) <$> s'.loop env rest) t') ∧
      ∀ text, Text.fields text ≠ [] → Handles env s' t' text := by
  have hs' : s'.Valid := h.valid (validate_eq_ok_iff.mp hs)
  refine ⟨validate_eq_ok_iff.mpr hs', h.outcome_loop, ?_⟩
  intro text hne
  exact hs'.handles env t' hne

/-- The style `ecma` excludes radix 16, which is accepted once the style has changed. Then values are
written in this radix, up to one that looks like an option. -/
theorem settings_invariant_ecma :
    (Session.mk "ecma" (-1) 10).settings.validate =
        .ok (Session.mk "ecma" (-1) 10).settings ∧
      Follows (surroundings "" "" []) ⟨"ecma", -1, 10⟩ .empty
        [.line ":radix 16", .line ":style fixed", .line " :radix  16"]
        [":radix 16", ":style fixed", ":radix  16"] ⟨"fixed", -1, 16⟩
        (Traces.empty.addErr "error: CONFIG: rtconfig: ecma style needs radix 10, got 16\n") ∧
      (Session.mk "fixed" (-1) 16).settings.validate =
        .ok (Session.mk "fixed" (-1) 16).settings ∧
      IsValueLine (Text.fields "255.5 --style 1") ∧
      Handles (surroundings "" "" []) ⟨"fixed", -1, 16⟩
        (Traces.empty.addErr "error: CONFIG: rtconfig: ecma style needs radix 10, got 16\n")
        "255.5 --style 1" := by
  have hs : (Session.mk "ecma" (-1) 10).settings.validate =
      .ok (Session.mk "ecma" (-1) 10).settings := by decide +kernel
  have hfollows : Follows (surroundings "" "" []) ⟨"ecma", -1, 10⟩ .empty
      [.line ":radix 16", .line ":style fixed", .line " :radix  16"]
      [":radix 16", ":style fixed", ":radix  16"] ⟨"fixed", -1, 16⟩
      (Traces.empty.addErr "error: CONFIG: rtconfig: ecma style needs radix 10, got 16\n") := by
    have hrefused : (answer (surroundings "" "" []) ⟨"ecma", -1, 10⟩ (.line ":radix 16")).outcome
        .empty = (.ok ⟨some ":radix 16", ⟨"ecma", -1, 10⟩, none⟩,
          Traces.empty.addErr "error: CONFIG: rtconfig: ecma style needs radix 10, got 16\n") := by
      decide +kernel
    have hstyle (t : Traces) : (answer (surroundings "" "" []) ⟨"ecma", -1, 10⟩
        (.line ":style fixed")).outcome t =
          (.ok ⟨some ":style fixed", ⟨"fixed", -1, 10⟩, none⟩, t) := by
      rfl
    have hradix (t : Traces) : (answer (surroundings "" "" []) ⟨"fixed", -1, 10⟩
        (.line " :radix  16")).outcome t =
          (.ok ⟨some ":radix  16", ⟨"fixed", -1, 16⟩, none⟩, t) := by
      rfl
    exact .cons hrefused rfl (.cons (hstyle _) rfl (.cons (hradix _) rfl (.nil _ _)))
  have hfields : Text.fields "255.5 --style 1" = ["255.5", "--style", "1"] := by decide +kernel
  have hvalues : IsValueLine (Text.fields "255.5 --style 1") := by
    rw [hfields]
    exact ⟨"255.5", ["--style", "1"], rfl, by decide, by decide, by decide⟩
  have hne : Text.fields "255.5 --style 1" ≠ [] := by
    rw [hfields]
    exact List.cons_ne_nil _ _
  rcases settings_invariant hs hfollows with ⟨hvalid, -, hhandles⟩
  exact ⟨hs, hfollows, hvalid, hvalues, hhandles _ hne⟩

end Session

end Command

end Numerals
