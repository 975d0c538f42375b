import Numerals.Proofs.Lazy.Evaluation

/-!
# Evaluations in a context

A transition looks at the control and at the first frame of the stack, never at the frames below
it. So an evaluation does the same whatever it is begun on, and an evaluation with a frame below it
is an evaluation by itself, followed by what the frame does with its outcome (`endsOn_frame`).
`Evaluates` is the result of an evaluation by itself, as `run` finds it.
-/

namespace Numerals.Lazy

variable {s s' : Store} {c : Control} {o : Outcome} {K : List Frame} {st next last : State}

/-! ## Frames below a state -/

/-- The state with further frames below its own. -/
def State.onto (st : State) (K : List Frame) : State :=
  { st with stack := st.stack ++ K }

section Onto

variable (s : Store) (stack K : List Frame)

theorem perform_onto (op : Operation) (vs : List Value) :
    perform s (stack ++ K) op vs = (perform s stack op vs).onto K := by
  unfold perform
  split
  case h_9 => split <;> rfl
  all_goals rfl

theorem operate_onto (scope : Scope) (op : Operation) (done : List Value) (rest : List Expr) :
    operate s (stack ++ K) scope op done rest = (operate s stack scope op done rest).onto K := by
  cases rest with
  | nil => exact perform_onto s stack K op done
  | cons e rest => rfl

theorem evaluate_onto (scope : Scope) (e : Expr) :
    evaluate s (stack ++ K) scope e = (evaluate s stack scope e).onto K := by
  cases e with
  | var name =>
    rw [evaluate, evaluate]
    split <;> rfl
  | builtin name =>
    rw [evaluate, evaluate]
    split <;> rfl
  | operate op operands => exact operate_onto s stack K scope op [] operands
  | _ => rfl

theorem force_onto (v : Value) : force s (stack ++ K) v = (force s stack v).onto K := by
  unfold force
  split
  · split
    -- only the computation of a pending cell puts frames on the stack
    case h_3 comp _ =>
      cases comp with
      | expression label safe body scope => cases safe <;> rfl
      | rendering x o => rfl
    all_goals rfl
  · rfl

theorem invoke_onto (f : Callable) (args : List Value) :
    invoke s (stack ++ K) f args = (invoke s stack f args).onto K := by
  unfold invoke
  split <;> rfl

theorem applyForced_onto (v : Value) (args : List Value) :
    applyForced s (stack ++ K) v args = (applyForced s stack v args).onto K := by
  unfold applyForced
  split
  · split_ifs <;> rfl
  · rfl

theorem act_onto (a : Action) : act s (stack ++ K) a = (act s stack a).onto K := by
  cases a <;> rfl

theorem supply_onto (name : String) (position : ℕ) (params : List Param) (f : Curried params)
    (args : List Value) :
    supply s (stack ++ K) name position params f args =
      (supply s stack name position params f args).onto K := by
  unfold supply
  split
  · exact act_onto s stack K _
  all_goals rfl

theorem resume_onto (v : Value) (f : Frame) :
    resume s (stack ++ K) v f = (resume s stack v f).onto K := by
  cases f with
  | operands op done rest scope => exact operate_onto s stack K scope op (done ++ [v]) rest
  | compute id =>
    rw [resume, resume]
    split <;> rfl
  | operator args => exact applyForced_onto s stack K v args
  | argument name position p ps f args =>
    rw [resume, resume]
    split <;> rfl
  | _ => rfl

theorem returnError_onto (e : Error) (f : Frame) :
    returnError s (stack ++ K) e f = (returnError s stack e f).onto K := by
  cases f <;> rfl

theorem raiseError_onto (e : Error) (f : Frame) :
    raiseError s (stack ++ K) e f = (raiseError s stack e f).onto K := by
  cases f with
  | handler h =>
    rw [raiseError, raiseError]
    split <;> rfl
  | _ => rfl

end Onto

/-- Frames below a state that is not the end of an evaluation have no effect on its transition. -/
theorem step_onto (hgo : ¬(st.stack = [] ∧ st.control.isOutcome = true)) (K : List Frame) :
    step (st.onto K) = (step st).map (·.onto K) := by
  obtain ⟨s, control, stack⟩ := st
  cases control with
  | eval e scope => exact congrArg some (evaluate_onto s stack K scope e)
  | force v => exact congrArg some (force_onto s stack K v)
  | apply f args => rfl
  | invoke f args => exact congrArg some (invoke_onto s stack K f args)
  | supply name position params f args =>
    exact congrArg some (supply_onto s stack K name position params f args)
  | value v =>
    cases stack with
    | nil => exact absurd ⟨rfl, rfl⟩ hgo
    | cons f stack => exact congrArg some (resume_onto s stack K v f)
  | fail e =>
    cases stack with
    | nil => exact absurd ⟨rfl, rfl⟩ hgo
    | cons f stack => exact congrArg some (returnError_onto s stack K e f)
  | raise e =>
    cases stack with
    | nil => exact absurd ⟨rfl, rfl⟩ hgo
    | cons f stack => exact congrArg some (raiseError_onto s stack K e f)

/-! ## Evaluations on a stack -/

theorem onto_stack_eq_iff : (st.onto K).stack = K ↔ st.stack = [] :=
  List.append_left_eq_self

theorem EndsOn.onto (h : EndsOn [] st last) (K : List Frame) :
    EndsOn K (st.onto K) (last.onto K) := by
  induction h with
  | done hstack ho => exact .done (onto_stack_eq_iff.mpr hstack) ho
  | @step st next last hgo hstep _ ih =>
    refine .step ?_ ?_ ih
    · rwa [onto_stack_eq_iff]
    · rw [step_onto hgo, hstep]
      rfl

theorem EndsOn.of_onto (h : EndsOn K (st.onto K) last) :
    ∃ last', EndsOn [] st last' ∧ last = last'.onto K := by
  generalize hst : st.onto K = st₁ at h
  induction h generalizing st with
  | done hstack ho =>
    subst hst
    exact ⟨st, .done (onto_stack_eq_iff.mp hstack) ho, rfl⟩
  | step hgo hstep _ ih =>
    subst hst
    rw [onto_stack_eq_iff] at hgo
    rw [step_onto hgo] at hstep
    obtain ⟨next, hnext, honto⟩ := Option.map_eq_some_iff.mp hstep
    obtain ⟨last', hends, hlast⟩ := ih honto
    exact ⟨last', .step hgo hnext hends, hlast⟩

/-- What is done above a stack, and then what is done on a shorter one. -/
theorem EndsOn.trans {L : List Frame} {mid : State} (h : EndsOn L st mid) (hL : L <:+ st.stack)
    (hK : K <:+ L) (hmid : EndsOn K mid last) : EndsOn K st last := by
  induction h with
  | done _ _ => exact hmid
  | @step st next mid hgo hstep _ ih =>
    refine .step ?_ hstep (ih (step_suffix hstep hL hgo) hmid)
    -- on the shorter stack nothing of the longer one would be left
    rintro ⟨hstack, ho⟩
    have heq : L = K := (hstack ▸ hL).eq_of_length_le hK.length_le
    exact hgo ⟨hstack.trans heq.symm, ho⟩

/-! ## Transitions of one evaluation -/

/-- A state and one that comes after any number of transitions. -/
abbrev Reaches : State → State → Prop :=
  Relation.ReflTransGen fun st next => step st = some next

theorem EndsOn.reaches (h : EndsOn K st last) : Reaches st last := by
  induction h with
  | done _ _ => exact .refl
  | step _ hstep _ ih => exact .head hstep ih

/-- Induction along the way to the end, in which every later state may be used. -/
theorem EndsOn.later_induction {motive : State → Prop} (h : EndsOn [] st last)
    (hstep : ∀ st, EndsOn [] st last →
      (∀ next st', Lazy.step st = some next → Reaches next st' → EndsOn [] st' last → motive st') →
      motive st) : motive st := by
  -- the property is shown of all states on the way at once
  suffices hall : ∀ st', Reaches st st' → EndsOn [] st' last → motive st' from hall st .refl h
  induction h with
  | @done st hstack ho =>
    intro st' hreaches hends
    refine hstep st' hends ?_
    intro next _ hnext
    exfalso
    rcases hreaches.cases_head with rfl | ⟨next', hnext', -⟩
    · rw [step_eq_none hstack ho] at hnext
      cases hnext
    · rw [step_eq_none hstack ho] at hnext'
      cases hnext'
  | @step st next last _ hnext _ ih =>
    intro st' hreaches hends
    rcases hreaches.cases_head with rfl | ⟨next', hnext', hrest⟩
    · refine hstep st hends ?_
      intro next' st' hnext' hrest hends'
      cases hnext.symm.trans hnext'
      exact ih hstep st' hrest hends'
    · cases hnext.symm.trans hnext'
      exact ih hstep st' hrest hends

/-- The transitions at the start of an evaluation can be left out. -/
theorem EndsOn.step_iff (hgo : ¬(st.stack = K ∧ st.control.isOutcome = true))
    (hstep : Lazy.step st = some next) : EndsOn K st last ↔ EndsOn K next last := by
  constructor
  · intro h
    obtain ⟨next', hstep', hrest⟩ := h.tail hgo
    cases hstep.symm.trans hstep'
    exact hrest
  · exact .step hgo hstep

theorem EndsOn.unique {last' : State} (h : EndsOn K st last) (h' : EndsOn K st last') :
    last' = last := by
  induction h with
  | done hstack ho => exact h'.eq_of_outcome hstack ho
  | step hgo hstep _ ih => exact ih ((EndsOn.step_iff hgo hstep).mp h')

/-! ## Evaluations by themselves -/

/-- The control that an outcome is. -/
def Outcome.control : Outcome → Control
  | value v => .value v
  | failure (.returned e) => .fail e
  | failure (.raised e) => .raise e

/-- The control `c` in the store `s` has the outcome `o` and leaves the store `s'`. -/
def Evaluates (s : Store) (c : Control) (o : Outcome) (s' : Store) : Prop :=
  ∃ n, (run n ⟨s, c, []⟩).outcome? = some o ∧ (run n ⟨s, c, []⟩).store = s'

@[simp] theorem isOutcome_control (o : Outcome) : o.control.isOutcome = true := by
  rcases o with v | e | e <;> rfl

theorem control_injective : Function.Injective Outcome.control := by
  intro o o' h
  rcases o with v | e | e <;> rcases o' with v' | e' | e' <;> cases h <;> rfl

theorem exists_outcome (h : c.isOutcome = true) : ∃ o : Outcome, c = o.control := by
  cases c with
  | value v => exact ⟨.value v, rfl⟩
  | fail e => exact ⟨.failure (.returned e), rfl⟩
  | raise e => exact ⟨.failure (.raised e), rfl⟩
  | _ => cases h

theorem outcome?_eq_some_iff :
    st.outcome? = some o ↔ st.control = o.control ∧ st.stack = [] := by
  constructor
  · intro h
    refine ⟨?_, stack_of_outcome? h⟩
    obtain ⟨s, control, stack⟩ := st
    obtain rfl : stack = [] := stack_of_outcome? h
    cases control <;> cases h <;> rfl
  · rintro ⟨hcontrol, hstack⟩
    obtain ⟨s, control, stack⟩ := st
    cases hcontrol
    cases hstack
    rcases o with v | e | e <;> rfl

theorem EndsOn.exists_run (h : EndsOn [] st last) : ∃ n, run n st = last := by
  induction h with
  | done _ _ => exact ⟨0, rfl⟩
  | step _ hstep _ ih =>
    obtain ⟨n, hn⟩ := ih
    refine ⟨n + 1, ?_⟩
    rw [run, hstep]
    exact hn

theorem evaluates_iff :
    Evaluates s c o s' ↔ EndsOn [] ⟨s, c, []⟩ ⟨s', o.control, []⟩ := by
  constructor
  · rintro ⟨n, ho, hs⟩
    obtain ⟨hcontrol, hstack⟩ := outcome?_eq_some_iff.mp ho
    have hends := run_endsOn ho
    generalize run n ⟨s, c, []⟩ = st at hends hcontrol hstack hs
    obtain ⟨t, control, stack⟩ := st
    cases hs
    cases hcontrol
    cases hstack
    exact hends
  · intro h
    obtain ⟨n, hn⟩ := h.exists_run
    refine ⟨n, ?_, by rw [hn]⟩
    rw [hn, outcome?_eq_some_iff]
    exact ⟨rfl, rfl⟩

theorem endsOn_outcome_iff {o' : Outcome} :
    EndsOn [] ⟨s, o.control, []⟩ ⟨s', o'.control, []⟩ ↔ o' = o ∧ s' = s := by
  constructor
  · intro h
    have hlast := h.eq_of_outcome rfl (isOutcome_control o)
    simp only [State.mk.injEq] at hlast
    exact ⟨control_injective hlast.2.1, hlast.1⟩
  · rintro ⟨rfl, rfl⟩
    exact .done rfl (isOutcome_control o')

theorem Evaluates.unique {o' : Outcome} {s'' : Store} (h : Evaluates s c o s')
    (h' : Evaluates s c o' s'') : o' = o ∧ s'' = s' := by
  have hlast := (evaluates_iff.mp h).unique (evaluates_iff.mp h')
  simp only [State.mk.injEq] at hlast
  exact ⟨control_injective hlast.2.1, hlast.1⟩

/-- An evaluation with one frame below it: an evaluation by itself, whose outcome the frame
receives. -/
theorem endsOn_frame {f : Frame} :
    EndsOn [] ⟨s, c, [f]⟩ last ↔
      ∃ o s', Evaluates s c o s' ∧ EndsOn [] ⟨s', o.control, [f]⟩ last := by
  constructor
  · intro h
    obtain ⟨mid, habove, hbelow⟩ := h.split (L := [f]) List.suffix_rfl List.nil_suffix
    have habove' : EndsOn [f] (State.onto ⟨s, c, []⟩ [f]) mid := habove
    obtain ⟨last', hends, rfl⟩ := habove'.of_onto
    obtain ⟨t, control, stack⟩ := last'
    obtain rfl : stack = [] := hends.stack_eq
    obtain ⟨o, rfl⟩ := exists_outcome hends.isOutcome
    exact ⟨o, t, evaluates_iff.mpr hends, hbelow⟩
  · rintro ⟨o, t, h, hbelow⟩
    exact ((evaluates_iff.mp h).onto [f]).trans List.suffix_rfl List.nil_suffix hbelow

theorem Evaluates.reaches_frame (h : Evaluates s c o s') (f : Frame) :
    Reaches ⟨s, c, [f]⟩ ⟨s', o.control, [f]⟩ :=
  ((evaluates_iff.mp h).onto [f]).reaches

end Numerals.Lazy
