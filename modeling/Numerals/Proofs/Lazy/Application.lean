import Numerals.Proofs.Lazy.Context
import Numerals.Proofs.Lazy.HeadNormal

/-!
# Applications in turn

To apply a value, the machine forces it and compares the number of arguments with its arity: it
calls the value, keeps the arguments for later, or calls it with some of them and applies what that
yields to the others (`Applies`). Main statement: to apply a value to some arguments and then the
result to further ones has the same outcome as to apply it to all of them at once, up to the nesting
of callables that have arguments given. This rests on forces that return no cells. A value that is
no callable swallows its arguments, but a cell in its place would be forced by the next application.
-/

namespace Numerals.Lazy

variable {s s' s₁ s₂ : Store} {st next last : State} {f v : Value} {g : Callable}
  {o o' o₁ o₂ : Outcome} {args xs ys : List Value}

/-! ## Nested callables -/

/-- The callable with all arguments given at once that are given to it in turn. -/
def Callable.flatten : Callable → Callable
  | primitive name n code => primitive name n code
  | given f args =>
    match f.flatten with
    | primitive name n code => given (primitive name n code) args
    | given g first => given g (first ++ args)

/-- The outcome with a callable flattened. -/
def Outcome.flatten : Outcome → Outcome
  | value (.callable f) => value (.callable f.flatten)
  | o => o

theorem flatten_given_given (g : Callable) (xs ys : List Value) :
    (Callable.given (.given g xs) ys).flatten = (Callable.given g (xs ++ ys)).flatten := by
  simp only [Callable.flatten]
  cases g.flatten with
  | primitive name n code => rfl
  | given h first => simp

/-! ## What a force returns -/

theorem cells_length_le_step (h : step st = some next) :
    st.store.cells.length ≤ next.store.cells.length := by
  cases step_effect h with
  | work _ _ hc =>
    obtain ⟨added, hcells, -⟩ := hc.cells
    simp [hcells]
  | answer _ _ _ _ _ hnext => simp [hnext]
  | start id comp _ _ hnext => simp [hnext, Store.setCell]
  | pass f K _ _ _ hc =>
    obtain ⟨added, hcells, -⟩ := hc.cells
    simp [hcells]
  | chain _ _ _ _ _ hnext => simp [hnext]
  | complete id v f K _ _ _ _ hnext => simp [hnext, Store.setCell]
  | abandon id f K _ _ _ hnext =>
    subst hnext
    unfold Store.release
    split
    · simp [Store.setCell]
    · exact le_rfl

theorem cells_length_le (h : Later st last) :
    st.store.cells.length ≤ last.store.cells.length := by
  induction h with
  | refl => exact le_rfl
  | tail _ hnext ih =>
    cases hnext with
    | step hstep => exact ih.trans (cells_length_le_step hstep)
    | begin _ s hs _ => simpa [hs] using ih

theorem evaluates_force_iff (hv : v.isCell = false) :
    Evaluates s (.force v) o s' ↔ o = .value v ∧ s' = s := by
  have hstep : step ⟨s, .force v, []⟩ = some ⟨s, .value v, []⟩ := by
    cases v with
    | cell id => cases hv
    | _ => rfl
  rw [evaluates_iff, EndsOn.step_iff (by simp [Control.isOutcome]) hstep]
  exact endsOn_outcome_iff (o := .value v)

/-- A force returns no cell if no evaluated cell holds one afterwards. -/
theorem Evaluates.isCell_eq_false (h : Evaluates s (.force f) (.value v) s')
    (hn : s'.HeadNormal) : v.isCell = false := by
  cases f with
  | cell id =>
    have hends := evaluates_iff.mp h
    -- where the force takes one transition, its outcome is read off
    have hone {t : Store} {c : Control} (hc : c.isOutcome = true)
        (hstep : step ⟨s, .force (.cell id), []⟩ = some ⟨t, c, []⟩) :
        State.mk s' (.value v) [] = ⟨t, c, []⟩ :=
      ((EndsOn.step_iff (by simp [Control.isOutcome]) hstep).mp hends).eq_of_outcome rfl hc
    cases hcell : s.cells[id]? with
    | none => cases hone rfl (step_force_missing hcell)
    | some c =>
      cases c with
      | evaluated w =>
        cases hone rfl (step_force_evaluated hcell)
        exact hn v ⟨id, hcell⟩
      | running comp => cases hone rfl (step_force_running hcell)
      | pending comp =>
        obtain ⟨mid, hlater, -, hleaves⟩ := hends.force_leaves hcell
        cases hleaves with
        | kept w _ hlast =>
          cases hlast
          -- the cell is still in the store, and holds the value now
          have hlt : id < mid.store.cells.length :=
            (List.getElem?_eq_some_iff.mp hcell).1.trans_le (cells_length_le hlater)
          exact hn v ⟨id, cells_setCell_self (List.getElem?_eq_getElem hlt) _⟩
        | abandoned hcontrol hlast =>
          simp only [State.mk.injEq] at hlast
          rw [← hlast.2.1] at hcontrol
          cases hcontrol
  | _ =>
    obtain ⟨hv, -⟩ := (evaluates_force_iff rfl).mp h
    cases hv
    rfl

/-! ## The rules of application -/

/-- An outcome in the store `s`, applied to `args`, has the outcome `o'` and leaves the store `s'`.
Failures are not applied. -/
inductive Applies : Outcome → Store → List Value → Outcome → Store → Prop where
  | failure (e : Failure Error) (s : Store) (args : List Value) :
      Applies (.failure e) s args (.failure e) s
  /-- The value cannot be forced. -/
  | unforced {s s' : Store} {f : Value} {e : Failure Error} (args : List Value)
      (hforce : Evaluates s (.force f) (.failure e) s') :
      Applies (.value f) s args (.failure e) s'
  /-- The value is no callable. -/
  | constant {s s' : Store} {f v : Value} (args : List Value)
      (hforce : Evaluates s (.force f) (.value v) s') (hv : ∀ g, v ≠ .callable g) :
      Applies (.value f) s args (.value v) s'
  | exact {s s₁ s' : Store} {f : Value} {g : Callable} {args : List Value} {o : Outcome}
      (hforce : Evaluates s (.force f) (.value (.callable g)) s₁) (hlen : args.length = g.arity)
      (hcall : Evaluates s₁ (.invoke g args) o s') : Applies (.value f) s args o s'
  /-- There are too few arguments. -/
  | few {s s' : Store} {f : Value} {g : Callable} {args : List Value}
      (hforce : Evaluates s (.force f) (.value (.callable g)) s') (hlen : args.length < g.arity) :
      Applies (.value f) s args (.value (.callable (.given g args))) s'
  /-- There are too many arguments. -/
  | many {s s₁ s₂ s' : Store} {f : Value} {g : Callable} {args : List Value} {o₁ o : Outcome}
      (hforce : Evaluates s (.force f) (.value (.callable g)) s₁) (hlen : g.arity < args.length)
      (hcall : Evaluates s₁ (.invoke g (args.take g.arity.toNat)) o₁ s₂)
      (hrest : Applies o₁ s₂ (args.drop g.arity.toNat) o s') : Applies (.value f) s args o s'

/-! ## The machine follows the rules -/

theorem reaches_forced (hforce : Evaluates s (.force f) o s') (args : List Value) :
    Reaches ⟨s, .apply f args, []⟩ ⟨s', o.control, [.operator args]⟩ :=
  .head rfl (hforce.reaches_frame _)

theorem applyForced_constant (hv : ∀ g, v ≠ .callable g) (s : Store) (args : List Value) :
    applyForced s [] v args = ⟨s, .value v, []⟩ := by
  cases v with
  | callable g => exact absurd rfl (hv g)
  | _ => rfl

theorem applyForced_exact (hlen : args.length = g.arity) (s : Store) :
    applyForced s [] (.callable g) args = ⟨s, .invoke g args, []⟩ :=
  if_pos hlen

theorem applyForced_few (hlen : args.length < g.arity) (s : Store) :
    applyForced s [] (.callable g) args = ⟨s, .value (.callable (.given g args)), []⟩ := by
  unfold applyForced
  dsimp only
  rw [if_neg (by omega), if_pos hlen]

theorem applyForced_many (hlen : g.arity < args.length) (s : Store) :
    applyForced s [] (.callable g) args =
      ⟨s, .invoke g (args.take g.arity.toNat), [.surplus (args.drop g.arity.toNat)]⟩ := by
  unfold applyForced
  dsimp only
  rw [if_neg (by omega), if_neg (by omega)]

theorem reaches_surplus (hforce : Evaluates s (.force f) (.value (.callable g)) s₁)
    (hlen : g.arity < args.length)
    (hcall : Evaluates s₁ (.invoke g (args.take g.arity.toNat)) o s₂) :
    Reaches ⟨s, .apply f args, []⟩ ⟨s₂, o.control, [.surplus (args.drop g.arity.toNat)]⟩ := by
  have hcalled : step ⟨s₁, .value (.callable g), [.operator args]⟩ = some
      ⟨s₁, .invoke g (args.take g.arity.toNat), [.surplus (args.drop g.arity.toNat)]⟩ :=
    congrArg some (applyForced_many hlen s₁)
  exact (reaches_forced hforce args).trans (.head hcalled (hcall.reaches_frame _))

theorem endsOn_failure_iff {frame : Frame} (e : Failure Error)
    (hframe : frame = .operator args ∨ frame = .surplus args) :
    EndsOn [] ⟨s, (Outcome.failure e).control, [frame]⟩ ⟨s', o.control, []⟩ ↔
      o = .failure e ∧ s' = s := by
  have hstep : step ⟨s, (Outcome.failure e).control, [frame]⟩ =
      some ⟨s, (Outcome.failure e).control, []⟩ := by
    rcases hframe with rfl | rfl <;> cases e <;> rfl
  rw [EndsOn.step_iff (by simp) hstep, endsOn_outcome_iff]

theorem endsOn_operator_iff :
    EndsOn [] ⟨s, .value v, [.operator args]⟩ last ↔ EndsOn [] (applyForced s [] v args) last :=
  EndsOn.step_iff (by simp) rfl

theorem endsOn_apply_iff :
    EndsOn [] ⟨s, .apply f args, []⟩ last ↔
      ∃ o s₁, Evaluates s (.force f) o s₁ ∧ EndsOn [] ⟨s₁, o.control, [.operator args]⟩ last := by
  have hstep : step ⟨s, .apply f args, []⟩ = some ⟨s, .force f, [.operator args]⟩ := rfl
  rw [EndsOn.step_iff (by simp [Control.isOutcome]) hstep, endsOn_frame]

theorem endsOn_surplus_iff :
    EndsOn [] ⟨s, .value f, [.surplus args]⟩ last ↔ EndsOn [] ⟨s, .apply f args, []⟩ last :=
  EndsOn.step_iff (by simp) rfl

theorem endsOn_surplus_of_force (hforce : Evaluates s (.force f) (.value v) s₁)
    (h : EndsOn [] (applyForced s₁ [] v args) last) :
    EndsOn [] ⟨s, .value f, [.surplus args]⟩ last :=
  endsOn_surplus_iff.mpr (endsOn_apply_iff.mpr ⟨_, _, hforce, endsOn_operator_iff.mpr h⟩)

theorem Applies.endsOn (h : Applies o s args o' s') :
    EndsOn [] ⟨s, o.control, [.surplus args]⟩ ⟨s', o'.control, []⟩ := by
  induction h with
  | failure e s args => exact (endsOn_failure_iff e (.inr rfl)).mpr ⟨rfl, rfl⟩
  | @unforced s s' f e args hforce =>
    refine endsOn_surplus_iff.mpr (endsOn_apply_iff.mpr ⟨_, _, hforce, ?_⟩)
    exact (endsOn_failure_iff e (.inl rfl)).mpr ⟨rfl, rfl⟩
  | constant args hforce hv =>
    refine endsOn_surplus_of_force hforce ?_
    rw [applyForced_constant hv]
    exact .done rfl rfl
  | exact hforce hlen hcall =>
    refine endsOn_surplus_of_force hforce ?_
    rw [applyForced_exact hlen]
    exact evaluates_iff.mp hcall
  | few hforce hlen =>
    refine endsOn_surplus_of_force hforce ?_
    rw [applyForced_few hlen]
    exact .done rfl rfl
  | many hforce hlen hcall _ ih =>
    refine endsOn_surplus_of_force hforce ?_
    rw [applyForced_many hlen]
    exact endsOn_frame.mpr ⟨_, _, hcall, ih⟩

/-- An outcome that the machine applies is applied by the rules. -/
theorem applies_of_endsOn (h : EndsOn [] ⟨s, o.control, [.surplus args]⟩ ⟨s', o'.control, []⟩) :
    Applies o s args o' s' := by
  generalize hst : State.mk s o.control [.surplus args] = st at h
  -- a callable with too many arguments leads to such a state again, with some of them
  suffices hall : ∀ s o args, State.mk s o.control [.surplus args] = st →
      Applies o s args o' s' from hall s o args hst
  refine h.later_induction
    (motive := fun st => ∀ s o args, State.mk s o.control [.surplus args] = st →
      Applies o s args o' s') ?_
  rintro st hends ih s o args rfl
  cases o with
  | failure e =>
    obtain ⟨rfl, rfl⟩ := (endsOn_failure_iff e (.inr rfl)).mp hends
    exact .failure e _ args
  | value f =>
    obtain ⟨o₁, s₁, hforce, hoperator⟩ := endsOn_apply_iff.mp (endsOn_surplus_iff.mp hends)
    cases o₁ with
    | failure e =>
      obtain ⟨rfl, rfl⟩ := (endsOn_failure_iff e (.inl rfl)).mp hoperator
      exact .unforced args hforce
    | value v =>
      have hforced := endsOn_operator_iff.mp hoperator
      by_cases hv : ∀ g, v ≠ .callable g
      · rw [applyForced_constant hv] at hforced
        obtain ⟨rfl, rfl⟩ := (endsOn_outcome_iff (o := .value v)).mp hforced
        exact .constant args hforce hv
      · push Not at hv
        obtain ⟨g, rfl⟩ := hv
        rcases Int.lt_trichotomy args.length g.arity with hlen | hlen | hlen
        · rw [applyForced_few hlen] at hforced
          obtain ⟨rfl, rfl⟩ :=
            (endsOn_outcome_iff (o := .value (.callable (.given g args)))).mp hforced
          exact .few hforce hlen
        · rw [applyForced_exact hlen] at hforced
          exact .exact hforce hlen (evaluates_iff.mpr hforced)
        · rw [applyForced_many hlen] at hforced
          obtain ⟨o₂, s₂, hcall, hsurplus⟩ := endsOn_frame.mp hforced
          refine .many hforce hlen hcall ?_
          exact ih _ _ rfl (reaches_surplus hforce hlen hcall) hsurplus _ _ _ rfl

theorem evaluates_apply_iff :
    Evaluates s (.apply f args) o s' ↔ Applies (.value f) s args o s' := by
  rw [evaluates_iff, ← endsOn_surplus_iff]
  exact ⟨applies_of_endsOn (o := .value f), Applies.endsOn⟩

/-! ## Applications of forced values -/

/-- What is applied is what the force of the operator returns. -/
theorem applies_value_iff (hforce : Evaluates s (.force f) (.value v) s₁) :
    Applies (.value f) s args o s' ↔ EndsOn [] (applyForced s₁ [] v args) ⟨s', o.control, []⟩ := by
  rw [← evaluates_apply_iff, evaluates_iff, endsOn_apply_iff]
  constructor
  · rintro ⟨o₁, s₂, hforce', hoperator⟩
    obtain ⟨rfl, rfl⟩ := hforce.unique hforce'
    exact endsOn_operator_iff.mp hoperator
  · intro h
    exact ⟨_, _, hforce, endsOn_operator_iff.mpr h⟩

theorem evaluates_force_self (hv : v.isCell = false) : Evaluates s (.force v) (.value v) s :=
  (evaluates_force_iff hv).mpr ⟨rfl, rfl⟩

theorem applies_forced_iff (hforce : Evaluates s (.force f) (.value v) s₁)
    (hv : v.isCell = false) : Applies (.value f) s args o s' ↔ Applies (.value v) s₁ args o s' := by
  rw [applies_value_iff hforce, applies_value_iff (evaluates_force_self hv)]

theorem applies_failure_iff (e : Failure Error) :
    Applies (.failure e) s args o s' ↔ o = .failure e ∧ s' = s := by
  constructor
  · rintro ⟨⟩
    exact ⟨rfl, rfl⟩
  · rintro ⟨rfl, rfl⟩
    exact .failure e _ args

theorem applies_constant_iff (hcell : v.isCell = false) (hv : ∀ g, v ≠ .callable g) :
    Applies (.value v) s args o s' ↔ o = .value v ∧ s' = s := by
  rw [applies_value_iff (evaluates_force_self hcell), applyForced_constant hv]
  exact endsOn_outcome_iff (o := .value v)

theorem applies_exact_iff (hlen : args.length = g.arity) :
    Applies (.value (.callable g)) s args o s' ↔ Evaluates s (.invoke g args) o s' := by
  rw [applies_value_iff (evaluates_force_self rfl), applyForced_exact hlen, evaluates_iff]

theorem applies_few_iff (hlen : args.length < g.arity) :
    Applies (.value (.callable g)) s args o s' ↔
      o = .value (.callable (.given g args)) ∧ s' = s := by
  rw [applies_value_iff (evaluates_force_self rfl), applyForced_few hlen]
  exact endsOn_outcome_iff (o := .value (.callable (.given g args)))

theorem applies_many_iff (hlen : g.arity < args.length) :
    Applies (.value (.callable g)) s args o s' ↔
      ∃ o₁ s₁, Evaluates s (.invoke g (args.take g.arity.toNat)) o₁ s₁ ∧
        Applies o₁ s₁ (args.drop g.arity.toNat) o s' := by
  rw [applies_value_iff (evaluates_force_self rfl), applyForced_many hlen, endsOn_frame]
  constructor
  · rintro ⟨o₁, s₁, hcall, hrest⟩
    exact ⟨o₁, s₁, hcall, applies_of_endsOn hrest⟩
  · rintro ⟨o₁, s₁, hcall, hrest⟩
    exact ⟨o₁, s₁, hcall, hrest.endsOn⟩

/-! ## Callables with arguments given -/

theorem evaluates_invoke_given_iff (hlen : (xs ++ ys).length = g.arity) :
    Evaluates s (.invoke (.given g xs) ys) o s' ↔ Evaluates s (.invoke g (xs ++ ys)) o s' := by
  have hstep : step ⟨s, .invoke (.given g xs) ys, []⟩ =
      some ⟨s, .apply (.callable g) (xs ++ ys), []⟩ := rfl
  rw [← applies_exact_iff hlen, ← evaluates_apply_iff, evaluates_iff, evaluates_iff,
    EndsOn.step_iff (by simp [Control.isOutcome]) hstep]

/-- Arguments that are given make no difference once all arguments are there. -/
theorem applies_given_iff (hxs : xs.length < g.arity) (hlen : g.arity ≤ (xs ++ ys).length) :
    Applies (.value (.callable (.given g xs))) s ys o s' ↔
      Applies (.value (.callable g)) s (xs ++ ys) o s' := by
  have harity : (Callable.given g xs).arity = g.arity - xs.length := rfl
  rw [List.length_append] at hlen
  rcases Int.lt_or_eq_of_le hlen with hlt | heq
  · -- the callable takes the same arguments and leaves the same ones
    have htoNat : g.arity.toNat = xs.length + (Callable.given g xs).arity.toNat := by omega
    have hcall (o₁ : Outcome) (s₁ : Store) :
        Evaluates s (.invoke (.given g xs) (ys.take (Callable.given g xs).arity.toNat)) o₁ s₁ ↔
          Evaluates s (.invoke g (xs ++ ys.take (Callable.given g xs).arity.toNat)) o₁ s₁ :=
      evaluates_invoke_given_iff (by rw [List.length_append, List.length_take]; omega)
    rw [applies_many_iff (by omega), applies_many_iff (by rw [List.length_append]; omega), htoNat,
      List.take_length_add_append, List.drop_length_add_append]
    simp only [hcall]
  · rw [applies_exact_iff (by omega), applies_exact_iff (by rw [List.length_append]; omega),
      evaluates_invoke_given_iff (by rw [List.length_append]; omega)]

/-! ## The law -/

/-- No state from `st` on has a cell in an evaluated cell. -/
def StaysHeadNormal (st : State) : Prop :=
  ∀ next, Reaches st next → next.store.HeadNormal

theorem StaysHeadNormal.reaches (hn : StaysHeadNormal st) (h : Reaches st next) :
    StaysHeadNormal next :=
  fun _ hnext => hn _ (h.trans hnext)

theorem staysHeadNormal_of_run (n : ℕ) (hstop : step (run n st) = none)
    (h : ∀ k ≤ n, (run k st).store.HeadNormal) : StaysHeadNormal st := by
  induction n generalizing st with
  | zero =>
    intro next hnext
    rcases hnext.cases_head with rfl | ⟨mid, hstep, -⟩
    · exact h 0 le_rfl
    · cases hstep.symm.trans hstop
  | succ n ih =>
    intro next hnext
    rcases hnext.cases_head with rfl | ⟨mid, hstep, hrest⟩
    · exact h 0 (Nat.zero_le _)
    · have hrun (k : ℕ) : run (k + 1) st = run k mid := by rw [run, hstep]
      refine ih ?_ ?_ next hrest
      · rwa [← hrun]
      · intro k hk
        rw [← hrun]
        exact h (k + 1) (Nat.succ_le_succ hk)

/-- Too few arguments, and then further ones. -/
theorem applies_given_append (hxs : xs.length < g.arity)
    (h : Applies (.value (.callable (.given g xs))) s ys o s') :
    ∃ o', Applies (.value (.callable g)) s (xs ++ ys) o' s' ∧ o'.flatten = o.flatten := by
  by_cases hlen : g.arity ≤ (xs ++ ys).length
  · exact ⟨o, (applies_given_iff hxs hlen).mp h, rfl⟩
  · have harity : (Callable.given g xs).arity = g.arity - xs.length := rfl
    rw [List.length_append] at hlen
    obtain ⟨rfl, rfl⟩ := (applies_few_iff (by omega)).mp h
    refine ⟨_, (applies_few_iff (by rw [List.length_append]; omega)).mpr ⟨rfl, rfl⟩, ?_⟩
    simp only [Outcome.flatten, flatten_given_given]

theorem applies_given_split (hxs : xs.length < g.arity)
    (h : Applies (.value (.callable g)) s (xs ++ ys) o s') :
    ∃ o', Applies (.value (.callable (.given g xs))) s ys o' s' ∧ o'.flatten = o.flatten := by
  by_cases hlen : g.arity ≤ (xs ++ ys).length
  · exact ⟨o, (applies_given_iff hxs hlen).mpr h, rfl⟩
  · have harity : (Callable.given g xs).arity = g.arity - xs.length := rfl
    rw [List.length_append] at hlen
    obtain ⟨rfl, rfl⟩ := (applies_few_iff (by rw [List.length_append]; omega)).mp h
    refine ⟨_, (applies_few_iff (by omega)).mpr ⟨rfl, rfl⟩, ?_⟩
    simp only [Outcome.flatten, flatten_given_given]

section Surplus

variable (hforce : Evaluates s (.force f) (.value (.callable g)) s₁) (hlen : g.arity ≤ xs.length)
  (hys : ys ≠ []) (hcall : Evaluates s₁ (.invoke g (xs.take g.arity.toNat)) o₁ s₂)

include hlen

theorem drop_surplus : (xs ++ ys).drop g.arity.toNat = xs.drop g.arity.toNat ++ ys :=
  List.drop_append_of_le_length (by omega)

theorem take_surplus : (xs ++ ys).take g.arity.toNat = xs.take g.arity.toNat :=
  List.take_append_of_le_length (by omega)

include hys

theorem arity_lt_append : g.arity < (xs ++ ys).length := by
  have hpos := List.length_pos_iff.mpr hys
  rw [List.length_append]
  omega

include hforce hcall

/-- Further arguments are left to the result of a call. -/
theorem applies_surplus_iff :
    Applies (.value f) s (xs ++ ys) o s' ↔ Applies o₁ s₂ (xs.drop g.arity.toNat ++ ys) o s' := by
  rw [applies_forced_iff hforce rfl, applies_many_iff (arity_lt_append hlen hys),
    drop_surplus hlen, take_surplus hlen]
  constructor
  · rintro ⟨o', s', hcall', hrest⟩
    obtain ⟨rfl, rfl⟩ := hcall.unique hcall'
    exact hrest
  · intro hrest
    exact ⟨o₁, s₂, hcall, hrest⟩

theorem StaysHeadNormal.surplus (hn : StaysHeadNormal ⟨s, .value f, [.surplus (xs ++ ys)]⟩) :
    StaysHeadNormal ⟨s₂, o₁.control, [.surplus (xs.drop g.arity.toNat ++ ys)]⟩ := by
  have htake : (xs ++ ys).take g.arity.toNat = xs.take g.arity.toNat := take_surplus hlen
  rw [← htake] at hcall
  rw [← drop_surplus hlen]
  exact hn.reaches (.head rfl (reaches_surplus hforce (arity_lt_append hlen hys) hcall))

end Surplus

/-- Two applications in turn are one application. -/
theorem Applies.append (h : Applies o s xs o₁ s₁) (hys : ys ≠ []) (h' : Applies o₁ s₁ ys o₂ s₂)
    (hn : StaysHeadNormal ⟨s, o.control, [.surplus (xs ++ ys)]⟩) :
    ∃ o', Applies o s (xs ++ ys) o' s₂ ∧ o'.flatten = o₂.flatten := by
  induction h with
  | failure e s xs =>
    obtain ⟨rfl, rfl⟩ := (applies_failure_iff e).mp h'
    exact ⟨_, .failure e _ _, rfl⟩
  | @unforced s s₁ f e xs hforce =>
    obtain ⟨rfl, rfl⟩ := (applies_failure_iff e).mp h'
    exact ⟨_, .unforced _ hforce, rfl⟩
  | @constant s s₁ f v xs hforce hv =>
    -- the value is not a cell, so the next application leaves it as it is
    have hcell := hforce.isCell_eq_false (hn _ (.head rfl (reaches_forced hforce _)))
    obtain ⟨rfl, rfl⟩ := (applies_constant_iff hcell hv).mp h'
    exact ⟨_, .constant _ hforce hv, rfl⟩
  | @exact s s₀ s₁ f g xs o₁ hforce hlen hcall =>
    have htoNat : g.arity.toNat = xs.length := by omega
    have hall : xs.take g.arity.toNat = xs := by rw [htoNat, List.take_length]
    rw [← hall] at hcall
    refine ⟨o₂, (applies_surplus_iff hforce (by omega) hys hcall).mpr ?_, rfl⟩
    rwa [htoNat, List.drop_length, List.nil_append]
  | @few s s₁ f g xs hforce hlen =>
    obtain ⟨o', happlies, hflat⟩ := applies_given_append hlen h'
    exact ⟨o', (applies_forced_iff hforce rfl).mpr happlies, hflat⟩
  | @many s s₀ s₂ s₁ f g xs o₀ o₁ hforce hlen hcall _ ih =>
    obtain ⟨o', hrest, hflat⟩ := ih h' (hn.surplus hforce (by omega) hys hcall)
    exact ⟨o', (applies_surplus_iff hforce (by omega) hys hcall).mpr hrest, hflat⟩

theorem Applies.split_few (hforce : Evaluates s (.force f) (.value (.callable g)) s₁)
    (hxs : xs.length < g.arity) (h : Applies (.value f) s (xs ++ ys) o' s') :
    ∃ o₁ s₁ o₂, Applies (.value f) s xs o₁ s₁ ∧ Applies o₁ s₁ ys o₂ s' ∧
      o₂.flatten = o'.flatten := by
  obtain ⟨o₂, hgiven, hflat⟩ := applies_given_split hxs ((applies_forced_iff hforce rfl).mp h)
  exact ⟨_, s₁, o₂, .few hforce hxs, hgiven, hflat⟩

/-- One application is two applications in turn. -/
theorem Applies.split (h : Applies o s (xs ++ ys) o' s') (hys : ys ≠ [])
    (hn : StaysHeadNormal ⟨s, o.control, [.surplus (xs ++ ys)]⟩) :
    ∃ o₁ s₁ o₂, Applies o s xs o₁ s₁ ∧ Applies o₁ s₁ ys o₂ s' ∧ o₂.flatten = o'.flatten := by
  have hpos := List.length_pos_iff.mpr hys
  generalize hargs : xs ++ ys = args at h
  induction h generalizing xs with
  | failure e s args => exact ⟨_, _, _, .failure e s xs, .failure e s ys, rfl⟩
  | unforced args hforce => exact ⟨_, _, _, .unforced xs hforce, .failure _ _ ys, rfl⟩
  | constant args hforce hv =>
    have hcell := hforce.isCell_eq_false (hn _ (.head rfl (reaches_forced hforce _)))
    exact ⟨_, _, _, .constant xs hforce hv, .constant ys (evaluates_force_self hcell) hv, rfl⟩
  | exact hforce hlen hcall =>
    subst hargs
    refine Applies.split_few hforce ?_ (.exact hforce hlen hcall)
    rw [List.length_append] at hlen
    omega
  | few hforce hlen =>
    subst hargs
    refine Applies.split_few hforce ?_ (.few hforce hlen)
    rw [List.length_append] at hlen
    omega
  | @many s s₁ s₂ s' f g args o₁ o' hforce hlen hcall hrest ih =>
    subst hargs
    rcases Int.lt_trichotomy xs.length g.arity with hxs | hxs | hxs
    · exact Applies.split_few hforce hxs (.many hforce hlen hcall hrest)
    · -- the first arguments are those of the call
      have htoNat : g.arity.toNat = xs.length := by omega
      rw [htoNat, List.take_left] at hcall
      rw [htoNat, List.drop_left] at hrest
      exact ⟨o₁, s₂, o', .exact hforce hxs hcall, hrest, rfl⟩
    · rw [take_surplus (by omega)] at hcall
      obtain ⟨o₃, s₃, o₂, hfirst, hsecond, hflat⟩ :=
        ih (hn.surplus hforce (by omega) hys hcall) (drop_surplus (by omega)).symm
      exact ⟨o₃, s₃, o₂, .many hforce hxs hcall hfirst, hsecond, hflat⟩

/-- To apply `f` to `xs` and then, if that succeeds, its value to `ys` has the outcome `o` and
leaves the store `s'`. -/
def EvaluatesInTurn (s : Store) (f : Value) (xs ys : List Value) (o : Outcome) (s' : Store) :
    Prop :=
  (∃ r s₁, Evaluates s (.apply f xs) (.value r) s₁ ∧ Evaluates s₁ (.apply r ys) o s') ∨
  (∃ e, Evaluates s (.apply f xs) (.failure e) s' ∧ o = .failure e)

theorem evaluatesInTurn_iff :
    EvaluatesInTurn s f xs ys o s' ↔
      ∃ o₁ s₁, Applies (.value f) s xs o₁ s₁ ∧ Applies o₁ s₁ ys o s' := by
  simp only [EvaluatesInTurn, evaluates_apply_iff]
  constructor
  · rintro (⟨r, s₁, hfirst, hsecond⟩ | ⟨e, hfirst, rfl⟩)
    · exact ⟨.value r, s₁, hfirst, hsecond⟩
    · exact ⟨.failure e, s', hfirst, .failure e s' ys⟩
  · rintro ⟨r | e, s₁, hfirst, hsecond⟩
    · exact .inl ⟨r, s₁, hfirst, hsecond⟩
    · obtain ⟨rfl, rfl⟩ := (applies_failure_iff e).mp hsecond
      exact .inr ⟨e, hfirst, rfl⟩

/-- Applications in turn, the second to at least one argument, end if and only if one application to
all the arguments does, with the same failure or the same value up to the nesting of callables, and
in the same store. No cell may get into an evaluated cell on the way. -/
theorem apply_append (hys : ys ≠ []) (hn : StaysHeadNormal ⟨s, .apply f (xs ++ ys), []⟩) :
    ((∃ o s', EvaluatesInTurn s f xs ys o s') ↔ ∃ o s', Evaluates s (.apply f (xs ++ ys)) o s') ∧
    (∀ o o' s' s'', EvaluatesInTurn s f xs ys o s' → Evaluates s (.apply f (xs ++ ys)) o' s'' →
      o'.flatten = o.flatten ∧ s'' = s') := by
  have hn' : StaysHeadNormal ⟨s, .value f, [.surplus (xs ++ ys)]⟩ := by
    intro next hnext
    rcases hnext.cases_head with rfl | ⟨mid, hstep, hrest⟩
    · exact hn ⟨s, .apply f (xs ++ ys), []⟩ .refl
    · cases hstep
      exact hn next hrest
  have hturn : ∀ o s', EvaluatesInTurn s f xs ys o s' →
      ∃ o', Evaluates s (.apply f (xs ++ ys)) o' s' ∧ o'.flatten = o.flatten := by
    intro o s' h
    obtain ⟨o₁, s₁, hfirst, hsecond⟩ := evaluatesInTurn_iff.mp h
    obtain ⟨o', happlies, hflat⟩ := hfirst.append hys hsecond hn'
    exact ⟨o', evaluates_apply_iff.mpr happlies, hflat⟩
  refine ⟨⟨?_, ?_⟩, ?_⟩
  · rintro ⟨o, s', h⟩
    obtain ⟨o', hall, -⟩ := hturn o s' h
    exact ⟨o', s', hall⟩
  · rintro ⟨o', s', h⟩
    obtain ⟨o₁, s₁, o, hfirst, hsecond, -⟩ := (evaluates_apply_iff.mp h).split hys hn'
    exact ⟨o, s', evaluatesInTurn_iff.mpr ⟨o₁, s₁, hfirst, hsecond⟩⟩
  · intro o o' s' s'' hinTurn hall
    obtain ⟨o₀, hall₀, hflat⟩ := hturn o s' hinTurn
    obtain ⟨rfl, rfl⟩ := hall₀.unique hall
    exact ⟨hflat, rfl⟩

/-- A function of one argument whose value is a function of two arguments, in a pending cell. -/
def curriedStore : Store :=
  Store.empty.addCell (.pending (.expression "curried" false
    (.lambda "outer" ["x"] (.lambda "inner" ["y", "z"] (.var "z"))) []))

/-- The first two arguments are one too many for the outer function and one too few for the inner
one. -/
theorem apply_append_curried :
    StaysHeadNormal ⟨curriedStore, .apply (.cell 0) [.int 1, .int 2, .int 3], []⟩ ∧
    ∃ o s', EvaluatesInTurn curriedStore (.cell 0) [.int 1, .int 2] [.int 3] o s' ∧
      o.flatten = .value (.int 3) := by
  have hn : StaysHeadNormal ⟨curriedStore, .apply (.cell 0) ([.int 1, .int 2] ++ [.int 3]), []⟩ :=
    staysHeadNormal_of_run 20 rfl (by decide)
  have hall : Evaluates curriedStore (.apply (.cell 0) [.int 1, .int 2, .int 3]) (.value (.int 3))
      (run 20 ⟨curriedStore, .apply (.cell 0) [.int 1, .int 2, .int 3], []⟩).store :=
    ⟨20, rfl, rfl⟩
  obtain ⟨hends, hsame⟩ := apply_append (List.cons_ne_nil (.int 3) []) hn
  obtain ⟨o, s', hturn⟩ := hends.mpr ⟨_, _, hall⟩
  exact ⟨hn, o, s', hturn, (hsame o _ s' _ hturn hall).1.symm⟩

/-- A function whose value is an evaluated cell that holds a cell. -/
def wrapping : Value :=
  .callable (.primitive "wrap" 1
    (.closure ["x"] (.operate .value [.operate .value [.constant (.int 3)]]) []))

/-- The store is without cells at first, and the surplus arguments of the two applications force the
two cells in turn; the one application forces only the outer one. -/
theorem apply_append_ne_of_wrapping :
    Store.empty.HeadNormal ∧
    ∃ o o' s' s'', EvaluatesInTurn .empty wrapping [.nil, .nil] [.nil] o s' ∧
      Evaluates .empty (.apply wrapping [.nil, .nil, .nil]) o' s'' ∧ o'.flatten ≠ o.flatten := by
  refine ⟨by decide, .value (.int 3), .value (.cell 0), _, _, .inl ⟨.cell 0, _, ⟨20, rfl, rfl⟩,
    ⟨20, rfl, rfl⟩⟩, ⟨20, rfl, rfl⟩, ?_⟩
  intro h
  cases h

end Numerals.Lazy
