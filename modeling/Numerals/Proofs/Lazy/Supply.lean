import Numerals.Lazy.Program
import Numerals.Proofs.Lazy.Application

/-!
# Arguments of built-in functions

A built-in function takes its arguments in turn: each one is forced and checked against the kind of
its parameter, and what the check yields is passed on. With all arguments there, it acts. Main
statement: a call by name with as many arguments as there are parameters supplies them in order.
-/

namespace Numerals.Lazy

variable {s s' s₁ : Store} {o : Outcome} {v w : Value} {args : List Value} {name : String}
  {position : ℕ} {p : Param} {ps : List Param}

theorem step_supply (hp : p ≠ .any) (f : p.Carrier → Curried ps) (K : List Frame) :
    step ⟨s, .supply name position (p :: ps) f (v :: args), K⟩ =
      some ⟨s, .force v, .argument name position p ps f args :: K⟩ := by
  cases p with
  | any => exact absurd rfl hp
  | _ => rfl

theorem step_argument {f : p.Carrier → Curried ps} {a : p.Carrier}
    (hcheck : p.check name position v = .ok a) (K : List Frame) :
    step ⟨s, .value v, .argument name position p ps f args :: K⟩ =
      some ⟨s, .supply name (position + 1) ps (f a) args, K⟩ := by
  simp only [step, resume, hcheck]

theorem step_argument_refused {f : p.Carrier → Curried ps} {e : Fault}
    (hcheck : p.check name position v = .error e) (K : List Frame) :
    step ⟨s, .value v, .argument name position p ps f args :: K⟩ =
      some ⟨s, .fail (.fault e), K⟩ := by
  simp only [step, resume, hcheck]

/-- An argument that is forced and passes its check. -/
theorem evaluates_supply {f : p.Carrier → Curried ps} {a : p.Carrier} (hp : p ≠ .any)
    (hforce : Evaluates s (.force v) (.value w) s₁) (hcheck : p.check name position w = .ok a)
    (hrest : Evaluates s₁ (.supply name (position + 1) ps (f a) args) o s') :
    Evaluates s (.supply name position (p :: ps) f (v :: args)) o s' := by
  rw [evaluates_iff]
  refine .step (by simp [Control.isOutcome]) (step_supply hp f [])
    (endsOn_frame.mpr ⟨_, _, hforce, ?_⟩)
  exact .step (by simp) (step_argument hcheck []) (evaluates_iff.mp hrest)

/-- With all arguments there, a function without effects has its result as its outcome. -/
theorem evaluates_supply_result (s : Store) (v : Value) (args : List Value) :
    Evaluates s (.supply name position [] (Action.result (.ok v)) args) (.value v) s := by
  rw [evaluates_iff]
  exact .step (by simp [Control.isOutcome]) rfl (.done rfl rfl)

/-- A built-in function that is called by its name with all its arguments. -/
theorem evaluates_call {b : Builtin} (hname : Builtin.ofName? name = some b)
    (hlen : args.length = b.arity)
    (h : Evaluates s (.supply b.name 0 b.params b.act args) o s') :
    Evaluates s (.call name args) o s' := by
  have hcall : Control.call name args = .apply (.callable b.primitive) args := by
    rw [Control.call, hname]
  have hstep : step ⟨s, .invoke b.primitive args, []⟩ =
      some ⟨s, .supply b.name 0 b.params b.act args, []⟩ := rfl
  rw [hcall, evaluates_apply_iff]
  refine .exact (evaluates_force_self rfl) (congrArg Nat.cast hlen) ?_
  rw [evaluates_iff, EndsOn.step_iff (by simp [Control.isOutcome]) hstep]
  exact evaluates_iff.mp h

/-! ## Calls through the registry -/

theorem builtins_call (b : Builtin) (args : List Value) :
    Registry.builtins.call b.name args = .apply (.callable b.primitive) args := by
  have hlookup : Registry.builtins.lookup? b.name = some b.primitive := by
    cases b <;> rfl
  unfold Registry.call
  rw [hlookup]

theorem step_operator_builtin {b : Builtin} (hlen : args.length = b.arity) :
    step ⟨s, .value (.callable b.primitive), [.operator args]⟩ =
      some ⟨s, .invoke b.primitive args, []⟩ :=
  congrArg some (applyForced_exact (congrArg Nat.cast hlen) s)

/-- A call with all arguments supplies them. -/
theorem reaches_supply {b : Builtin} (hlen : args.length = b.arity) :
    Reaches ⟨s, Registry.builtins.call b.name args, []⟩
      ⟨s, .supply b.name 0 b.params b.act args, []⟩ := by
  rw [builtins_call]
  exact .head rfl (.head rfl (.head (step_operator_builtin hlen) (.single rfl)))

end Numerals.Lazy
