import Numerals.Lazy.Machine

/-!
# Programs and registries

A program is a list of expressions that are evaluated one after the other in one store; the value of
each may be bound to a global name. A registry holds primitives by their names.
-/

namespace Numerals.Lazy

/-- The number of transitions that an evaluation may take. -/
def fuelLimit : Nat := 100000000

/-- The outcome of a control and the store after it, if it ends within the limit. -/
def Control.execute (c : Control) (s : Store) : Option (Outcome × Store) :=
  let st := run fuelLimit ⟨s, c, []⟩
  st.outcome?.map fun o => (o, st.store)

/-- One expression of a program, and the name its value is bound to. -/
structure Line where
  body : Expr
  name : Option String

/-- What a line of a program did: its outcome, the lines it logged, and the store after it. -/
structure Report where
  outcome : Outcome
  log : List String
  store : Store

/-- Evaluates a line of a program. -/
def Line.execute (l : Line) (s : Store) : Option Report := do
  let (o, after) ← (Control.eval l.body []).execute { s with log := [] }
  let after :=
    match o, l.name with
    | .value v, some name => after.bindGlobal name v
    | _, _ => after
  return ⟨o, after.log, after⟩

/-- Evaluates the lines of a program, each in the store that the one before it left. -/
def runProgram (s : Store) : List Line → Option (List Report)
  | [] => some []
  | l :: ls => do
    let r ← l.execute s
    return r :: (← runProgram r.store ls)

/-- Primitives by their names. -/
structure Registry where
  entries : List (String × Callable)
deriving Inhabited

namespace Registry

/-- A registry without primitives. -/
def empty : Registry := ⟨[]⟩

/-- The registry of the built-in functions. -/
def builtins : Registry :=
  ⟨Builtin.all.map fun b => (b.name, b.primitive)⟩

/-- The primitive with the given name. -/
def lookup? (r : Registry) (name : String) : Option Callable :=
  r.entries.lookup name

/-- The registry with a further primitive that describes its calls. -/
def register (r : Registry) (name : String) (arity : Int) : Result Registry :=
  if arity < 0 then Result.raise (.negativeArity name arity)
  else if (r.lookup? name).isSome then Result.raise (.registeredTwice name)
  else .ok ⟨r.entries ++ [(name, .primitive name arity.toNat .native)]⟩

/-- The names in a registry, in order. -/
def names (r : Registry) : List String :=
  (r.entries.map (·.1)).mergeSort fun s t => decide (s ≤ t)

/-- Applies the primitive with the given name. -/
def call (r : Registry) (name : String) (args : List Value) : Control :=
  match r.lookup? name with
  | some f => .apply (.callable f) args
  | none => .fail (.fault (.unknownPrimitive name))

/-- Evaluates expressions and applies the primitive with the given name to their values. -/
def callWith (r : Registry) (name : String) (args : List Expr) (s : Store) :
    Option (Outcome × Store) := do
  match ← (Control.eval (.operate .list args) []).execute s with
  | (.value (.list vs), s) => (r.call name vs).execute s
  | r => return r

end Registry

end Numerals.Lazy
