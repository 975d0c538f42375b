import Numerals.Lazy.Action
import Numerals.Lazy.Store

/-!
# The machine

Evaluation is a machine with a store, a control, which says what is done next, and a stack of
frames, which say what is done with its outcome.

An outcome is a value, an error that is returned, or an error that is raised. While a cell is run, a
frame with its number is on the stack; if the computation succeeds, the cell keeps the value, and if
an error passes the frame, the cell is pending again. A computation may yield a further cell, which
is then forced too, and its value is kept in both. To force a running cell raises a fault.

A callable with too few arguments becomes a callable with these arguments given; what is left of too
many arguments is applied to the result. Values that are no callables take any arguments and stay
what they are.

`step` makes one transition and `run` as many as its fuel allows.
-/

namespace Numerals.Lazy

/-- What the machine does next. -/
inductive Control where
  | eval (e : Expr) (scope : Scope)
  | force (v : Value)
  | apply (f : Value) (args : List Value)
  | invoke (f : Callable) (args : List Value)
  | supply (name : String) (position : Nat) (params : List Param) (f : Curried params)
      (args : List Value)
  | value (v : Value)
  | fail (e : Error)
  | raise (e : Error)

/-- What is done with an outcome. -/
inductive Frame where
  | operands (op : Operation) (done : List Value) (rest : List Expr) (scope : Scope)
  | bind (name : String) (body : Expr) (scope : Scope)
  | compute (id : Nat)
  | settle (id : Nat)
  | insist
  | operator (args : List Value)
  | surplus (args : List Value)
  | handler (h : Value)
  | argument (name : String) (position : Nat) (param : Param) (params : List Param)
      (f : param.Carrier → Curried params) (args : List Value)

/-- A state of the machine. -/
structure State where
  store : Store
  control : Control
  stack : List Frame

namespace Control

/-- The outcome of a result. -/
def ofResult : Result Value → Control
  | .ok v => value v
  | .error (.returned f) => fail (.fault f)
  | .error (.raised f) => raise (.fault f)

/-- A callable that is to be built with an arity. -/
def native (name : String) (arity : Int) : Control :=
  if arity < 0 then raise (.fault (.negativeArity name arity))
  else value (.callable (.primitive name arity.toNat .native))

end Control

/-- The built-in function `b` as a primitive. -/
def Builtin.primitive (b : Builtin) : Callable :=
  .primitive b.name b.arity (.builtin b)

/-- The built-in function with the given name. -/
def Builtin.ofName? (name : String) : Option Builtin :=
  Builtin.all.find? fun b => b.name == name

/-- Applies the built-in function with the given name. -/
def Control.call (name : String) (args : List Value) : Control :=
  match Builtin.ofName? name with
  | some b => .apply (.callable b.primitive) args
  | none => .fail (.fault (.unknownPrimitive name))

/-- The cell that an addition to the store makes. -/
def Store.allocate (s : Store) (c : Cell) (stack : List Frame) : State :=
  ⟨s.addCell c, .value (.cell s.cells.length), stack⟩

/-- What follows operands that an operation is not made for. -/
def Control.misused : Control :=
  .fail (.plain "the operands do not fit")

/-- An operation on its operands. -/
def perform (s : Store) (stack : List Frame) (op : Operation) (vs : List Value) : State :=
  match op, vs with
  | .value, [v] => s.allocate (.evaluated v) stack
  | .apply, f :: args => ⟨s, .apply f args, stack⟩
  | .catchError, [action, h] => ⟨s, .apply action [], .handler h :: stack⟩
  | .force, [v] => ⟨s, .force v, stack⟩
  | .mustForce, [v] => ⟨s, .force v, .insist :: stack⟩
  | .seq, vs => ⟨s, .value (vs.getLast?.getD .nil), stack⟩
  | .list, vs => ⟨s, .value (.list vs), stack⟩
  | .throw, [.error e] => ⟨s, .fail e, stack⟩
  | .evaluated, [.cell id] =>
    match s.cells[id]? with
    | some (.evaluated _) => ⟨s, .value (.bool true), stack⟩
    | _ => ⟨s, .value (.bool false), stack⟩
  | .arity, [.callable f] => ⟨s, .value (.int (Int64.ofInt f.arity)), stack⟩
  | .innerFunction, [.callable (.given f _)] => ⟨s, .value (.callable f), stack⟩
  | .innerArguments, [.callable (.given _ args)] => ⟨s, .value (.list args), stack⟩
  | .category, [.error e] => ⟨s, .value (.text e.category.name), stack⟩
  | .message, [.error e] => ⟨s, .value (.text e.text), stack⟩
  | .approximate, [.constant (.float64 x)] =>
    ⟨s, .ofResult ((x.render ⟨.scientific, 9⟩).map Value.text), stack⟩
  | .display, [v] => ⟨s, .value (.text (v.display s)), stack⟩
  | .call name, vs => ⟨s, .call name vs, stack⟩
  | _, _ => ⟨s, .misused, stack⟩

/-- Evaluates the remaining operands of an operation, then performs it. -/
def operate (s : Store) (stack : List Frame) (scope : Scope) (op : Operation) (done : List Value) :
    List Expr → State
  | [] => perform s stack op done
  | e :: rest => ⟨s, .eval e scope, .operands op done rest scope :: stack⟩

/-- Evaluates an expression. -/
def evaluate (s : Store) (stack : List Frame) (scope : Scope) : Expr → State
  | .constant c => ⟨s, .value (.constant c), stack⟩
  | .var name =>
    match s.lookup? scope name with
    | some v => ⟨s, .value v, stack⟩
    | none => ⟨s, .fail (.plain ("unknown variable " ++ name)), stack⟩
  | .builtin name =>
    match Builtin.ofName? name with
    | some b => ⟨s, .value (.callable b.primitive), stack⟩
    | none => ⟨s, .fail (.fault (.unknownPrimitive name)), stack⟩
  | .native name arity => ⟨s, .native name arity, stack⟩
  | .suspend label body => s.allocate (.pending (.expression label false body scope)) stack
  | .suspendSafe label body => s.allocate (.pending (.expression label true body scope)) stack
  | .suspendNothing => ⟨s, .raise (.fault .noComputation), stack⟩
  | .suspendText x o => s.allocate (.pending (.rendering x o)) stack
  | .lambda name params body =>
    ⟨s, .value (.callable (.primitive name params.length (.closure params body scope))), stack⟩
  | .fail e => ⟨s, .fail e, stack⟩
  | .raise e => ⟨s, .raise e, stack⟩
  | .failTimes key count first later =>
    ⟨s.increase key, .eval (if s.count key < count then first else later) scope, stack⟩
  | .log message body => ⟨s.addLog message, .eval body scope, stack⟩
  | .bind name value body => ⟨s, .eval value scope, .bind name body scope :: stack⟩
  | .operate op operands => operate s stack scope op [] operands

/-- Starts the computation of the cell `id`, which is running now. -/
def start (s : Store) (stack : List Frame) (id : Nat) : Computation → State
  | .expression label safe body scope =>
    ⟨s.addLog ("run " ++ label), .eval body scope,
      if safe then .insist :: .compute id :: stack else .compute id :: stack⟩
  | .rendering x o => ⟨s, .ofResult ((x.render o).map Value.text), .compute id :: stack⟩

/-- Forces a value: a cell yields its value, and other values yield themselves. The number of a cell
that is not in the store cannot be forced. -/
def force (s : Store) (stack : List Frame) (v : Value) : State :=
  match v with
  | .cell id =>
    match s.cells[id]? with
    | some (.evaluated v) => ⟨s, .value v, stack⟩
    | some (.running _) => ⟨s, .raise (.fault .reentrantForce), stack⟩
    | some (.pending c) => start (s.setCell id (.running c)) stack id c
    | none => ⟨s, .misused, stack⟩
  | v => ⟨s, .value v, stack⟩

/-- Calls a callable with as many arguments as its arity. -/
def invoke (s : Store) (stack : List Frame) (f : Callable) (args : List Value) : State :=
  match f with
  | .given g first => ⟨s, .apply (.callable g) (first ++ args), stack⟩
  | .primitive _ _ (.builtin b) => ⟨s, .supply b.name 0 b.params b.act args, stack⟩
  | .primitive name _ .native =>
    ⟨s, .value (.text (name ++ "(" ++ ",".intercalate (args.map (Value.display s)) ++ ")")), stack⟩
  | .primitive name _ (.closure params body scope) =>
    ⟨s.addLog ("call " ++ name), .eval body ((params.zip args).reverse ++ scope), stack⟩

/-- Applies a forced value to arguments. -/
def applyForced (s : Store) (stack : List Frame) (v : Value) (args : List Value) : State :=
  match v with
  | .callable f =>
    if args.length = f.arity then ⟨s, .invoke f args, stack⟩
    else if args.length < f.arity then ⟨s, .value (.callable (.given f args)), stack⟩
    else
      ⟨s, .invoke f (args.take f.arity.toNat), .surplus (args.drop f.arity.toNat) :: stack⟩
  | v => ⟨s, .value v, stack⟩

/-- The action of a built-in function. -/
def act (s : Store) (stack : List Frame) : Action → State
  | .result r => ⟨s, .ofResult r, stack⟩
  | .newVariable v =>
    ⟨{ s with references := s.references ++ [v] }, .value (.reference s.references.length), stack⟩
  | .readVariable id => ⟨s, .value (s.references.getD id .nil), stack⟩
  | .writeVariable id v => ⟨{ s with references := s.references.set id v }, .value .nil, stack⟩
  | .catchError action h => ⟨s, .apply action [], .handler h :: stack⟩

/-- Gives a built-in function its next argument, or lets it act if it has all of them. -/
def supply (s : Store) (stack : List Frame) (name : String) (position : Nat) :
    (params : List Param) → Curried params → List Value → State
  | [], action, _ => act s stack action
  | .any :: ps, f, v :: vs => ⟨s, .supply name (position + 1) ps (f v) vs, stack⟩
  | p :: ps, f, v :: vs => ⟨s, .force v, .argument name position p ps f vs :: stack⟩
  | _ :: _, _, [] => ⟨s, .misused, stack⟩

/-- Goes on with a value. -/
def resume (s : Store) (stack : List Frame) (v : Value) : Frame → State
  | .operands op done rest scope => operate s stack scope op (done ++ [v]) rest
  | .bind name body scope => ⟨s, .eval body ((name, v) :: scope), stack⟩
  | .compute id =>
    if v.isCell then ⟨s, .force v, .settle id :: stack⟩
    else ⟨s.setCell id (.evaluated v), .value v, stack⟩
  | .settle id => ⟨s.setCell id (.evaluated v), .value v, stack⟩
  | .insist => ⟨s, .value v, stack⟩
  | .operator args => applyForced s stack v args
  | .surplus args => ⟨s, .apply v args, stack⟩
  | .handler _ => ⟨s, .value v, stack⟩
  | .argument name position p ps f args =>
    match p.check name position v with
    | .ok a => ⟨s, .supply name (position + 1) ps (f a) args, stack⟩
    | .error e => ⟨s, .fail (.fault e), stack⟩

/-- Goes on with an error that is returned. -/
def returnError (s : Store) (stack : List Frame) (e : Error) : Frame → State
  | .compute id | .settle id => ⟨s.release id, .fail e, stack⟩
  | .insist => ⟨s, .raise e, stack⟩
  | .handler h => ⟨s, .apply h [.error e], stack⟩
  | _ => ⟨s, .fail e, stack⟩

/-- Goes on with an error that is raised. A handler takes it if it is classified. -/
def raiseError (s : Store) (stack : List Frame) (e : Error) : Frame → State
  | .compute id | .settle id => ⟨s.release id, .raise e, stack⟩
  | .handler h => if e.isClassified then ⟨s, .apply h [.error e], stack⟩ else ⟨s, .raise e, stack⟩
  | _ => ⟨s, .raise e, stack⟩

/-- One transition. There is none from an outcome with an empty stack. -/
def step (st : State) : Option State :=
  match st.control, st.stack with
  | .eval e scope, stack => some (evaluate st.store stack scope e)
  | .force v, stack => some (force st.store stack v)
  | .apply f args, stack => some ⟨st.store, .force f, .operator args :: stack⟩
  | .invoke f args, stack => some (invoke st.store stack f args)
  | .supply name position params f args, stack =>
    some (supply st.store stack name position params f args)
  | .value v, frame :: stack => some (resume st.store stack v frame)
  | .fail e, frame :: stack => some (returnError st.store stack e frame)
  | .raise e, frame :: stack => some (raiseError st.store stack e frame)
  | .value _, [] | .fail _, [] | .raise _, [] => none

/-- How an evaluation ends. -/
inductive Outcome where
  | value (v : Value)
  | failure (f : Failure Error)

/-- The outcome in a state without transition. -/
def State.outcome? (st : State) : Option Outcome :=
  match st.control, st.stack with
  | .value v, [] => some (.value v)
  | .fail e, [] => some (.failure (.returned e))
  | .raise e, [] => some (.failure (.raised e))
  | _, _ => none

/-- The state after at most `fuel` transitions. -/
def run : Nat → State → State
  | 0, st => st
  | fuel + 1, st =>
    match step st with
    | some next => run fuel next
    | none => st

end Numerals.Lazy
