import Numerals.Integer.Numeral
import Numerals.Lazy.Value
import Numerals.Layout.Display

/-!
# The store

The store holds the cells and the mutable variables, the global variables, the counters of
expressions that fail a number of times, and the log. A cell is pending or running, with its
computation, or evaluated, with its value.
-/

namespace Numerals.Lazy

/-- What a cell computes: an expression in its scope, whose errors are raised if it is `safe`, or
the text of a number. -/
inductive Computation where
  | expression (label : String) (safe : Bool) (body : Expr) (scope : Scope)
  | rendering (x : Binary64) (o : Options)

/-- The state of a cell. -/
inductive Cell where
  | pending (c : Computation)
  | running (c : Computation)
  | evaluated (v : Value)

/-- The store. -/
structure Store where
  cells : List Cell
  references : List Value
  globals : Scope
  counters : List (String × Nat)
  log : List String
deriving Inhabited

namespace Store

/-- A store with nothing in it. -/
def empty : Store := ⟨[], [], [], [], []⟩

/-- The store with a further cell, which is the last one. -/
def addCell (s : Store) (c : Cell) : Store :=
  { s with cells := s.cells ++ [c] }

/-- The store with another state of a cell. -/
def setCell (s : Store) (id : Nat) (c : Cell) : Store :=
  { s with cells := s.cells.set id c }

/-- The store after a cell was left by a failure: it is pending again. -/
def release (s : Store) (id : Nat) : Store :=
  match s.cells[id]? with
  | some (.running c) => s.setCell id (.pending c)
  | _ => s

/-- The store with a further line in the log. -/
def addLog (s : Store) (line : String) : Store :=
  { s with log := s.log ++ [line] }

/-- The value of a name: of the innermost variable in scope, or else of the global one. -/
def lookup? (s : Store) (scope : Scope) (name : String) : Option Value :=
  (scope.lookup name).or (s.globals.lookup name)

/-- The store with a global variable. -/
def bindGlobal (s : Store) (name : String) (v : Value) : Store :=
  { s with globals := (name, v) :: s.globals }

/-- How often a counter was increased. -/
def count (s : Store) (key : String) : Nat :=
  (s.counters.lookup key).getD 0

/-- The store with a counter increased. -/
def increase (s : Store) (key : String) : Store :=
  { s with counters := (key, s.count key + 1) :: s.counters }

end Store

/-- The text of a constant. -/
def Constant.display : Constant → String
  | .nil => "<nil>"
  | .bool b => if b then "true" else "false"
  | .text s => s
  | .int n => Text.decimal n.toInt
  | .int32 n => Text.decimal n.toInt
  | .int64 n => Text.decimal n.toInt
  | .uint32 n => Text.decimal n.toNat
  | .uint64 n => Text.decimal n.toNat
  | .float64 x => x.display
  | .float32 x => x.display
  | .integer n => n.decimal

namespace Value

/-- The texts of a record, in braces. -/
def displayFields (fields : List String) : String :=
  "\x7b" ++ " ".intercalate fields ++ "\x7d"

/-- The text of a value. Cells and variables are shown with what they hold, to the given depth. -/
def displayTo (depth : Nat) (s : Store) (v : Value) : String :=
  match depth with
  | 0 => "..."
  | depth + 1 =>
    match v with
    | .constant c => c.display
    | .double d =>
      displayFields [Text.decimal d.sign, Text.decimal d.high.toNat, Text.decimal d.low.toNat,
        Text.decimal d.exponent]
    | .carry c =>
      displayFields [Text.decimal c.value.toInt, if c.overflow then "true" else "false"]
    | .reference id => "&" ++ displayFields [displayTo depth s (s.references.getD id .nil)]
    | .cell id =>
      match s.cells[id]? with
      | some (.evaluated v) => "thunk(" ++ displayTo depth s v ++ ")"
      | some (.running _) => "thunk(<running>)"
      | _ => "thunk(<pending>)"
    | .callable f => f.display
    | .list items => "[" ++ " ".intercalate (items.map (displayTo depth s)) ++ "]"
    | .error e => e.text

/-- The text of a value. -/
def display (s : Store) (v : Value) : String :=
  v.displayTo (s.cells.length + s.references.length + 100) s

end Value

end Numerals.Lazy
