import Numerals.Binary.Decomposition
import Numerals.Lazy.Builtin
import Numerals.Lazy.Expr
import Numerals.Word

/-!
# Values

The values of the lazy language. Cells and mutable variables are numbers of entries in the store.
A callable is a primitive with a fixed arity, or a callable with the first of its arguments.
-/

namespace Numerals.Lazy

mutual

/-- A value. -/
inductive Value where
  | constant (c : Constant)
  | double (d : WordDecomposition)
  | carry (c : Carry)
  | reference (id : Nat)
  | cell (id : Nat)
  | callable (f : Callable)
  | list (items : List Value)
  | error (e : Error)

/-- A value that can be applied. -/
inductive Callable where
  | primitive (name : String) (arity : Nat) (code : Code)
  | given (f : Callable) (args : List Value)

/-- What a primitive does: one of the built-in functions, a description of its call, or the body of
a function in the scope where it was written. -/
inductive Code where
  | builtin (b : Builtin)
  | native
  | closure (params : List String) (body : Expr) (scope : List (String × Value))

end

instance : Inhabited Value := ⟨.constant .nil⟩

/-- The variables in scope, innermost first. -/
abbrev Scope := List (String × Value)

namespace Callable

/-- The number of arguments that are still missing. -/
def arity : Callable → Int
  | primitive _ n _ => n
  | given f args => f.arity - args.length

/-- The text of a callable. -/
def display : Callable → String
  | primitive name n _ => "<primitive " ++ name ++ "/" ++ Text.decimal n ++ ">"
  | given f args =>
    "<partial " ++ f.display ++ " " ++ Text.decimal args.length ++ "/" ++ Text.decimal f.arity ++
      ">"

end Callable

namespace Value

/-- A text as a value. -/
@[match_pattern] abbrev text (s : String) : Value := constant (.text s)

/-- A truth value. -/
@[match_pattern] abbrev bool (b : Bool) : Value := constant (.bool b)

/-- An integer of the usual width. -/
@[match_pattern] abbrev int (n : Int64) : Value := constant (.int n)

/-- The value of no interest. -/
@[match_pattern] abbrev nil : Value := constant .nil

/-- The name of the type of a value. -/
def typeName : Value → String
  | constant .nil => "<nil>"
  | constant (.bool _) => "bool"
  | constant (.text _) => "string"
  | constant (.int _) => "int"
  | constant (.int32 _) => "int32"
  | constant (.int64 _) => "int64"
  | constant (.uint32 _) => "uint32"
  | constant (.uint64 _) => "uint64"
  | constant (.float64 _) => "float64"
  | constant (.float32 _) => "float32"
  | constant (.integer _) => "*bigint.Int"
  | double _ => "ieee.Double"
  | carry _ => "prim.Carry"
  | reference _ => "*prim.MutVar"
  | cell _ => "*thunk.Cell"
  | callable (.primitive ..) => "*apply.Primitive"
  | callable (.given ..) => "*apply.Partial"
  | list _ => "[]interface \x7b\x7d"
  | error e => if e.isClassified then "*rterr.Error" else "*errors.errorString"

/-- Whether a value is a cell. -/
def isCell : Value → Bool
  | cell _ => true
  | _ => false

end Value

end Numerals.Lazy
