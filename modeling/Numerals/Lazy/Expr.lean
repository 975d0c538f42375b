import Numerals.Binary.Double
import Numerals.Error
import Numerals.Integer.Basic
import Numerals.Layout.Style

/-!
# Expressions

The expressions of the lazy language. Values are computed only where an expression asks for them: a
suspended expression becomes a cell, which is run when it is forced. An expression may also end by
returning an error or by raising one.
-/

namespace Numerals.Lazy

/-- The values that expressions can name. -/
inductive Constant where
  | nil
  | bool (b : Bool)
  | text (s : String)
  | int (n : Int64)
  | int32 (n : Int32)
  | int64 (n : Int64)
  | uint32 (n : UInt32)
  | uint64 (n : UInt64)
  | float64 (x : Binary64)
  | float32 (x : Binary32)
  | integer (n : Integer)
deriving DecidableEq, Repr, Inhabited

/-- The operations whose operands are all evaluated first, from left to right. -/
inductive Operation where
  | value
  | apply
  | catchError
  | force
  | mustForce
  | seq
  | list
  | throw
  | evaluated
  | arity
  | innerFunction
  | innerArguments
  | category
  | message
  | approximate
  | display
  | call (name : String)
deriving DecidableEq, Repr, Inhabited

/-- An expression. -/
inductive Expr where
  | constant (c : Constant)
  | var (name : String)
  | builtin (name : String)
  | native (name : String) (arity : Int)
  | suspend (label : String) (body : Expr)
  | suspendSafe (label : String) (body : Expr)
  | suspendNothing
  | suspendText (x : Binary64) (o : Options)
  | lambda (name : String) (params : List String) (body : Expr)
  | fail (e : Error)
  | raise (e : Error)
  | failTimes (key : String) (count : Nat) (first later : Expr)
  | log (message : String) (body : Expr)
  | bind (name : String) (value body : Expr)
  | operate (op : Operation) (operands : List Expr)
deriving Repr, Inhabited

end Numerals.Lazy
