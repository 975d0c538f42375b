import Numerals.Binary.Literal
import Numerals.Integer.Numeral
import Numerals.Integer.Power
import Numerals.Lazy.Value
import Numerals.Layout.Basic

/-!
# Arguments and actions of built-in functions

A forced argument is checked against the kind of its parameter, which may convert it. Once all
arguments are there, a built-in function is an `Action`: a result, an access to a mutable variable,
or a computation under a handler.
-/

namespace Numerals.Lazy

/-- What a parameter becomes once its argument is checked. -/
def Param.Carrier : Param → Type
  | int32 => Int32
  | int => Int64
  | float64 => Binary64
  | float32 => Binary32
  | word64 => UInt64
  | text => String
  | integer => Integer
  | reference => Nat
  | any => Value

/-- A signed word from an integer, if it fits. -/
def checkInt32 (name : String) (position : Nat) (n : Int) : Except Fault Int32 :=
  if Word.fits n then .ok (Int32.ofInt n) else .error (.argumentRange name position n)

/-- A forced argument as its parameter wants it. -/
def Param.check (p : Param) (name : String) (position : Nat) (v : Value) :
    Except Fault p.Carrier :=
  match p, v with
  | .int32, .constant (.int32 n) => .ok n
  | .int32, .constant (.int n) => checkInt32 name position n.toInt
  | .int32, .constant (.int64 n) => checkInt32 name position n.toInt
  | .int, .constant (.int n) => .ok n
  | .int, .constant (.int32 n) => .ok n.toInt64
  | .int, .constant (.int64 n) => .ok n
  | .float64, .constant (.float64 x) => .ok x
  | .float64, .constant (.float32 x) => .ok x.toBinary64
  | .float64, .constant (.int n) => .ok (Binary64.ofInt n.toInt)
  | .float32, .constant (.float32 x) => .ok x
  | .float32, .constant (.float64 x) => .ok (Binary32.ofBinary64 x)
  | .float32, .constant (.int n) => .ok (Binary32.ofInt n.toInt)
  | .word64, .constant (.uint64 n) => .ok n
  | .word64, .constant (.int64 n) => .ok n.toUInt64
  | .word64, .constant (.int n) => .ok n.toUInt64
  | .word64, .constant (.uint32 n) => .ok n.toUInt64
  | .text, .constant (.text s) => .ok s
  | .integer, .constant (.integer n) => .ok n
  | .integer, .constant (.int n) => .ok (Integer.ofInt64 n)
  | .integer, .constant (.int64 n) => .ok (Integer.ofInt64 n)
  | .reference, .reference id => .ok id
  | .any, v => .ok v
  | p, v => .error (.argumentType name position v.typeName p.wanted)

/-- What a built-in function does once its arguments are checked. -/
inductive Action where
  | result (r : Result Value)
  | newVariable (v : Value)
  | readVariable (id : Nat)
  | writeVariable (id : Nat) (v : Value)
  | catchError (action handler : Value)

/-- Functions of the given parameters, one after the other. -/
def Curried : List Param → Type
  | [] => Action
  | p :: ps => p.Carrier → Curried ps

/-- A function of doubles through the functions of the processor's floating-point unit. -/
def viaFloat (f : Float → Float) (x : Binary64) : Binary64 :=
  ⟨(f (Float.ofBits x.bits)).toBits⟩

/-- The hyperbolic sine. Far from zero it is half the exponential, which overflows first. -/
def hyperbolicSine (x : Float) : Float :=
  if x > 21 then Float.exp x * 0.5
  else if x < -21 then -(Float.exp (-x) * 0.5)
  else Float.sinh x

/-- The hyperbolic cosine. Far from zero it is half the exponential, which overflows first. -/
def hyperbolicCosine (x : Float) : Float :=
  if x.abs > 21 then Float.exp x.abs * 0.5 else Float.cosh x

/-- -1, 0 or 1 for an order. -/
def orderInt : Ordering → Int64
  | .lt => -1
  | .eq => 0
  | .gt => 1

/-- The order of two texts by their code points. -/
def compareText (s t : String) : Ordering :=
  if s < t then .lt else if s = t then .eq else .gt

namespace Action

/-- A value as the result. -/
def value (v : Value) : Action :=
  result (.ok v)

/-- A truth value as the result. -/
def bool (b : Bool) : Action :=
  value (.bool b)

/-- A double as the result. -/
def float64 (x : Binary64) : Action :=
  value (.constant (.float64 x))

/-- An integer as the result. -/
def integer (r : Result Integer) : Action :=
  result (r.map fun n => .constant (.integer n))

/-- A text as the result. -/
def text (r : Result String) : Action :=
  result (r.map Value.text)

end Action

/-- What a built-in function does with its arguments. -/
def Builtin.act : (b : Builtin) → Curried b.params
  | .quot => fun a b : Int32 => .result ((Word.quot a b).map fun n => .constant (.int32 n))
  | .imul => fun a b : Int32 => .value (.constant (.int32 (Word.mul a b)))
  | .addC => fun a b : Int32 => .value (.carry (Word.addCarry a b))
  | .subC => fun a b : Int32 => .value (.carry (Word.subCarry a b))
  | .decodeDouble => fun x : Binary64 => .value (.double (.ofBinary64 x))
  | .isDoubleNaN => fun x : Binary64 => .bool x.isNaN
  | .isDoubleInfinite => fun x : Binary64 => .bool x.isInfinite
  | .isDoubleNegativeZero => fun x : Binary64 => .bool x.isNegativeZero
  | .rintDouble => fun x : Binary64 => .float64 x.roundHalfEven
  | .showDouble => fun x : Binary64 => .text x.toText
  | .showDoubleJS => fun x : Binary64 => .text x.toEcmaText
  | .sinh => fun x : Binary64 => .float64 (viaFloat hyperbolicSine x)
  | .cosh => fun x : Binary64 => .float64 (viaFloat hyperbolicCosine x)
  | .tanh => fun x : Binary64 => .float64 (viaFloat Float.tanh x)
  | .readDouble => fun s : String => .float64 (Binary64.ofTextOrNaN s)
  | .isFloatNaN => fun x : Binary32 => .bool x.toBinary64.isNaN
  | .isFloatInfinite => fun x : Binary32 => .bool x.toBinary64.isInfinite
  | .isFloatNegativeZero => fun x : Binary32 => .bool x.toBinary64.isNegativeZero
  | .rintFloat => fun x : Binary32 =>
    .value (.constant (.float32 (.ofBinary64 x.toBinary64.roundHalfEven)))
  | .eqWord64 => fun a b : UInt64 => .bool (a == b)
  | .showInt => fun n : Int64 => .text (.ok (Text.decimal n.toInt))
  | .newMutVar => fun v : Value => .newVariable v
  | .readMutVar => fun id : Nat => .readVariable id
  | .writeMutVar => fun (id : Nat) (v : Value) => .writeVariable id v
  | .strEq => fun s t : String => .bool (s == t)
  | .strOrd => fun s t : String => .value (.int (orderInt (compareText s t)))
  | .catchError => fun action handler : Value => .catchError action handler
  | .integerAdd => fun x y : Integer => .integer (x.add y)
  | .integerSub => fun x y : Integer => .integer (x.sub y)
  | .integerMul => fun x y : Integer => .integer (.ok (x.mul y))
  | .integerPow => fun (x : Integer) (n : Int64) => .integer (x.pow n.toInt)
  | .integerCmp => fun x y : Integer => .value (.int (orderInt (x.compare y)))
  | .integerNeg => fun x : Integer => .integer (.ok x.neg)
  | .integerFromInt => fun n : Int64 => .integer (.ok (Integer.ofInt64 n))
  | .integerToInt => fun x : Integer => .value (.constant (.int64 x.toInt64))
  | .integerShow => fun x : Integer => .text (.ok x.decimal)
  | .integerRead => fun s : String => .integer (Integer.read s 10)

end Numerals.Lazy
