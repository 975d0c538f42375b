/-!
# Built-in functions

The names of the built-in functions and the kinds of their parameters. Each argument is forced and
checked in turn before the function acts, except for parameters of any kind, which are taken as they
are.
-/

namespace Numerals.Lazy

/-- The built-in functions. -/
inductive Builtin where
  | addC
  | catchError
  | cosh
  | decodeDouble
  | eqWord64
  | imul
  | integerAdd
  | integerCmp
  | integerFromInt
  | integerMul
  | integerNeg
  | integerPow
  | integerRead
  | integerShow
  | integerSub
  | integerToInt
  | isDoubleInfinite
  | isDoubleNaN
  | isDoubleNegativeZero
  | isFloatInfinite
  | isFloatNaN
  | isFloatNegativeZero
  | newMutVar
  | quot
  | readDouble
  | readMutVar
  | rintDouble
  | rintFloat
  | showDouble
  | showDoubleJS
  | showInt
  | sinh
  | strEq
  | strOrd
  | subC
  | tanh
  | writeMutVar
deriving DecidableEq, Repr, Inhabited

/-- The kinds of parameters. -/
inductive Param where
  | int32
  | int
  | float64
  | float32
  | word64
  | text
  | integer
  | reference
  | any
deriving DecidableEq, Repr, Inhabited

/-- What a message calls the type that a parameter wants. -/
def Param.wanted : Param → String
  | int32 => "int32"
  | int => "int"
  | float64 => "float64"
  | float32 => "float32"
  | word64 => "uint64"
  | text => "string"
  | integer => "*bigint.Int"
  | reference => "*prim.MutVar"
  | any => "any"

namespace Builtin

/-- All built-in functions, in the order of their names. -/
def all : List Builtin :=
  [addC, catchError, cosh, decodeDouble, eqWord64, imul, integerAdd, integerCmp, integerFromInt,
    integerMul, integerNeg, integerPow, integerRead, integerShow, integerSub, integerToInt,
    isDoubleInfinite, isDoubleNaN, isDoubleNegativeZero, isFloatInfinite, isFloatNaN,
    isFloatNegativeZero, newMutVar, quot, readDouble, readMutVar, rintDouble, rintFloat, showDouble,
    showDoubleJS, showInt, sinh, strEq, strOrd, subC, tanh, writeMutVar]

/-- The name of a built-in function. -/
def name : Builtin → String
  | addC => "addC"
  | catchError => "catch"
  | cosh => "cosh"
  | decodeDouble => "decodeDouble"
  | eqWord64 => "eqWord64"
  | imul => "imul"
  | integerAdd => "integerAdd"
  | integerCmp => "integerCmp"
  | integerFromInt => "integerFromInt"
  | integerMul => "integerMul"
  | integerNeg => "integerNeg"
  | integerPow => "integerPow"
  | integerRead => "integerRead"
  | integerShow => "integerShow"
  | integerSub => "integerSub"
  | integerToInt => "integerToInt"
  | isDoubleInfinite => "isDoubleInfinite"
  | isDoubleNaN => "isDoubleNaN"
  | isDoubleNegativeZero => "isDoubleNegativeZero"
  | isFloatInfinite => "isFloatInfinite"
  | isFloatNaN => "isFloatNaN"
  | isFloatNegativeZero => "isFloatNegativeZero"
  | newMutVar => "newMutVar"
  | quot => "quot"
  | readDouble => "readDouble"
  | readMutVar => "readMutVar"
  | rintDouble => "rintDouble"
  | rintFloat => "rintFloat"
  | showDouble => "showDouble"
  | showDoubleJS => "showDoubleJS"
  | showInt => "showInt"
  | sinh => "sinh"
  | strEq => "strEq"
  | strOrd => "strOrd"
  | subC => "subC"
  | tanh => "tanh"
  | writeMutVar => "writeMutVar"

/-- The parameters of a built-in function. -/
def params : Builtin → List Param
  | addC | subC | imul | quot => [.int32, .int32]
  | cosh | sinh | tanh | decodeDouble | rintDouble | showDouble | showDoubleJS => [.float64]
  | isDoubleInfinite | isDoubleNaN | isDoubleNegativeZero => [.float64]
  | isFloatInfinite | isFloatNaN | isFloatNegativeZero | rintFloat => [.float32]
  | eqWord64 => [.word64, .word64]
  | integerAdd | integerSub | integerMul | integerCmp => [.integer, .integer]
  | integerPow => [.integer, .int]
  | integerNeg | integerShow | integerToInt => [.integer]
  | integerFromInt | showInt => [.int]
  | integerRead | readDouble => [.text]
  | strEq | strOrd => [.text, .text]
  | newMutVar => [.any]
  | readMutVar => [.reference]
  | writeMutVar => [.reference, .any]
  | catchError => [.any, .any]

/-- The number of arguments of a built-in function. -/
def arity (b : Builtin) : Nat :=
  b.params.length

end Builtin

end Numerals.Lazy
