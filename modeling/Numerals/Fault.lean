import Numerals.Text.Numeral
import Numerals.Text.Quoted

/-!
# Faults

Every failure that the library itself detects is a `Fault`: one constructor per cause, holding the
data its message names. A fault has a `Category`, which fixes the exit code of a command that ends
with it, and possibly the index it refers to: the position of an argument, of a digit, or of an
entry in a table.

A computation fails in one of two ways. A fault may be *returned* to the caller, who decides what to
do with it, or *raised*, which abandons everything up to the nearest recovery point. `Result` is the
type of computations that may do either. A few faults are *crashes*: they belong to no category of
their own, are always raised, and pass every recovery point.
-/

namespace Numerals

/-- The kinds of failure. -/
inductive Category where
  | negativeExponent
  | indexOutOfRange
  | reentrantForce
  | digitInvariant
  | notFinite
  | invalidRadix
  | invalidArgument
  | usage
  | settings
  | inputOutput
  | internal
  | other (name : String)
deriving DecidableEq, Repr, Inhabited

namespace Category

/-- The name under which a category is reported. -/
def name : Category → String
  | negativeExponent => "NEGATIVE_EXPONENT"
  | indexOutOfRange => "INDEX_OUT_OF_RANGE"
  | reentrantForce => "REENTRANT_FORCE"
  | digitInvariant => "DIGIT_INVARIANT"
  | notFinite => "NOT_FINITE"
  | invalidRadix => "INVALID_RADIX"
  | invalidArgument => "INVALID_ARGUMENT"
  | usage => "CLI_USAGE"
  | settings => "CONFIG"
  | inputOutput => "INTERNAL_IO"
  | internal => "INTERNAL_ERROR"
  | other name => name

/-- The categories that have a name of their own. -/
def known : List Category :=
  [negativeExponent, indexOutOfRange, reentrantForce, digitInvariant, notFinite, invalidRadix,
    invalidArgument, usage, settings, inputOutput, internal]

/-- The category reported under `s`. -/
def ofName (s : String) : Category :=
  (known.find? fun c => c.name == s).getD (other s)

/-- Whether a failure of this category breaks a promise of the caller. -/
def isFatal : Category → Bool
  | negativeExponent | indexOutOfRange | reentrantForce | digitInvariant => true
  | _ => false

/-- The exit code of a command that ends with a failure of this category. -/
def exitCode : Category → Nat
  | negativeExponent | indexOutOfRange | reentrantForce | digitInvariant => 10
  | inputOutput | internal => 10
  | _ => 2

end Category

/-- A failure that the library detects, by its cause. -/
inductive Fault where
  | divisionByZero
  | baseOutOfRange (base : Int)
  | emptyNumber
  | invalidDigit (index : Nat) (byte : UInt8)
  | magnitudeUnderflow
  | powersOfTwo (exponent : Int)
  | powersOfTen (exponent : Int)
  | negativeExponent (base exponent : Int)
  | logarithm (operand : String)
  | radixOutOfRange (radix : Int)
  | notFinite
  | tooManyDigits (limit : Nat)
  | digitOutOfRange (index digit radix : Nat)
  | leadingZero
  | unknownStyleName (name : String)
  | unknownStyle (number : Int)
  | emptyDigits
  | decimalOnly (radix : Int)
  | reentrantForce
  | noComputation
  | negativeArity (name : String) (arity : Int)
  | argumentType (primitive : String) (position : Nat) (found wanted : String)
  | argumentRange (primitive : String) (position : Nat) (value : Int)
  | quotientByZero
  | registeredTwice (name : String)
  | unknownPrimitive (name : String)
  | notANumber (text : String)
  | exponentArgument (text : String) (limit : Nat)
  | misplacedOption (option command : String)
  | custom (category : Category) (index : Option Nat) (message : String)
  | unhashableKey (type : String)
  | missingCharacter (digit : Nat)
  | listTooLong (length : Int)
deriving DecidableEq, Repr, Inhabited

/-- `n` as an index, if it can be one. -/
def indexOfInt (n : Int) : Option Nat :=
  if 0 ≤ n then some n.toNat else none

namespace Fault

/-- The category of a fault. -/
def category : Fault → Category
  | divisionByZero | emptyNumber | invalidDigit .. | logarithm .. => .invalidArgument
  | unknownStyleName .. | unknownStyle .. | decimalOnly .. => .invalidArgument
  | noComputation | negativeArity .. | argumentType .. | argumentRange .. => .invalidArgument
  | quotientByZero | registeredTwice .. | unknownPrimitive .. => .invalidArgument
  | notANumber .. | exponentArgument .. => .invalidArgument
  | baseOutOfRange .. | radixOutOfRange .. => .invalidRadix
  | magnitudeUnderflow => .internal
  | unhashableKey .. | missingCharacter .. | listTooLong .. => .internal
  | powersOfTwo .. | powersOfTen .. => .indexOutOfRange
  | negativeExponent .. => .negativeExponent
  | notFinite => .notFinite
  | tooManyDigits .. | digitOutOfRange .. | leadingZero | emptyDigits => .digitInvariant
  | reentrantForce => .reentrantForce
  | misplacedOption .. => .usage
  | custom category _ _ => category

/-- The index a fault refers to, if any. -/
def index? : Fault → Option Nat
  | invalidDigit index _ => some index
  | powersOfTwo exponent | powersOfTen exponent => indexOfInt exponent
  | tooManyDigits limit => some limit
  | digitOutOfRange index _ _ => some index
  | leadingZero => some 0
  | argumentType _ position _ _ => some position
  | argumentRange _ position _ => some position
  | quotientByZero => some 1
  | exponentArgument .. => some 1
  | custom _ index _ => index
  | _ => none

open Text in
/-- What a fault says. -/
def message : Fault → String
  | divisionByZero => "bigint: division by zero"
  | baseOutOfRange base => "bigint: base " ++ decimal base ++ " out of range"
  | emptyNumber => "bigint: empty number"
  | invalidDigit _ byte => "bigint: invalid digit " ++ quoteByte byte
  | magnitudeUnderflow => "bigint: magnitude underflow"
  | powersOfTwo _ => "bigint: pow2 table holds 2^0..2^1100"
  | powersOfTen _ => "bigint: pow10 table holds 10^0..10^400"
  | negativeExponent base exponent =>
    "bigint: pow(" ++ decimal base ++ ", " ++ decimal exponent ++ ")"
  | logarithm operand => "ieee: log2 of " ++ operand
  | radixOutOfRange radix => "digits: radix " ++ decimal radix ++ " out of range [2, 36]"
  | notFinite => "digits: value is not finite (NaN or Infinity)"
  | tooManyDigits limit => "digits: no termination after " ++ decimal limit ++ " digits"
  | digitOutOfRange _ digit radix =>
    "digits: digit " ++ decimal digit ++ " out of range for radix " ++ decimal radix
  | leadingZero => "digits: leading zero digit"
  | unknownStyleName name => "numfmt: unknown style " ++ quote name
  | unknownStyle number => "numfmt: unknown style Style(" ++ decimal number ++ ")"
  | emptyDigits => "numfmt: empty digit sequence"
  | decimalOnly radix => "numfmt: ecma notation needs radix 10, got " ++ decimal radix
  | reentrantForce => "thunk: cell forced from within its own computation"
  | noComputation => "thunk: nil computation"
  | negativeArity name arity =>
    "apply: primitive " ++ quote name ++ " has negative arity " ++ decimal arity
  | argumentType primitive _ found wanted =>
    "prim: " ++ primitive ++ ": argument is " ++ found ++ ", want " ++ wanted
  | argumentRange primitive _ value =>
    "prim: " ++ primitive ++ ": " ++ decimal value ++ " does not fit in 32 bits"
  | quotientByZero => "prim: quot: division by zero"
  | registeredTwice name => "prim: primitive " ++ quote name ++ " registered twice"
  | unknownPrimitive name => "prim: unknown primitive " ++ quote name
  | notANumber text => quote text ++ " is not a number"
  | exponentArgument text limit =>
    "exponent " ++ quote text ++ " is not an integer <= " ++ decimal limit
  | misplacedOption option command => "option " ++ option ++ " does not apply to " ++ command
  | custom _ _ message => message
  | unhashableKey type => "runtime error: hash of unhashable type " ++ type
  | missingCharacter digit =>
    "runtime error: index out of range [" ++ decimal digit ++ "] with length " ++
      decimal alphabet.length
  | listTooLong _ => "runtime error: length out of range"

/-- Whether a fault is a crash. -/
def isCrash : Fault → Bool
  | unhashableKey .. | missingCharacter .. | listTooLong .. => true
  | _ => false

/-- The full text of a fault: category, index and message. A crash has only its message. -/
def text (f : Fault) : String :=
  if f.isCrash then f.message
  else
    match f.index? with
    | some i => "rterr: " ++ f.category.name ++ " at index " ++ Text.decimal i ++ ": " ++ f.message
    | none => "rterr: " ++ f.category.name ++ ": " ++ f.message

end Fault

/-- How a computation fails: with an error returned to its caller, or with one raised to the nearest
recovery point. -/
inductive Failure (ε : Type) where
  | returned (error : ε)
  | raised (error : ε)
deriving DecidableEq, Repr

namespace Failure

/-- The error, however it travels. -/
def error {ε : Type} : Failure ε → ε
  | returned e | raised e => e

/-- The same failure with another form of error. -/
def map {ε δ : Type} (f : ε → δ) : Failure ε → Failure δ
  | returned e => returned (f e)
  | raised e => raised (f e)

end Failure

/-- A computation that yields a value, returns a fault or raises one. -/
abbrev Result (α : Type) := Except (Failure Fault) α

namespace Result

/-- Returns `f` to the caller. -/
def refuse {α : Type} (f : Fault) : Result α :=
  .error (.returned f)

/-- Raises `f`. -/
def raise {α : Type} (f : Fault) : Result α :=
  .error (.raised f)

/-- A recovery point: a raised fault is returned from here on, unless it is a crash. -/
def recover {α : Type} : Result α → Result α
  | .error (.raised f) => if f.isCrash then raise f else refuse f
  | r => r

end Result

end Numerals
