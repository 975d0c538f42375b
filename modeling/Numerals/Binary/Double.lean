import Numerals.Binary.Format
import Numerals.Word

/-!
# Doubles and singles

`Binary64` and `Binary32` are the words of the two floating-point formats. All conversions go
through exact values and round once, half to even.
-/

namespace Numerals

/-- A double-precision number, as its word. -/
structure Binary64 where
  bits : UInt64
deriving DecidableEq, Repr, Inhabited

/-- A single-precision number, as its word. -/
structure Binary32 where
  bits : UInt32
deriving DecidableEq, Repr, Inhabited

namespace Binary64

/-- The value of a double. -/
def value (x : Binary64) : FloatValue :=
  FloatFormat.binary64.decode x.bits.toNat

/-- The double nearest to a value. -/
def ofValue (v : FloatValue) : Binary64 :=
  ⟨(FloatFormat.binary64.encode v).toUInt64⟩

/-- The double nearest to an integer. -/
def ofInt (n : Int) : Binary64 :=
  ofValue (.finite (n < 0) n.natAbs 0)

/-- A NaN. -/
def nan : Binary64 :=
  ofValue .nan

/-- Whether the sign bit is set. -/
def isNegative (x : Binary64) : Bool :=
  0x8000000000000000 ≤ x.bits

/-- Whether `x` is a NaN. -/
def isNaN (x : Binary64) : Bool :=
  x.value = .nan

/-- Whether `x` is an infinity. -/
def isInfinite (x : Binary64) : Bool :=
  match x.value with
  | .infinite _ => true
  | _ => false

/-- Whether `x` is a zero of either sign. -/
def isZero (x : Binary64) : Bool :=
  match x.value with
  | .finite _ m _ => m = 0
  | _ => false

/-- Whether `x` is the zero with the sign bit set. -/
def isNegativeZero (x : Binary64) : Bool :=
  x.isZero && x.isNegative

/-- The product of two doubles. -/
def mul (x y : Binary64) : Binary64 :=
  ofValue (x.value.mul y.value)

/-- `x · 2 ^ k`. The exponent of the leading bit of the product is a long word. -/
def scale (x : Binary64) (k : Int) : Binary64 :=
  match x.value with
  | .finite negative m e =>
    ofValue (.finite negative m (LongWord.wrap (m.log2 + e + k) - m.log2))
  | v => ofValue v

/-- The integral double nearest to `x`, and the even one if two are equally near. -/
def roundHalfEven (x : Binary64) : Binary64 :=
  ofValue x.value.roundToInteger

end Binary64

namespace Binary32

/-- The value of a single. -/
def value (x : Binary32) : FloatValue :=
  FloatFormat.binary32.decode x.bits.toNat

/-- The single nearest to a value. -/
def ofValue (v : FloatValue) : Binary32 :=
  ⟨(FloatFormat.binary32.encode v).toUInt32⟩

/-- The single nearest to an integer. -/
def ofInt (n : Int) : Binary32 :=
  ofValue (.finite (n < 0) n.natAbs 0)

/-- The double with the value of a single. -/
def toBinary64 (x : Binary32) : Binary64 :=
  Binary64.ofValue x.value

/-- The single nearest to a double. -/
def ofBinary64 (x : Binary64) : Binary32 :=
  ofValue x.value

end Binary32

end Numerals
