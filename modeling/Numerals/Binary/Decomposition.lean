import Numerals.Binary.Double

/-!
# Decomposition of doubles

A double is taken apart into a mantissa, a binary exponent and a sign, so that a finite one is
`sign · mantissa · 2 ^ exponent` exactly. The exponent of a finite non-zero double is its floor
logarithm less 52, or -1074 for the subnormal ones, so that one unit of the mantissa is the distance
to the next double. NaN and the infinities have an exponent that no finite double has, and marked
mantissas.

The floor logarithm is found without a look at the encoding, by bracketing the number between powers
of two.
-/

namespace Numerals

namespace FloatValue

/-- Whether `2 ^ k ≤ |v|` for a finite `v`. -/
def atLeastTwoPow (v : FloatValue) (k : Int) : Bool :=
  match v with
  | .finite _ m e => twoPow (k - e).toNat ≤ m * twoPow (e - k).toNat
  | _ => false

/-- The largest `k` between `lo` and `hi` with `2 ^ k ≤ |v|`, if `2 ^ lo ≤ |v|`. -/
def searchLog2 (v : FloatValue) (lo hi : Int) : Int :=
  if lo < hi then
    let mid := lo + (hi - lo + 1) / 2
    if v.atLeastTwoPow mid then searchLog2 v mid hi else searchLog2 v lo (mid - 1)
  else lo
termination_by (hi - lo).toNat
decreasing_by all_goals omega

/-- The floor of the binary logarithm of the absolute value of a finite non-zero double. -/
def floorLog2 (v : FloatValue) : Int :=
  v.searchLog2 (-1074) 1023

end FloatValue

/-- A double in parts. The sign is -1 or 1 in the decomposition of a double, but may be any factor
in one made by hand. -/
structure Decomposition where
  mantissa : Nat
  exponent : Int
  sign : Int
deriving DecidableEq, Repr, Inhabited

namespace Decomposition

/-- The least exponent of a finite double. -/
def minExponent : Int := -1074

/-- The exponent that marks NaN and the infinities: one more than a finite double can have. -/
def markExponent : Int := 972

/-- The mantissa that marks NaN. -/
def nanMantissa : Nat := 6755399441055744

/-- The mantissa that marks an infinity. -/
def infinityMantissa : Nat := twoPow 52

/-- -1 for a negative number, 1 for any other. -/
def signOf (negative : Bool) : Int :=
  if negative then -1 else 1

/-- The parts of a double. -/
def ofBinary64 (x : Binary64) : Decomposition :=
  match x.value with
  | .nan => ⟨nanMantissa, markExponent, -1⟩
  | .infinite negative => ⟨infinityMantissa, markExponent, signOf negative⟩
  | .finite negative m e =>
    if m = 0 then ⟨0, 0, signOf negative⟩
    else
      let exponent := max ((FloatValue.finite negative m e).floorLog2 - 52) minExponent
      ⟨m * twoPow (e - exponent).toNat / twoPow (exponent - e).toNat, exponent, signOf negative⟩

/-- The mantissa as a signed 64-bit word, from its low bits. -/
def lowMantissa (d : Decomposition) : Int64 :=
  d.mantissa.toUInt64.toInt64

/-- Whether `d` marks a NaN. -/
def isNaN (d : Decomposition) : Bool :=
  d.exponent = markExponent && d.lowMantissa = Int64.ofNat nanMantissa

/-- Whether `d` marks an infinity. -/
def isInfinite (d : Decomposition) : Bool :=
  d.exponent = markExponent && d.lowMantissa = Int64.ofNat infinityMantissa

/-- Whether `d` is a zero. -/
def isZero (d : Decomposition) : Bool :=
  d.mantissa = 0

/-- Whether `d` is finite. -/
def isFinite (d : Decomposition) : Bool :=
  d.exponent ≠ markExponent

/-- Whether the sign of `d` is negative, which includes a negative zero. -/
def isNegative (d : Decomposition) : Bool :=
  d.sign < 0

/-- The double that has these parts. -/
def toBinary64 (d : Decomposition) : Binary64 :=
  if d.isNaN then .nan
  else if d.isInfinite then .ofValue (.infinite d.isNegative)
  else (Binary64.ofInt d.sign).mul ((Binary64.ofInt d.lowMantissa.toInt).scale d.exponent)

end Decomposition

/-- A double in parts, with the mantissa in two words. -/
structure WordDecomposition where
  sign : Int
  high : UInt32
  low : UInt32
  exponent : Int
deriving DecidableEq, Repr, Inhabited

namespace WordDecomposition

/-- The parts of a double, with the mantissa in two words. -/
def ofBinary64 (x : Binary64) : WordDecomposition :=
  let d := Decomposition.ofBinary64 x
  let m := d.lowMantissa.toUInt64
  ⟨d.sign, (m >>> 32).toUInt32, m.toUInt32, d.exponent⟩

/-- The two words joined. -/
def mantissa (d : WordDecomposition) : UInt64 :=
  d.high.toUInt64 <<< 32 ||| d.low.toUInt64

end WordDecomposition

end Numerals
