/-!
# Binary floating-point formats

A format is given by the number of its fraction bits and of its exponent bits. A datum of the format
is a word with a sign bit, a biased exponent and a fraction; `decode` reads it as a `FloatValue`.

In the other direction `encodeRatio` finds the datum nearest to a ratio of natural numbers, the one
with an even last bit if two are equally near. It rests on one property of the encoding: the words
of the non-negative data, read as numbers, are `m + (e - minExponent) · 2 ^ fractionBits` for the
value `m · 2 ^ e`, also when rounding carries `m` into the next binade, up to the word of infinity.
-/

namespace Numerals

/-- `2 ^ k`. -/
abbrev twoPow (k : Nat) : Nat :=
  Nat.pow 2 k

/-- `n / d` rounded to the nearest natural number, and to the even one if two are equally near. -/
def divHalfEven (n d : Nat) : Nat :=
  let q := n / d
  let r := n % d
  if 2 * r < d then q
  else if d < 2 * r then q + 1
  else if q % 2 = 0 then q
  else q + 1

/-- The value of a floating-point datum. A finite value is the mantissa times a power of two; the
mantissa of a zero is zero. -/
inductive FloatValue where
  | nan
  | infinite (negative : Bool)
  | finite (negative : Bool) (mantissa : Nat) (exponent : Int)
deriving DecidableEq, Repr, Inhabited

/-- The widths of a binary floating-point format. -/
structure FloatFormat where
  fractionBits : Nat
  exponentBits : Nat
deriving DecidableEq, Repr

namespace FloatFormat

/-- Double precision. -/
def binary64 : FloatFormat := ⟨52, 11⟩

/-- Single precision. -/
def binary32 : FloatFormat := ⟨23, 8⟩

/-- The bias of the exponent. -/
def bias (f : FloatFormat) : Nat :=
  twoPow (f.exponentBits - 1) - 1

/-- The exponent of the least positive datum. -/
def minExponent (f : FloatFormat) : Int :=
  1 - f.bias - f.fractionBits

/-- The word of positive infinity: every bit of the exponent is set. -/
def infinityWord (f : FloatFormat) : Nat :=
  (twoPow f.exponentBits - 1) * twoPow f.fractionBits

/-- The word of the sign bit. -/
def signWord (f : FloatFormat) : Nat :=
  twoPow (f.exponentBits + f.fractionBits)

/-- A quiet NaN. -/
def nanWord (f : FloatFormat) : Nat :=
  f.infinityWord + twoPow (f.fractionBits - 1)

/-- The value of a word. -/
def decode (f : FloatFormat) (word : Nat) : FloatValue :=
  let negative := word / f.signWord % 2 = 1
  let exponent := word / twoPow f.fractionBits % twoPow f.exponentBits
  let fraction := word % twoPow f.fractionBits
  if exponent = twoPow f.exponentBits - 1 then
    if fraction = 0 then .infinite negative else .nan
  else if exponent = 0 then .finite negative fraction f.minExponent
  else .finite negative (twoPow f.fractionBits + fraction) (f.minExponent + (exponent - 1))

/-- A word with the sign bit set if `negative`. -/
def withSign (f : FloatFormat) (negative : Bool) (word : Nat) : Nat :=
  if negative then f.signWord + word else word

/-- The largest `k` with `2 ^ k ≤ n / d`, for positive `n` and `d`. -/
def floorLogRatio (n d : Nat) : Int :=
  let k : Int := n.log2 - d.log2
  if d * twoPow k.toNat ≤ n * twoPow (-k).toNat then k else k - 1

/-- The exponent of the data around `n / d`. -/
def exponentFor (f : FloatFormat) (n d : Nat) : Int :=
  max (floorLogRatio n d - f.fractionBits) f.minExponent

/-- The number of the datum nearest to `n / d` among the non-negative data, counted from zero on.
Numbers from `infinityWord` on lie past the largest finite datum. -/
def nearestRank (f : FloatFormat) (n d : Nat) : Nat :=
  if n = 0 then 0
  else
    let e := f.exponentFor n d
    let m := divHalfEven (n * twoPow (-e).toNat) (d * twoPow e.toNat)
    m + (e - f.minExponent).toNat * twoPow f.fractionBits

/-- The word of the datum nearest to `n / d` with the given sign, and whether it is past the largest
finite datum, in which case the word is that of infinity. -/
def encodeRatio (f : FloatFormat) (negative : Bool) (n d : Nat) : Nat × Bool :=
  let rank := f.nearestRank n d
  if f.infinityWord ≤ rank then (f.withSign negative f.infinityWord, true)
  else (f.withSign negative rank, false)

/-- The word of the datum nearest to `m · 2 ^ e` with the given sign. Values that are far out of
range need no division. -/
def encodeScaled (f : FloatFormat) (negative : Bool) (m : Nat) (e : Int) : Nat :=
  if m = 0 then f.withSign negative 0
  else if f.bias < m.log2 + e then f.withSign negative f.infinityWord
  else if m.log2 + e < f.minExponent - 1 then f.withSign negative 0
  else (f.encodeRatio negative (m * twoPow e.toNat) (twoPow (-e).toNat)).1

/-- The word of the datum nearest to a value. -/
def encode (f : FloatFormat) : FloatValue → Nat
  | .nan => f.nanWord
  | .infinite negative => f.withSign negative f.infinityWord
  | .finite negative m e => f.encodeScaled negative m e

end FloatFormat

namespace FloatValue

/-- The product. An infinity times zero is no number. -/
def mul : FloatValue → FloatValue → FloatValue
  | .nan, _ | _, .nan => .nan
  | .infinite a, .infinite b => .infinite (a != b)
  | .infinite a, .finite b m _ | .finite b m _, .infinite a =>
    if m = 0 then .nan else .infinite (a != b)
  | .finite a m e, .finite b n k => .finite (a != b) (m * n) (e + k)

/-- The integer nearest to a finite value, and the even one if two are equally near, with the sign
of the value. -/
def roundToInteger : FloatValue → FloatValue
  | .finite negative m e =>
    if 0 ≤ e then .finite negative m e
    else .finite negative (divHalfEven m (twoPow (-e).toNat)) 0
  | v => v

end FloatValue

end Numerals
