import Numerals.Layout.Basic

/-!
# Plain texts of floating-point numbers

In messages and in texts of values, a floating-point number is written with its shortest decimal
digits: in positional form without a superfluous point if its decimal exponent is at least -4 and
less than 6, and with an exponent of at least two digits otherwise.
-/

namespace Numerals.Layout

open Digits (chars)

/-- A decimal exponent: a sign and at least two digits. -/
def displayExponent (e : Int) : List Char :=
  let ds := Text.decimalNat e.natAbs
  (if e < 0 then '-' else '+') :: (if ds.length < 2 then '0' :: ds else ds)

/-- The plain text of `0.ds · 10 ^ k`. -/
def displayDigits (ds : List UInt8) (k : Int) : List Char :=
  let e := k - 1
  if e < -4 ∨ 6 ≤ e then chars (ds.take 1) ++ fraction (ds.drop 1) ++ 'e' :: displayExponent e
  else if k ≤ 0 then '0' :: '.' :: zeros (-k).toNat ++ chars ds
  else chars (ds.take k.toNat) ++ zeros (k.toNat - ds.length) ++ fraction (ds.drop k.toNat)

/-- The plain text of a value of a format. The neighbour below is nearer than the one above at the
powers of two with more than the least exponent. -/
def display (f : FloatFormat) : FloatValue → String
  | .nan => "NaN"
  | .infinite negative => if negative then "-Inf" else "+Inf"
  | .finite negative m e =>
    if m = 0 then signed negative ['0']
    else
      let narrow := m = twoPow f.fractionBits && f.minExponent < e
      match Scale.ofFloat m e narrow >>= fun c => Digits.ofScale .ten c (Scale.guess .ten m e) with
      | .ok ds => signed negative (displayDigits ds.digits ds.exponent)
      | .error e => e.error.text

end Numerals.Layout

namespace Numerals

/-- The plain text of a double. -/
def Binary64.display (x : Binary64) : String :=
  Layout.display .binary64 x.value

/-- The plain text of a single. -/
def Binary32.display (x : Binary32) : String :=
  Layout.display .binary32 x.value

/-- The floor of the binary logarithm of a positive finite double. -/
def Binary64.log2 (x : Binary64) : Result Int :=
  match x.value with
  | .finite false m e =>
    if m = 0 then Result.raise (.logarithm x.display)
    else .ok (FloatValue.finite false m e).floorLog2
  | _ => Result.raise (.logarithm x.display)

end Numerals
