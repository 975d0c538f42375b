import Numerals.Digits.Shortest
import Numerals.Layout.Rounding
import Numerals.Layout.Style

/-!
# Layouts

Digit sequences as text. The fixed layout has a point and at least one digit on each side of it, the
scientific one a single digit before the point and a decimal exponent. The general style takes the
scientific layout if the exponent is less than 0 or more than 7, and the fixed one otherwise. The
ECMA style is that of numbers in ECMAScript; it has no point in integers and no sign on zero.

With a precision the fixed layout has that many digits after the point and the scientific one that
many after the first digit, rounded half to even.

Exponents are long words. Digits that have no character, and lists of digits that are too long to be
made, are crashes.
-/

namespace Numerals

namespace Layout

open Digits (chars)

/-- `n` zeros. -/
def zeros (n : Nat) : List Char :=
  List.replicate n '0'

/-- The fixed layout of `0.ds · B ^ e` with all its digits. -/
def fixedShortest (ds : List UInt8) (e : Int) : List Char :=
  if e ≤ 0 then '0' :: '.' :: zeros (LongWord.wrap (-e)).toNat ++ chars ds
  else if ds.length ≤ e then chars ds ++ zeros (e.toNat - ds.length) ++ ['.', '0']
  else chars (ds.take e.toNat) ++ '.' :: chars (ds.drop e.toNat)

/-- A point and the digits `ds`, or nothing if there are none. -/
def fraction (ds : List UInt8) : List Char :=
  if ds.isEmpty then [] else '.' :: chars ds

/-- The digits of `0.ds · base ^ e` from the point, or from the first one if that is before it, up
to the `p`-th after the point. -/
def fixedDigits (base : Int) (ds : List UInt8) (e : Int) (p : Nat) : Nat × List UInt8 :=
  roundTo base (p + e.toNat) (List.replicate (-e).toNat 0 ++ ds)

/-- The fixed layout of `0.ds · base ^ e` with `p` digits after the point. -/
def fixedRounded (base : Int) (ds : List UInt8) (e : Int) (p : Nat) : List Char :=
  let r := fixedDigits base ds e p
  if 0 ≤ e then
    let whole := r.2.take (e.toNat + r.1)
    (if whole.isEmpty then ['0'] else chars whole) ++ fraction (r.2.drop (e.toNat + r.1))
  else
    let out := if r.1 = 0 then 0 :: r.2 else r.2
    chars (out.take 1) ++ fraction (out.drop 1)

/-- The scientific layout of a sequence with all its digits. -/
def scientificShortest (ds : Digits) : List Char :=
  if ds.isZero then ['0', '.', '0', 'e', '0']
  else
    let rest := if ds.digits.length = 1 then ['0'] else chars (ds.digits.drop 1)
    chars (ds.digits.take 1) ++ '.' :: rest ++ 'e' ::
      Text.decimalInt (LongWord.wrap (ds.exponent - 1))

/-- The scientific layout of a sequence with `p` digits after the first. If rounding carries out of
the first digit, the last one is dropped and the exponent raised. -/
def scientificRounded (ds : Digits) (p : Nat) : List Char :=
  if ds.isZero then
    if p = 0 then ['0', 'e', '0'] else '0' :: '.' :: zeros p ++ ['e', '0']
  else
    let r := roundTo ds.radix (p + 1) ds.digits
    let out := if 0 < r.1 then r.2.dropLast else r.2
    let rest := if 0 < p then '.' :: chars (out.drop 1) else []
    chars (out.take 1) ++ rest ++ 'e' ::
      Text.decimalInt (LongWord.wrap (ds.exponent - 1 + r.1))

/-- The layout of ECMAScript for the digits of a number that is not zero. -/
def ecma (ds : List UInt8) (e : Int) : List Char :=
  if ds.length ≤ e ∧ e ≤ 21 then chars ds ++ zeros (e.toNat - ds.length)
  else if 0 < e ∧ e ≤ 21 then chars (ds.take e.toNat) ++ '.' :: chars (ds.drop e.toNat)
  else if -6 < e ∧ e ≤ 0 then '0' :: '.' :: zeros (-e).toNat ++ chars ds
  else
    let rest := if 1 < ds.length then '.' :: chars (ds.drop 1) else []
    let exponent := LongWord.wrap (e - 1)
    let plus := if 0 ≤ exponent then ['+'] else []
    chars (ds.take 1) ++ rest ++ 'e' :: plus ++ Text.decimalInt exponent

/-- The greatest length of a list of digits. -/
def maxLength : Nat := 281474976710656

/-- Makes sure that a list of `n` digits can be made. -/
def demandLength (n : Int) : Result Unit :=
  if n ≤ maxLength then .ok () else Result.raise (.listTooLong n)

/-- Makes sure that all digits have characters. -/
def demandChars (ds : List UInt8) : Result Unit :=
  match ds.find? fun d => Text.alphabet.length ≤ d.toNat with
  | some d => Result.raise (.missingCharacter d.toNat)
  | none => .ok ()

/-- The fixed layout with the given precision. There is room for a carry, and before it for the
zeros between the point and the first digit. -/
def fixed (ds : Digits) (precision : Int) : Result (List Char) := do
  if precision < 0 then
    demandChars ds.digits
    return fixedShortest ds.digits ds.exponent
  else
    demandLength (precision + max ds.exponent 0 + 1)
    if ds.exponent < 0 then demandLength (ds.digits.length - ds.exponent)
    let p := precision.toNat
    demandChars (fixedDigits ds.radix ds.digits ds.exponent p).2
    return fixedRounded ds.radix ds.digits ds.exponent p

/-- The scientific layout with the given precision. There is room for a carry. Zero is not rounded:
its text grows by one character after the other, without a list of digits that is made in advance,
so that only memory bounds its length, and memory is not modelled. -/
def scientific (ds : Digits) (precision : Int) : Result (List Char) := do
  if precision < 0 then
    demandChars ds.digits
    return scientificShortest ds
  else
    let p := precision.toNat
    if !ds.isZero then
      demandLength (p + 2)
      demandChars (roundTo ds.radix (p + 1) ds.digits).2
    return scientificRounded ds p

/-- The style that the general one stands for at the exponent `e`. -/
def resolve (s : Style) (e : Int) : Style :=
  match s with
  | .general => if e < 0 ∨ 7 < e then .scientific else .fixed
  | s => s

/-- `cs` as a text, after a minus sign if `negative`. -/
def signed (negative : Bool) (cs : List Char) : String :=
  String.ofList (if negative then '-' :: cs else cs)

end Layout

namespace Digits

/-- The sequence with its radix; the radix 0 stands for ten. -/
def withRadix (ds : Digits) : Digits :=
  if ds.radix = 0 then { ds with radix := 10 } else ds

/-- The text of a digit sequence. -/
def render (ds : Digits) (negative : Bool) (o : Options) : Result String :=
  if ds.digits.isEmpty then Result.refuse .emptyDigits
  else
    let ds := ds.withRadix
    match Layout.resolve o.style ds.exponent with
    | .fixed => (Layout.fixed ds o.precision).map (Layout.signed negative)
    | .scientific => (Layout.scientific ds o.precision).map (Layout.signed negative)
    | .ecma =>
      if ds.radix ≠ 10 then Result.refuse (.decimalOnly ds.radix)
      else if ds.isZero then .ok "0"
      else do
        Layout.demandChars ds.digits
        return Layout.signed negative (Layout.ecma ds.digits ds.exponent)
    | s => Result.refuse (.unknownStyle s.toInt)

end Digits

namespace Decomposition

/-- The text of a decomposed double in a radix. -/
def render (d : Decomposition) (radix : Int) (o : Options) : Result String :=
  if d.isNaN then .ok "NaN"
  else if d.isInfinite then .ok (if d.isNegative then "-Infinity" else "Infinity")
  else do (← Digits.generate d radix).render d.isNegative o

end Decomposition

namespace Binary64

/-- The decimal text of a double. -/
def render (x : Binary64) (o : Options) : Result String :=
  (Decomposition.ofBinary64 x).render 10 o

end Binary64

/-- A result that is there for every valid input: a fault in it is raised. -/
def Result.insist {α : Type} : Result α → Result α
  | .ok a => .ok a
  | .error e => .error (.raised e.error)

namespace Binary64

/-- The text of a double in the general style with the shortest digits. -/
def toText (x : Binary64) : Result String :=
  Result.insist (x.render .default)

/-- The text of a double in the ECMA style, marked as a fraction if it is finite. -/
def toEcmaText (x : Binary64) : Result String := do
  let s ← Result.insist (x.render ⟨.ecma, 0⟩)
  if x.isNaN || x.isInfinite || s.toList.any (fun c => c = '.' || c = 'e') then return s
  return s ++ ".0"

end Binary64

end Numerals
