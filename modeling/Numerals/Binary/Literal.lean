import Numerals.Binary.Double
import Numerals.Fault
import Numerals.Text.Blank
import Numerals.Text.Folding
import Numerals.Text.Reading

/-!
# Floating-point literals

A literal is an optional sign followed by `inf` or `infinity`, the unsigned word `nan`, a decimal
number with an optional exponent of ten, or a hexadecimal number after `0x` with a mandatory
exponent of two. Letters may have either case, and one of the two sides of the point may be empty.
Single underscores may stand between two digits; the mark `0x` counts as a digit here.

Once an exponent has reached 10000, its further digits are without effect. The double of a literal
is the nearest one, half to even. A literal past the largest double overflows: it denotes an
infinity.
-/

namespace Numerals

/-- A literal. A number is the mantissa times a power of its base, 10 or 2. -/
inductive Literal where
  | nan
  | infinite (negative : Bool)
  | number (negative : Bool) (mantissa base : Nat) (exponent : Int)
deriving DecidableEq, Repr, Inhabited

namespace Literal

/-- Whether `cs` spells `name` in some case of its ASCII letters. -/
def isWord (name : String) (cs : List Char) : Bool :=
  cs.map Char.toLower == name.toList

/-- The literals in words. -/
def special? (cs : List Char) : Option Literal :=
  let (negative, body) := Text.splitSign cs
  if isWord "nan" cs then some .nan
  else if isWord "inf" body || isWord "infinity" body then some (.infinite negative)
  else none

/-- What follows the mark of hexadecimal numbers, if `cs` starts with it. -/
def afterHexMark? : List Char → Option (List Char)
  | '0' :: c :: cs => if c.toLower = 'x' then some cs else none
  | _ => none

/-- Whether underscores in digits of base `b` stand between two digits only. `afterDigit` says that
the character before `cs` is a digit. -/
def separates (b : Nat) (afterDigit : Bool) : List Char → Bool
  | [] => true
  | c :: cs =>
    if c = '_' then
      match cs with
      | [] => false
      | d :: ds => afterDigit && Text.isDigit b d && separates b true ds
    else separates b (Text.isDigit b c) cs

/-- Whether the underscores of a literal are where they may be. -/
def wellSeparated (cs : List Char) : Bool :=
  let body := (Text.splitSign cs).2
  match afterHexMark? body with
  | some ds => separates 16 true ds
  | none => separates 10 false body

/-- The value of the digits of an exponent. -/
def exponentValue (ds : List Char) : Nat :=
  ds.foldl (fun e c => if e < 10000 then e * 10 + (Text.digitValue? c).getD 0 else e) 0

/-- A signed exponent after the letter `mark`. -/
def exponent? (mark : Char) : List Char → Option Int
  | [] => none
  | c :: cs =>
    let (negative, ds) := Text.splitSign cs
    if c.toLower = mark && !ds.isEmpty && ds.all (Text.isDigit 10) then
      some (Text.signedInt negative (exponentValue ds))
    else none

/-- The digits of base `b` that `cs` starts with, and what follows them. -/
def digits (b : Nat) (cs : List Char) : List Char × List Char :=
  cs.span (Text.isDigit b)

/-- The digits after the point that `cs` starts with, if it does, and what follows them. -/
def fraction (b : Nat) : List Char → List Char × List Char
  | '.' :: cs => digits b cs
  | cs => ([], cs)

/-- The digits before and after the point that `cs` starts with, and what follows them. There is at
least one digit. -/
def mantissa? (b : Nat) (cs : List Char) : Option (List Char × List Char × List Char) :=
  let (whole, rest) := digits b cs
  let (part, rest) := fraction b rest
  if whole.isEmpty && part.isEmpty then none else some (whole, part, rest)

/-- A decimal number without sign. -/
def decimal? (negative : Bool) (cs : List Char) : Option Literal := do
  let (whole, part, rest) ← mantissa? 10 cs
  let e ← if rest.isEmpty then some 0 else exponent? 'e' rest
  return .number negative (Text.valueOf 10 (whole ++ part)) 10 (e - part.length)

/-- A hexadecimal number without sign and mark. -/
def hexadecimal? (negative : Bool) (cs : List Char) : Option Literal := do
  let (whole, part, rest) ← mantissa? 16 cs
  let e ← exponent? 'p' rest
  return .number negative (Text.valueOf 16 (whole ++ part)) 2 (e - 4 * part.length)

/-- A number with an optional sign and without underscores. -/
def number? (cs : List Char) : Option Literal :=
  let (negative, body) := Text.splitSign cs
  match afterHexMark? body with
  | some ds => hexadecimal? negative ds
  | none => decimal? negative body

/-- The literal that `cs` is. -/
def parse? (cs : List Char) : Option Literal :=
  match special? cs with
  | some l => some l
  | none => if wellSeparated cs then number? (cs.filter (· ≠ '_')) else none

/-- The double nearest to a literal, and whether the literal overflows. -/
def nearest : Literal → Binary64 × Bool
  | .nan => (.nan, false)
  | .infinite negative => (.ofValue (.infinite negative), false)
  | .number negative m b e =>
    let r := FloatFormat.binary64.encodeRatio negative (m * Nat.pow b e.toNat)
      (Nat.pow b (-e).toNat)
    (⟨r.1.toUInt64⟩, r.2)

end Literal

namespace Binary64

/-- The double that a text denotes, and whether it overflows. -/
def ofText? (s : String) : Option (Binary64 × Bool) :=
  (Literal.parse? s.toList).map Literal.nearest

/-- Whether a text denotes a double without overflow. -/
def isNumeral (s : String) : Bool :=
  (ofText? s).any fun r => !r.2

/-- The double that a text must denote; literals that overflow denote the infinities. -/
def ofText (s : String) : Result Binary64 :=
  match ofText? s with
  | some r => .ok r.1
  | none => Result.refuse (.notANumber s)

/-- The double that a text denotes up to blanks around it. Any other text, and one that overflows,
gives a NaN. -/
def ofTextOrNaN (s : String) : Binary64 :=
  match ofText? (Text.trim s) with
  | some (x, false) => x
  | _ => .nan

end Binary64

end Numerals
