import Numerals.Binary.Literal
import Numerals.Document.Node
import Numerals.Document.Timestamp

/-!
# Meaning of scalars

A plain scalar may be null, a truth value, an integer, a floating-point number or a timestamp; any
other scalar is a text. Integers are decimal, or in base 2, 8 or 16 after `0b`, `0o` or `0x`, or in
base 8 after a leading zero; they have at most 64 bits. Underscores are ignored.
-/

namespace Numerals.Document

/-- What a scalar means. -/
inductive Meaning where
  | null
  | truth (value : Bool)
  | integer (value : Int)
  | float (value : Binary64)
  | timestamp (value : Timestamp)
  | text
deriving DecidableEq, Repr, Inhabited

namespace Meaning

/-- The tag of scalars with this meaning. -/
def tag : Meaning → Tag
  | null => .null
  | truth _ => .truth
  | integer _ => .integer
  | float _ => .float
  | timestamp _ => .timestamp
  | text => .text

/-- The digits `ds` of an unsigned number in base `b`. -/
def digits? (b : Nat) (ds : List Char) : Option Nat :=
  if ds.all (Text.isDigit b) then some (Text.valueOf b ds) else none

/-- An unsigned integer with an optional mark of its base. -/
def unsigned? : List Char → Option Nat
  | [] => none
  | '0' :: c :: d :: ds =>
    match c.toLower with
    | 'b' => digits? 2 (d :: ds)
    | 'o' => digits? 8 (d :: ds)
    | 'x' => digits? 16 (d :: ds)
    | _ => digits? 8 (c :: d :: ds)
  | '0' :: ds => digits? 8 ds
  | ds => digits? 10 ds

/-- An integer of at most 64 bits: unsigned, or in the range of signed words. -/
def integer? (cs : List Char) : Option Int := do
  let (negative, body) := Text.splitSign cs
  let n ← unsigned? body
  if Text.isInt64 (Text.signedInt negative n) || (body == cs && n < 18446744073709551616) then
    return Text.signedInt negative n
  else none

/-- An integer in base `b` whose sign stands behind the mark of its base. -/
def innerSigned? (b : Nat) (cs : List Char) : Option Int := do
  let (negative, ds) := Text.splitSign cs
  if ds.isEmpty || ds.length = cs.length then none
  (some (Text.signedInt negative (← digits? b ds))).filter Text.isInt64

/-- An integer with the mark of its base before its sign. -/
def marked? : List Char → Option Int
  | '0' :: 'b' :: cs => innerSigned? 2 cs
  | '0' :: 'o' :: cs => innerSigned? 8 cs
  | _ => none

/-- A literal as a floating-point number, unless it overflows. -/
def float? (l : Option Literal) : Option Binary64 := do
  let (x, overflow) := (← l).nearest
  if overflow then none else some x

/-- A decimal number. -/
def decimal? (cs : List Char) : Option Binary64 :=
  let (negative, body) := Text.splitSign cs
  float? (Literal.decimal? negative body)

/-- The scalars that are words. -/
def ofWord? (s : String) : Option Meaning :=
  if ["", "~", "null", "Null", "NULL"].contains s then some null
  else if ["true", "True", "TRUE"].contains s then some (truth true)
  else if ["false", "False", "FALSE"].contains s then some (truth false)
  else if [".nan", ".NaN", ".NAN"].contains s then some (float .nan)
  else if [".inf", ".Inf", ".INF", "+.inf", "+.Inf", "+.INF"].contains s then
    some (float (.ofValue (.infinite false)))
  else if ["-.inf", "-.Inf", "-.INF"].contains s then some (float (.ofValue (.infinite true)))
  else none

/-- The scalars that are numbers or, if `dated`, timestamps. -/
def ofNumber? (dated : Bool) (s : String) : Option Meaning :=
  match s.toList with
  | [] => none
  | '.' :: cs => (float? (Literal.parse? ('.' :: cs))).map float
  | c :: cs =>
    if c = '-' || c = '+' || Text.isDigit 10 c then
      let ds := (c :: cs).filter (· ≠ '_')
      let date := if dated then (Timestamp.parse? s).map timestamp else none
      date.or (((integer? ds).map integer).or
        (((decimal? ds).map float).or ((marked? ds).map integer)))
    else none

/-- What the text of a scalar means if it is not known to be a text. Timestamps are only looked for
if `dated`. -/
def ofText (dated : Bool) (s : String) : Meaning :=
  ((ofWord? s).or (ofNumber? dated s)).getD text

end Meaning

end Numerals.Document
