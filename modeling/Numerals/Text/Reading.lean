/-!
# Reading of numerals

Digit characters of the bases up to 36 in either letter case, signs, and decimal integers in the
range of 64-bit words.
-/

namespace Numerals.Text

/-- The value of a digit character. -/
def digitValue? (c : Char) : Option Nat :=
  if '0' ≤ c ∧ c ≤ '9' then some (c.toNat - 48)
  else if 'a' ≤ c ∧ c ≤ 'z' then some (c.toNat - 87)
  else if 'A' ≤ c ∧ c ≤ 'Z' then some (c.toNat - 55)
  else none

/-- Whether `c` is a digit of base `b`. -/
def isDigit (b : Nat) (c : Char) : Bool :=
  (digitValue? c).any (· < b)

/-- The number whose digits in base `b` are `cs`. -/
def valueOf (b : Nat) (cs : List Char) : Nat :=
  cs.foldl (fun n c => n * b + (digitValue? c).getD 0) 0

/-- Whether `cs` starts with a minus sign, and what follows its sign. -/
def splitSign : List Char → Bool × List Char
  | '-' :: cs => (true, cs)
  | '+' :: cs => (false, cs)
  | cs => (false, cs)

/-- `n`, negated if `negative`. -/
def signedInt (negative : Bool) (n : Nat) : Int :=
  if negative then -(n : Int) else n

/-- Whether `n` is the value of a signed 64-bit word. -/
def isInt64 (n : Int) : Bool :=
  -9223372036854775808 ≤ n && n ≤ 9223372036854775807

/-- The decimal integer `s` in the range of signed 64-bit words. -/
def readInt64? (s : String) : Option Int :=
  let (negative, ds) := splitSign s.toList
  if ds.isEmpty || !ds.all (isDigit 10) then none
  else some (signedInt negative (valueOf 10 ds)) |>.filter isInt64

end Numerals.Text
