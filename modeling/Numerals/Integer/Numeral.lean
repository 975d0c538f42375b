import Numerals.Integer.Basic

/-!
# Numerals of integers

Integers are written and read in the bases from 2 to 36, with small letters for the digits from ten
on. Reading takes an optional sign and digits in either letter case; it works on bytes, and the
index in a fault counts the bytes after the sign.
-/

namespace Numerals.Integer

/-- Whether `base` is a base of numerals. -/
def isBase (base : Int) : Bool :=
  2 ≤ base && base ≤ 36

/-- The digits of a magnitude in base `b`, most significant first and put before `tail`. A magnitude
that is not zero is divided at most `bound` times, which suffices if it has at most `bound` bits. -/
def digitsBefore (b : UInt32) (tail : List Char) : Nat → Magnitude → List Char
  | 0, _ => tail
  | bound + 1, words =>
    match words with
    | [] => tail
    | d :: ds =>
      let r := Magnitude.divWord b (d :: ds)
      digitsBefore b (Text.digitChar r.2.toNat :: tail) bound r.1.trim

/-- The characters of `x` in base `b`. -/
def numeralChars (b : UInt32) (x : Integer) : List Char :=
  let digits := digitsBefore b [] (32 * x.mag.length) x.mag
  match x.sign with
  | .zero => ['0']
  | .negative => '-' :: digits
  | .positive => digits

/-- `x` in base `base`. -/
def numeral (x : Integer) (base : Int) : Result String :=
  if isBase base then .ok (String.ofList (numeralChars base.toNat.toUInt32 x))
  else Result.raise (.baseOutOfRange base)

/-- `x` in decimal. -/
def decimal (x : Integer) : String :=
  String.ofList (numeralChars 10 x)

/-- The value of a byte as a digit: `0` to `9`, then the letters in either case. -/
def digitValue? (c : UInt8) : Option Nat :=
  let n := c.toNat
  if 48 ≤ n ∧ n ≤ 57 then some (n - 48)
  else if 97 ≤ n ∧ n ≤ 122 then some (n - 87)
  else if 65 ≤ n ∧ n ≤ 90 then some (n - 55)
  else none

/-- The value of a byte as a digit of base `b`. -/
def digitBelow? (b : Nat) (c : UInt8) : Option Nat :=
  (digitValue? c).filter (· < b)

/-- Reads the digits `bytes` of base `b` after a number `acc`. The first byte has the index `i`. -/
def readDigits (b : Nat) (i : Nat) (acc : Integer) : List UInt8 → Result Integer
  | [] => .ok acc
  | c :: cs =>
    match digitBelow? b c with
    | none => Result.refuse (.invalidDigit i c)
    | some d => do
      let acc' ← (acc.mulWord b.toUInt32).add (ofInt64 (Int64.ofNat d))
      readDigits b (i + 1) acc' cs

/-- The sign in front of a numeral (whether it is a minus) and the bytes after it. -/
def splitSign : List UInt8 → Bool × List UInt8
  | c :: cs => if c = 45 then (true, cs) else if c = 43 then (false, cs) else (false, c :: cs)
  | [] => (false, [])

/-- Reads a numeral in base `base`. -/
def readBytes (bytes : List UInt8) (base : Int) : Result Integer :=
  if isBase base then
    match splitSign bytes with
    | (_, []) => Result.refuse .emptyNumber
    | (minus, c :: cs) => do
      let x ← readDigits base.toNat 0 zero (c :: cs)
      return if minus then x.neg else x
  else Result.refuse (.baseOutOfRange base)

/-- Reads the text of a numeral in base `base`. -/
def read (s : String) (base : Int) : Result Integer :=
  readBytes s.toUTF8.toList base

end Numerals.Integer
