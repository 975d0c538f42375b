import Numerals.Integer.Magnitude

/-!
# Exact integers

An integer is a sign and a magnitude. The operations keep a unique form, `Normalized`: zero has the
sign zero and no words, and the most significant word of any other integer is not zero. `toInt` is
the number an integer denotes.

Addition and subtraction may in principle raise a fault, because the difference of magnitudes checks
its operands; the larger operand is always chosen so that it does not.
-/

namespace Numerals

/-- The sign of an integer. -/
inductive Sign where
  | negative
  | zero
  | positive
deriving DecidableEq, Repr, Inhabited

namespace Sign

/-- The sign as a factor. -/
def toInt : Sign → Int
  | negative => -1
  | zero => 0
  | positive => 1

/-- The opposite sign. -/
def neg : Sign → Sign
  | negative => positive
  | zero => zero
  | positive => negative

/-- The sign of a product. -/
def mul : Sign → Sign → Sign
  | zero, _ | _, zero => zero
  | positive, s => s
  | negative, s => s.neg

end Sign

/-- A signed integer of any size. -/
structure Integer where
  sign : Sign
  mag : Magnitude
deriving DecidableEq, Repr, Inhabited

namespace Integer

/-- The number an integer denotes. -/
def toInt (x : Integer) : Int :=
  x.sign.toInt * x.mag.toNat

/-- The unique form: the sign is zero exactly if there are no words, and the most significant word
is not zero. -/
def Normalized (x : Integer) : Prop :=
  (x.sign = .zero ↔ x.mag = []) ∧ x.mag.getLast? ≠ some 0

instance (x : Integer) : Decidable x.Normalized :=
  inferInstanceAs (Decidable (_ ∧ _))

/-- The integer 0. -/
def zero : Integer := ⟨.zero, []⟩

/-- The integer 1. -/
def one : Integer := ⟨.positive, [1]⟩

/-- The integer with the given sign and words, of which the words may end in zeros. -/
def ofWords (sign : Sign) (words : Magnitude) : Integer :=
  match words.trim with
  | [] => zero
  | d :: ds => ⟨sign, d :: ds⟩

/-- The integer with the value of a signed 64-bit word. The magnitude of a negative word is found
without negating the least one, whose opposite is no such word. -/
def ofInt64 (n : Int64) : Integer :=
  if n = 0 then zero
  else if n < 0 then ⟨.negative, .ofWord ((-(n + 1)).toUInt64 + 1)⟩
  else ⟨.positive, .ofWord n.toUInt64⟩

/-- The integer with the value of an unsigned 64-bit word. -/
def ofUInt64 (u : UInt64) : Integer :=
  if u = 0 then zero else ⟨.positive, .ofWord u⟩

/-- Whether an integer is 0. -/
def isZero (x : Integer) : Bool :=
  x.sign = .zero

/-- Whether an integer is even. -/
def isEven (x : Integer) : Bool :=
  x.sign = .zero || x.mag.headD 0 &&& 1 = 0

/-- The number of bits of the absolute value. -/
def bitLength (x : Integer) : Nat :=
  if x.sign = .zero then 0 else x.mag.bitLength

/-- The low 64 bits in two's complement. -/
def toInt64 (x : Integer) : Int64 :=
  if x.sign = .negative then -x.mag.lowWord.toInt64 else x.mag.lowWord.toInt64

/-- Whether the value is one of a signed 64-bit word. -/
def isInt64 (x : Integer) : Bool :=
  if x.mag.length ≤ 1 then true
  else if x.mag.length > 2 then false
  else if x.sign = .negative then x.mag.lowWord ≤ 0x8000000000000000
  else x.mag.lowWord < 0x8000000000000000

/-- The opposite. -/
def neg (x : Integer) : Integer :=
  if x.sign = .zero then x else ⟨x.sign.neg, x.mag⟩

/-- The absolute value. -/
def abs (x : Integer) : Integer :=
  if x.sign = .negative then ⟨.positive, x.mag⟩ else x

/-- The order of two integers. -/
def compare (x y : Integer) : Ordering :=
  if x.sign.toInt < y.sign.toInt then .lt
  else if y.sign.toInt < x.sign.toInt then .gt
  else if x.sign = .negative then (Magnitude.compare x.mag y.mag).swap
  else Magnitude.compare x.mag y.mag

/-- Whether two integers are equal in the order. -/
def equal (x y : Integer) : Bool :=
  compare x y = .eq

/-- The sum. -/
def add (x y : Integer) : Result Integer :=
  if x.sign = .zero then .ok y
  else if y.sign = .zero then .ok x
  else if x.sign = y.sign then .ok (ofWords x.sign (x.mag.add y.mag))
  else
    match Magnitude.compare x.mag y.mag with
    | .eq => .ok zero
    | .gt => (x.mag.sub y.mag).map (ofWords x.sign)
    | .lt => (y.mag.sub x.mag).map (ofWords y.sign)

/-- The difference. -/
def sub (x y : Integer) : Result Integer :=
  add x y.neg

/-- The product. -/
def mul (x y : Integer) : Integer :=
  if x.sign = .zero || y.sign = .zero then zero
  else ofWords (x.sign.mul y.sign) (x.mag.mul y.mag)

/-- The product with a word. -/
def mulWord (x : Integer) (m : UInt32) : Integer :=
  if x.sign = .zero || m = 0 then zero else ofWords x.sign (x.mag.mul [m])

/-- The quotient by a word, truncated toward zero, and the absolute value of the remainder. -/
def divWord (x : Integer) (d : UInt32) : Result (Integer × UInt32) :=
  if d = 0 then Result.raise .divisionByZero
  else
    let r := x.mag.divWord d
    .ok (ofWords x.sign r.1, r.2)

/-- The product with `2 ^ n`. Its words are taken to fit in memory for every `n`: unlike the lists
of digits in layouts, the list of words has no greatest length here. -/
def shiftLeft (x : Integer) (n : Nat) : Integer :=
  if x.sign = .zero || n = 0 then x else ofWords x.sign (x.mag.shiftLeft n)

end Integer

end Numerals
