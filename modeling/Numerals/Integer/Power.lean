import Numerals.Integer.Basic

/-!
# Powers of integers

Powers of two up to the 1100th and powers of ten up to the 400th come from tables; other powers are
found by repeated squaring.
-/

namespace Numerals.Integer

/-- The exponent of the last entry in the table of powers of two. -/
def maxPowerOfTwo : Nat := 1100

/-- The exponent of the last entry in the table of powers of ten. -/
def maxPowerOfTen : Nat := 400

/-- The entry `2 ^ n`: a single bit at the position `n`. -/
def twoPow (n : Nat) : Integer :=
  ⟨.positive, List.replicate (n / 32) (0 : UInt32) ++ [1 <<< (n % 32).toUInt32]⟩

/-- The entry `10 ^ n`: ten times the entry before. -/
def tenPow : Nat → Integer
  | 0 => one
  | n + 1 => (tenPow n).mulWord 10

/-- `2 ^ n` from the table. -/
def powerOfTwo (n : Int) : Result Integer :=
  if 0 ≤ n ∧ n ≤ maxPowerOfTwo then .ok (twoPow n.toNat) else Result.raise (.powersOfTwo n)

/-- `10 ^ n` from the table. -/
def powerOfTen (n : Int) : Result Integer :=
  if 0 ≤ n ∧ n ≤ maxPowerOfTen then .ok (tenPow n.toNat) else Result.raise (.powersOfTen n)

/-- `acc · b ^ e` by repeated squaring. -/
def powAcc (acc b : Integer) (e : Nat) : Integer :=
  if e = 0 then acc
  else
    powAcc (if e % 2 = 1 then acc.mul b else acc) (if 1 < e then b.mul b else b) (e / 2)
termination_by e
decreasing_by omega

/-- Whether `b` is the word `w`. -/
def isWord (b : Integer) (w : UInt32) : Bool :=
  b.sign = .positive && b.mag = [w]

/-- `b ^ e`. -/
def pow (b : Integer) (e : Int) : Result Integer :=
  if e < 0 then Result.raise (.negativeExponent b.toInt e)
  else if b.isWord 2 ∧ e ≤ maxPowerOfTwo then powerOfTwo e
  else if b.isWord 10 ∧ e ≤ maxPowerOfTen then powerOfTen e
  else .ok (powAcc one b e.toNat)

end Numerals.Integer
