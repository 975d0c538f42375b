import Numerals.Fault

/-!
# Signed words

Arithmetic on signed 32-bit words that wraps around: the truncated quotient, the product, and sums
and differences that report whether they left the range of a word.

Exponents are long words, of 64 bits. They are kept as integers, and `LongWord.wrap` brings what is
computed from them back into range.
-/

namespace Numerals

/-- A word, and whether the exact result was outside the range of words. -/
structure Carry where
  value : Int32
  overflow : Bool
deriving DecidableEq, Repr, Inhabited

namespace Word

/-- Whether `n` is the value of a signed word. -/
def fits (n : Int) : Bool :=
  -2147483648 ≤ n && n ≤ 2147483647

/-- The quotient, truncated towards zero. The least word divided by -1 is itself. -/
def quot (a b : Int32) : Result Int32 :=
  if b = 0 then Result.refuse .quotientByZero else .ok (a / b)

/-- The low word of the product, from the halves of the factors. The product of the high halves does
not reach the low word. -/
def mul (a b : Int32) : Int32 :=
  let lowHalf (x : UInt32) : UInt32 := x &&& 0xffff
  let highHalf (x : UInt32) : UInt32 := x >>> 16
  let x := a.toUInt32
  let y := b.toUInt32
  let cross := lowHalf x * highHalf y + highHalf x * lowHalf y
  (lowHalf x * lowHalf y + (cross <<< 16)).toInt32

/-- The word of an exact result. -/
def carry (n : Int) : Carry :=
  ⟨Int32.ofInt n, !fits n⟩

/-- The sum with its carry. -/
def addCarry (a b : Int32) : Carry :=
  carry (a.toInt + b.toInt)

/-- The difference with its carry. -/
def subCarry (a b : Int32) : Carry :=
  carry (a.toInt - b.toInt)

end Word

namespace LongWord

/-- The least signed 64-bit word. -/
def least : Int := -9223372036854775808

/-- The signed 64-bit word that is congruent to `n`. -/
def wrap (n : Int) : Int :=
  n.bmod 18446744073709551616

end LongWord

end Numerals
