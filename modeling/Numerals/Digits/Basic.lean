import Numerals.Text.Numeral

/-!
# Digit sequences

A digit sequence `d₁ d₂ … dₙ` with exponent `k` in a radix `B` stands for `0.d₁d₂…dₙ · B ^ k`.
Digits are bytes and hold values, not characters. A sequence made by hand may have any radix; the
ones found by the library have a `Radix`.
-/

namespace Numerals

/-- A radix in which digits are generated. -/
structure Radix where
  val : Nat
  two_le : 2 ≤ val
  le_max : val ≤ 36
deriving DecidableEq, Repr

/-- The decimal radix. -/
def Radix.ten : Radix := ⟨10, by decide, by decide⟩

/-- `n` as a radix, if it lies between 2 and 36. -/
def Radix.ofInt? (n : Int) : Option Radix :=
  if h : 2 ≤ n ∧ n ≤ 36 then some ⟨n.toNat, by omega, by omega⟩ else none

/-- A sequence of digits with an exponent. -/
structure Digits where
  digits : List UInt8
  exponent : Int
  radix : Int
deriving DecidableEq, Repr, Inhabited

namespace Digits

/-- The characters of a list of digits. -/
def chars (ds : List UInt8) : List Char :=
  ds.map fun d => Text.digitChar d.toNat

/-- The digits as characters, without the exponent. -/
def text (ds : Digits) : String :=
  String.ofList (chars ds.digits)

/-- The sequence as a fraction with an exponent. -/
def display (ds : Digits) : String :=
  "0." ++ ds.text ++ "e" ++ Text.decimal ds.exponent

/-- Whether this is the single digit 0. -/
def isZero (ds : Digits) : Bool :=
  ds.digits = [0]

end Digits

end Numerals
