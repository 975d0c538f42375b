/-!
# Numerals

The digit characters of the radixes up to 36, and decimal texts of numbers.
-/

namespace Numerals.Text

/-- The digit characters in order of their values: the ten decimal digits, then the small
letters. -/
def alphabet : List Char :=
  ['0', '1', '2', '3', '4', '5', '6', '7', '8', '9', 'a', 'b', 'c', 'd', 'e', 'f', 'g', 'h', 'i',
    'j', 'k', 'l', 'm', 'n', 'o', 'p', 'q', 'r', 's', 't', 'u', 'v', 'w', 'x', 'y', 'z']

/-- The character of the digit with value `d`. -/
def digitChar (d : Nat) : Char :=
  alphabet.getD d '?'

/-- The characters of `n` in decimal. -/
def decimalNat (n : Nat) : List Char :=
  Nat.toDigits 10 n

/-- The characters of `n` in decimal, with a minus sign if it is negative. -/
def decimalInt : Int → List Char
  | .ofNat n => decimalNat n
  | .negSucc n => '-' :: decimalNat (n + 1)

/-- `n` in decimal. -/
def decimal (n : Int) : String :=
  String.ofList (decimalInt n)

end Numerals.Text
