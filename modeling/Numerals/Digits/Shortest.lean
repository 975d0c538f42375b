import Numerals.Digits.Scale

/-!
# Shortest digits

`Digits.generate` finds the fewest digits in a radix that identify a double: no shorter sequence
lies in its rounding interval, and of those with as many digits the one nearest to the double is
taken.
-/

namespace Numerals.Digits

/-- The digits of a positive number with the rounding interval `c`, whose exponent is about `k`. -/
def ofScale (b : Radix) (c : Scale) (k : Int) : Result Digits := do
  let r ← c.fixFrom b k
  r.1.emit b r.2

/-- The shortest digits of a decomposed double in `radix`. The sign plays no part; zero has the
single digit 0. -/
def generate (d : Decomposition) (radix : Int) : Result Digits :=
  match Radix.ofInt? radix with
  | none => Result.refuse (.radixOutOfRange radix)
  | some b =>
    if !d.isFinite then Result.refuse .notFinite
    else if d.isZero then .ok ⟨[0], 0, radix⟩
    else do ofScale b (← Scale.ofDecomposition d) (Scale.estimate b d)

/-- The shortest decimal digits of a decomposed double. -/
def shortest (d : Decomposition) : Result Digits :=
  generate d 10

end Numerals.Digits
