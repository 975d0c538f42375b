import Numerals.Binary.Decomposition
import Numerals.Digits.Basic
import Numerals.Integer.Power

/-!
# Scaled rounding intervals

A positive floating-point number and the half-way points to its two neighbours are held exactly, as
the ratios `r / s`, `(r + above) / s` and `(r - below) / s`. Below a power of two the neighbour is
half as far away as above it, so that the two distances may differ. The half-way points belong to
the rounding interval of the number exactly if its mantissa is even.

`fix` finds the scale at which digits are generated: the exponent `k` for which the upper half-way
point lies between `B ^ (k - 1)` and `B ^ k`. It starts from any guess whatsoever and corrects it by
exact comparisons. `run` then generates digits until a number with the digits so far lies in the
rounding interval.
-/

namespace Numerals

/-- A positive number with the distances to the half-way points above and below it, over a common
denominator. -/
structure Scale where
  r : Nat
  s : Nat
  above : Nat
  below : Nat
  inclusive : Bool
  s_pos : 0 < s
  above_pos : 0 < above

namespace Scale

/-- The interval of `f · 2 ^ e`. In a `narrow` one the neighbour below is half as far away as the
one above. -/
def ofScaled (f : Nat) (e : Int) (narrow : Bool) : Scale :=
  let inclusive := f % 2 == 0
  have hp : 0 < twoPow e.toNat := Nat.two_pow_pos _
  if 0 ≤ e then
    if narrow then
      ⟨4 * (f * twoPow e.toNat), 4, 2 * twoPow e.toNat, twoPow e.toNat, inclusive, by decide,
        by omega⟩
    else ⟨2 * (f * twoPow e.toNat), 2, twoPow e.toNat, twoPow e.toNat, inclusive, by decide, hp⟩
  else if narrow then ⟨4 * f, twoPow (2 - e).toNat, 2, 1, inclusive, Nat.two_pow_pos _, by decide⟩
  else ⟨2 * f, twoPow (1 - e).toNat, 1, 1, inclusive, Nat.two_pow_pos _, by decide⟩

/-- The power of two that the interval of a number with exponent `e` is built from. -/
def tableExponent (e : Int) (narrow : Bool) : Int :=
  if 0 ≤ e then e else if narrow then 2 - e else 1 - e

/-- The interval of `f · 2 ^ e`, if its power of two is in the table. The index is a long word. -/
def ofFloat (f : Nat) (e : Int) (narrow : Bool) : Result Scale :=
  if tableExponent e narrow ≤ Integer.maxPowerOfTwo then .ok (ofScaled f e narrow)
  else Result.raise (.powersOfTwo (LongWord.wrap (tableExponent e narrow)))

/-- Whether the double below the one with these parts is half as far away as the one above. That is
so at a power of two, except for the least exponent, where the spacing does not change. -/
def isNarrow (d : Decomposition) : Bool :=
  d.mantissa = twoPow 52 && Decomposition.minExponent < d.exponent

/-- The rounding interval of a decomposed double. -/
def ofDecomposition (d : Decomposition) : Result Scale :=
  ofFloat d.mantissa d.exponent (isNarrow d)

/-- The number and its distances multiplied by `b`. -/
def mul (c : Scale) (b : Nat) (hb : 0 < b) : Scale :=
  ⟨c.r * b, c.s, c.above * b, c.below * b, c.inclusive, c.s_pos, Nat.mul_pos c.above_pos hb⟩

/-- The number and its distances divided by `b`. -/
def div (c : Scale) (b : Nat) (hb : 0 < b) : Scale :=
  ⟨c.r, c.s * b, c.above, c.below, c.inclusive, Nat.mul_pos c.s_pos hb, c.above_pos⟩

/-- Whether the upper half-way point reaches 1: it is more than 1, or it is 1 and belongs to the
interval. -/
def reachesOne (c : Scale) : Bool :=
  if c.inclusive then c.s ≤ c.r + c.above else c.s < c.r + c.above

/-- Whether the upper half-way point does not even reach `1 / b`, so that the next digit would be
zero throughout the interval. -/
def belowDigit (c : Scale) (b : Nat) : Bool :=
  if c.inclusive then (c.r + c.above) * b < c.s else (c.r + c.above) * b ≤ c.s

/-- Whether the lower half-way point reaches 0: it is less than 0, or it is 0 and belongs to the
interval. -/
def reachesZero (c : Scale) : Bool :=
  c.r < c.below || (c.inclusive && c.r == c.below)

theorem radix_pos (b : Radix) : 0 < b.val :=
  Nat.lt_of_lt_of_le (by decide) b.two_le

/-- The interval divided by `b ^ k`. -/
def atExponent (b : Radix) (c : Scale) (k : Int) : Scale :=
  if 0 ≤ k then c.div (Nat.pow b.val k.toNat) (Nat.pow_pos (radix_pos b))
  else c.mul (Nat.pow b.val (-k).toNat) (Nat.pow_pos (radix_pos b))

/-- Divides by `b` until the upper half-way point does not reach 1, counting in `k`. -/
def shrink (b : Radix) (c : Scale) (k : Int) : Scale × Int :=
  if c.reachesOne then shrink b (c.div b.val (radix_pos b)) (k + 1) else (c, k)
termination_by c.r + c.above + 1 - c.s
decreasing_by
  rename_i h
  have hs := c.s_pos
  have hb := b.two_le
  have hle : c.s ≤ c.r + c.above := by
    unfold reachesOne at h
    split at h <;> simp at h <;> omega
  have hmul : c.s * 2 ≤ c.s * b.val := Nat.mul_le_mul_left _ hb
  simp only [div]
  omega

/-- Multiplies by `b` until the next digit is not zero throughout the interval, counting down in
`k`. -/
def grow (b : Radix) (c : Scale) (k : Int) : Scale × Int :=
  if c.belowDigit b.val then grow b (c.mul b.val (radix_pos b)) (k - 1) else (c, k)
termination_by c.s - (c.r + c.above)
decreasing_by
  rename_i h
  have hp := c.above_pos
  have hb := b.two_le
  have hle : (c.r + c.above) * b.val ≤ c.s := by
    unfold belowDigit at h
    split at h <;> simp at h <;> omega
  have hmul : (c.r + c.above) * 2 ≤ (c.r + c.above) * b.val := Nat.mul_le_mul_left _ hb
  have hadd : c.r * b.val + c.above * b.val = (c.r + c.above) * b.val := (Nat.add_mul _ _ _).symm
  simp only [mul]
  omega

/-- The interval and the exponent at which digits are generated, found from the guess `k`. -/
def fix (b : Radix) (c : Scale) (k : Int) : Scale × Int :=
  let r := shrink b (c.atExponent b k) k
  grow b r.1 r.2

/-- The interval and the exponent at which digits are generated. The power of the radix for a
negative `k` has the exponent `-k`, which the least long word does not have. -/
def fixFrom (b : Radix) (c : Scale) (k : Int) : Result (Scale × Int) :=
  if k < 0 ∧ LongWord.wrap (-k) < 0 then
    Result.raise (.negativeExponent b.val (LongWord.wrap (-k)))
  else .ok (c.fix b k)

/-- A guess at the number of digits of `f · 2 ^ e` before the point, from the number of its bits. -/
def guess (b : Radix) (f : Nat) (e : Int) : Int :=
  64 * (f.log2 + 1 + e) / (Nat.pow b.val 64).log2

/-- The exponent from which `fix` starts. There is a guess only if the low bits of the mantissa are
a positive long word; the least long word stands for its absence. -/
def estimate (b : Radix) (d : Decomposition) : Int :=
  if d.lowMantissa ≤ 0 then LongWord.least else guess b d.mantissa d.exponent

/-- The last digit if both `d` and `d + 1` lie in the interval: the nearer one, and the even one if
they are equally near. -/
def lastDigit (d : Nat) (c : Scale) : Nat :=
  if 2 * c.r < c.s then d
  else if c.s < 2 * c.r then d + 1
  else if d % 2 = 0 then d
  else d + 1

/-- The most digits that are generated. -/
def maxDigits : Nat := 1100

/-- Generates digits, at most `left` of them. The last one may be equal to the radix. -/
def run (b : Radix) : Nat → Scale → Result (List Nat)
  | 0, _ => Result.refuse (.tooManyDigits maxDigits)
  | left + 1, c =>
    let c := c.mul b.val (radix_pos b)
    let d := c.r / c.s
    let c := { c with r := c.r % c.s }
    if b.val ≤ d then Result.refuse (.digitOutOfRange (maxDigits - (left + 1)) d b.val)
    else
      match c.reachesZero, c.reachesOne with
      | false, false => (run b left c).map (d :: ·)
      | true, true => .ok [lastDigit d c]
      | false, true => .ok [d + 1]
      | true, false => .ok [d]

/-- Carries out of digits that are equal to the radix: the carry out of the first one, and the
digits. -/
def carry (b : Nat) : List Nat → Nat × List Nat
  | [] => (0, [])
  | d :: ds =>
    let r := carry b ds
    if d + r.1 = b then (1, 0 :: r.2) else (0, (d + r.1) :: r.2)

/-- The digits without zeros at the end. -/
def dropZeros : List Nat → List Nat
  | [] => []
  | d :: ds =>
    match dropZeros ds with
    | [] => if d = 0 then [] else [d]
    | e :: es => d :: e :: es

/-- The digit sequence of the generated digits `ds` with exponent `k`: carries are carried out and
zeros at the end dropped. -/
def finish (b : Radix) (k : Int) (ds : List Nat) : Result Digits :=
  let (k, ds) := match carry b.val ds with
    | (0, ds) => (k, ds)
    | (c, ds) => (k + 1, c :: ds)
  match ds with
  | [] => Result.refuse .leadingZero
  | 0 :: _ => Result.refuse .leadingZero
  | d :: ds => .ok ⟨(d :: dropZeros ds).map Nat.toUInt8, k, b.val⟩

/-- The digit sequence of an interval at the exponent `k`. -/
def emit (b : Radix) (c : Scale) (k : Int) : Result Digits := do
  finish b k (← run b maxDigits c)

end Scale

end Numerals
