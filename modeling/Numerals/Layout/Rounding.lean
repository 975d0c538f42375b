/-!
# Rounding of digit lists

`roundTo base n ds` rounds a list of digits to its first `n`, half to even. The digits are bytes, so
that a digit 255 wraps when it is increased; digits of a base below 256 never do.
-/

namespace Numerals.Layout

/-- Whether digits that are compared with the digit of one half, again and again, lie above it. -/
def aboveHalf (half : Int) : List UInt8 → Bool
  | [] => false
  | d :: ds => if (d.toNat : Int) = half then aboveHalf half ds else half < d.toNat

/-- Whether the digits `dropped` after the digits `kept` round up. In an odd base one half is a
recurring fraction, which no list of digits equals; in an even base a tie goes to the even digit. -/
def roundsUp (base : Int) (kept dropped : List UInt8) : Bool :=
  let half := base.tdiv 2
  if base.tmod 2 ≠ 0 then aboveHalf half dropped
  else
    match dropped with
    | [] => false
    | next :: tail =>
      if (next.toNat : Int) ≠ half then half < next.toNat
      else if tail.any (· ≠ 0) then true
      else kept.getLast?.any (· % 2 ≠ 0)

/-- The digits increased by one in the last place, and whether that carries out of the first. -/
def increment (base : Int) : List UInt8 → Bool × List UInt8
  | [] => (true, [])
  | d :: ds =>
    match increment base ds with
    | (false, ds) => (false, d :: ds)
    | (true, ds) =>
      if ((d + 1).toNat : Int) < base then (false, (d + 1) :: ds) else (true, 0 :: ds)

/-- The digits rounded to `n`, half to even: the carry out of the first digit, and `n` digits, after
a digit 1 if there is a carry. Missing digits are zeros. That `n + 1` digits can be made at all is
taken for granted here; the layouts demand it before they round. -/
def roundTo (base : Int) (n : Nat) (ds : List UInt8) : Nat × List UInt8 :=
  if ds.length ≤ n then (0, ds ++ List.replicate (n - ds.length) 0)
  else if roundsUp base (ds.take n) (ds.drop n) then
    match increment base (ds.take n) with
    | (false, out) => (0, out)
    | (true, out) => (1, 1 :: out)
  else (0, ds.take n)

end Numerals.Layout
