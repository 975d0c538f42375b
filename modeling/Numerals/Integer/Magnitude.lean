import Numerals.Fault

/-!
# Magnitudes

A magnitude is a natural number as a list of 32-bit words, least significant first. The operations
work word by word: addition carries, subtraction borrows, multiplication adds one row of word
products after the other, short division goes down from the most significant word.

Results may end in zero words; `trim` removes them.
-/

namespace Numerals

/-- The base-2³² digits of a natural number, least significant first. -/
abbrev Magnitude := List UInt32

namespace Magnitude

/-- The number that the words denote. -/
def toNat : Magnitude → Nat
  | [] => 0
  | d :: ds => d.toNat + 4294967296 * toNat ds

/-- The words without the zeros at the most significant end. -/
def trim : Magnitude → Magnitude
  | [] => []
  | d :: ds =>
    match trim ds with
    | [] => if d = 0 then [] else [d]
    | e :: es => d :: e :: es

/-- The one or two words of `u`. -/
def ofWord (u : UInt64) : Magnitude :=
  if u >>> 32 = 0 then [u.toUInt32] else [u.toUInt32, (u >>> 32).toUInt32]

/-- The low 64 bits. -/
def lowWord : Magnitude → UInt64
  | [] => 0
  | [d] => d.toUInt64
  | d :: e :: _ => d.toUInt64 ||| e.toUInt64 <<< 32

/-- The order of two magnitudes of the same length, decided by the most significant words in which
they differ. -/
def compareWords : Magnitude → Magnitude → Ordering
  | a :: as, b :: bs => (compareWords as bs).then (compare a b)
  | _, _ => .eq

/-- The order of two trimmed magnitudes: the longer one is greater. -/
def compare (a b : Magnitude) : Ordering :=
  (Ord.compare a.length b.length).then (compareWords a b)

/-- The sum of two magnitudes and a carry, with a last word for the final carry. -/
def addCarry (carry : UInt64) : Magnitude → Magnitude → Magnitude
  | [], [] => [carry.toUInt32]
  | a :: as, [] =>
    let s := a.toUInt64 + carry
    s.toUInt32 :: addCarry (s >>> 32) as []
  | [], b :: bs =>
    let s := b.toUInt64 + carry
    s.toUInt32 :: addCarry (s >>> 32) [] bs
  | a :: as, b :: bs =>
    let s := a.toUInt64 + carry + b.toUInt64
    s.toUInt32 :: addCarry (s >>> 32) as bs

/-- The sum of two magnitudes. -/
def add (a b : Magnitude) : Magnitude :=
  addCarry 0 a b

/-- The words of `a - b` less a borrow, and whether a borrow is left over at the end of `a`. A word
borrows if it is less than what is taken from it, or equal to it with a borrow already pending. -/
def subBorrow (borrow : Bool) : Magnitude → Magnitude → Magnitude × Bool
  | [], _ => ([], borrow)
  | a :: as, bs =>
    let b := bs.headD 0
    let d := a - b - (if borrow then 1 else 0)
    let r := subBorrow (a < b || (a == b && borrow)) as bs.tail
    (d :: r.1, r.2)

/-- The difference of two magnitudes, of which the first must not be less than the second. -/
def sub (a b : Magnitude) : Result Magnitude :=
  match subBorrow false a b with
  | (ds, false) => .ok ds
  | (_, true) => Result.raise .magnitudeUnderflow

/-- The high and the low word of the product of two words, put together from the products of their
16-bit halves. -/
def mulWord (a b : UInt32) : UInt32 × UInt32 :=
  let al := a &&& 0xFFFF
  let ah := a >>> 16
  let bl := b &&& 0xFFFF
  let bh := b >>> 16
  let ll := al * bl
  let lh := al * bh
  let hl := ah * bl
  let hh := ah * bh
  let mid := ll + lh <<< 16
  let c₁ : UInt32 := if mid < ll then 1 else 0
  let lo := mid + hl <<< 16
  let c₂ : UInt32 := if lo < mid then 1 else 0
  (hh + lh >>> 16 + hl >>> 16 + (c₁ + c₂), lo)

/-- Adds `a · bs` and a carry to the words of `out`. The word after the row receives the last
carry. -/
def addRow (a carry : UInt32) : Magnitude → Magnitude → Magnitude
  | _, [] => []
  | [], _ :: os => carry :: os
  | b :: bs, o :: os =>
    let p := mulWord a b
    let s := o.toUInt64 + p.2.toUInt64 + carry.toUInt64
    s.toUInt32 :: addRow a (p.1 + (s >>> 32).toUInt32) bs os

/-- Adds the rows of `as · bs`, each one word further up than the one before, to `out`. Zero words
have no row. -/
def addRows (bs : Magnitude) : Magnitude → Magnitude → Magnitude
  | [], out => out
  | a :: as, out =>
    match if a = 0 then out else addRow a 0 bs out with
    | [] => []
    | o :: os => o :: addRows bs as os

/-- The product of two magnitudes. -/
def mul (a b : Magnitude) : Magnitude :=
  addRows b a (List.replicate (a.length + b.length) 0)

/-- The quotient by `d`, word by word, and the remainder. -/
def divWord (d : UInt32) : Magnitude → Magnitude × UInt32
  | [] => ([], 0)
  | a :: as =>
    let r := divWord d as
    let cur := r.2.toUInt64 <<< 32 ||| a.toUInt64
    ((cur / d.toUInt64).toUInt32 :: r.1, (cur % d.toUInt64).toUInt32)

/-- The words shifted up by less than 32 bits, with `carry` shifted in. -/
def shiftBits (n carry : UInt32) : Magnitude → Magnitude
  | [] => [carry]
  | d :: ds => (d <<< n ||| carry) :: shiftBits n (d >>> (32 - n)) ds

/-- The words shifted up by `n` bits. -/
def shiftLeft (a : Magnitude) (n : Nat) : Magnitude :=
  let shifted := if n % 32 = 0 then a ++ [0] else shiftBits (n % 32).toUInt32 0 a
  List.replicate (n / 32) 0 ++ shifted

/-- The number of bits of a trimmed magnitude. -/
def bitLength (a : Magnitude) : Nat :=
  match a.getLast? with
  | none => 0
  | some top => (a.length - 1) * 32 + if top = 0 then 0 else top.toNat.log2 + 1

end Magnitude

end Numerals
