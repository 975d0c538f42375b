import Numerals.Text.Reading

/-!
# Timestamps

A scalar may be a day, or a time of a day. The year has four digits and the other numbers one or
two. The time follows after a letter `T` or `t` and then ends with a zone, or after spaces and then
has none. Seconds may have a fraction.
-/

namespace Numerals.Document

/-- A time of a day. The zone is its distance in seconds from universal time; without a zone, the
time is universal. -/
structure Timestamp where
  year : Nat
  month : Nat
  day : Nat
  hour : Nat := 0
  minute : Nat := 0
  second : Nat := 0
  nanosecond : Nat := 0
  zone : Option Int := none
deriving DecidableEq, Repr, Inhabited

namespace Timestamp

/-- Whether a year has a leap day. -/
def isLeap (year : Nat) : Bool :=
  year % 4 = 0 && (year % 100 ≠ 0 || year % 400 = 0)

/-- The number of days of a month. -/
def daysOf (year month : Nat) : Nat :=
  if month = 2 then if isLeap year then 29 else 28
  else if month = 4 || month = 6 || month = 9 || month = 11 then 30
  else 31

/-- A number of one or two digits, and what follows it. -/
def number? : List Char → Option (Nat × List Char)
  | c :: d :: cs =>
    if !Text.isDigit 10 c then none
    else if Text.isDigit 10 d then some (Text.valueOf 10 [c, d], cs)
    else some (Text.valueOf 10 [c], d :: cs)
  | [c] => if Text.isDigit 10 c then some (Text.valueOf 10 [c], []) else none
  | [] => none

/-- A number below `limit` of one or two digits, and what follows it. -/
def below? (limit : Nat) (cs : List Char) : Option (Nat × List Char) :=
  (number? cs).filter fun r => r.1 < limit

/-- What follows the character `c`. -/
def after? (c : Char) : List Char → Option (List Char)
  | d :: cs => if c = d then some cs else none
  | [] => none

/-- A day, and what follows it. Whether the month has that day is left open. -/
def date? (cs : List Char) : Option (Timestamp × List Char) := do
  let digits := cs.takeWhile (Text.isDigit 10)
  if digits.length ≠ 4 then none
  let rest ← after? '-' (cs.drop 4)
  let (month, rest) ← below? 13 rest
  if month = 0 then none
  let rest ← after? '-' rest
  let (day, rest) ← number? rest
  return ({ year := Text.valueOf 10 digits, month, day }, rest)

/-- The fraction of a second in nanoseconds, and what follows it. A point or a comma without digits
is left alone. -/
def fraction (cs : List Char) : Nat × List Char :=
  match cs with
  | c :: rest =>
    let digits := rest.takeWhile (Text.isDigit 10)
    if (c = '.' || c = ',') && !digits.isEmpty then
      let shown := digits.take 9
      (Text.valueOf 10 shown * Nat.pow 10 (9 - shown.length), rest.drop digits.length)
    else (0, cs)
  | [] => (0, [])

/-- The time on the day `t`, and what follows it. -/
def time? (t : Timestamp) (cs : List Char) : Option (Timestamp × List Char) := do
  let (hour, rest) ← below? 24 cs
  let (minute, rest) ← below? 60 (← after? ':' rest)
  let (second, rest) ← below? 60 (← after? ':' rest)
  let (nanosecond, rest) := fraction rest
  return ({ t with hour, minute, second, nanosecond }, rest)

/-- The zone that `cs` writes: the letter `Z`, or a sign, hours and minutes of two digits each. -/
def zone? : List Char → Option (Option Int)
  | ['Z'] => some none
  | [s, a, b, ':', c, d] =>
    if (s = '+' || s = '-') && [a, b, c, d].all (Text.isDigit 10) then
      let hours := Text.valueOf 10 [a, b]
      let minutes := Text.valueOf 10 [c, d]
      if hours ≤ 24 && minutes ≤ 60 then
        some (some (Text.signedInt (s = '-') (60 * (60 * hours + minutes))))
      else none
    else none
  | _ => none

/-- The timestamp that a text writes. -/
def parse? (s : String) : Option Timestamp := do
  let (t, rest) ← date? s.toList
  if t.day = 0 || daysOf t.year t.month < t.day then none
  match rest with
  | [] => return t
  | c :: cs =>
    if c = 'T' || c = 't' then
      let (t, rest) ← time? t cs
      return { t with zone := ← zone? rest }
    else if c = ' ' then
      let (t, rest) ← time? t (cs.dropWhile (· = ' '))
      if rest.isEmpty then return t else none
    else none

end Timestamp

end Numerals.Document
