/-!
# Texts as bytes

A text is written as bytes in UTF-8. Bytes that are not the encoding of a text can still be read as
one: each byte that belongs to no encoded character gives the replacement character. Base-64 is a
way to write bytes as letters, digits and two signs, four for three bytes.
-/

namespace Numerals.Text

/-- The character that stands for a byte that is no part of an encoded character. -/
def replacement : Char := Char.ofNat 0xFFFD

/-- The bits that a byte adds to the character it continues. -/
def continuation? (b : UInt8) : Option Nat :=
  if 0x80 ≤ b && b ≤ 0xBF then some (b.toNat - 0x80) else none

/-- The character with the number `n`, if it needs no fewer than `width` bytes. -/
def charOfWidth? (width n : Nat) : Option Char :=
  if h : n.isValidChar then
    let c := Char.ofNatAux n h
    if c.utf8Size = width then some c else none
  else none

/-- The character that `bs` starts with and the number of its bytes. -/
def firstChar? (bs : List UInt8) : Option (Char × Nat) := do
  let b ← bs.head?
  if b < 0x80 then return (Char.ofNat b.toNat, 1)
  let x ← continuation? (← bs[1]?)
  if b < 0xE0 then return (← charOfWidth? 2 ((b.toNat - 0xC0) * 64 + x), 2)
  let y ← continuation? (← bs[2]?)
  if b < 0xF0 then return (← charOfWidth? 3 (((b.toNat - 0xE0) * 64 + x) * 64 + y), 3)
  let z ← continuation? (← bs[3]?)
  return (← charOfWidth? 4 ((((b.toNat - 0xF0) * 64 + x) * 64 + y) * 64 + z), 4)

/-- The characters that `bs` encodes, of which the first `skip` bytes are already read. -/
def decodeFrom : Nat → List UInt8 → List Char
  | _, [] => []
  | skip + 1, _ :: bs => decodeFrom skip bs
  | 0, b :: bs =>
    match firstChar? (b :: bs) with
    | some (c, width) => c :: decodeFrom (width - 1) bs
    | none => replacement :: decodeFrom 0 bs

/-- The text that bytes encode. -/
def ofBytes (bs : List UInt8) : String :=
  String.ofList (decodeFrom 0 bs)

/-- The value of a character of base-64. -/
def base64Value? (c : Char) : Option Nat :=
  if 'A' ≤ c ∧ c ≤ 'Z' then some (c.toNat - 65)
  else if 'a' ≤ c ∧ c ≤ 'z' then some (c.toNat - 71)
  else if '0' ≤ c ∧ c ≤ '9' then some (c.toNat + 4)
  else if c = '+' then some 62
  else if c = '/' then some 63
  else none

/-- The bytes of a group of four characters. Only the last group may be padded. -/
def base64Group? (last : Bool) (a b c d : Char) : Option (List UInt8) := do
  let n := (← base64Value? a) * 64 + (← base64Value? b)
  if last && c = '=' && d = '=' then return [(n / 16).toUInt8]
  let n := n * 64 + (← base64Value? c)
  if last && d = '=' then return [(n / 1024).toUInt8, (n / 4).toUInt8]
  let n := n * 64 + (← base64Value? d)
  return [(n / 65536).toUInt8, (n / 256).toUInt8, n.toUInt8]

/-- The bytes of a list of whole groups. -/
def base64Groups? : List Char → Option (List UInt8)
  | [] => some []
  | a :: b :: c :: d :: cs => do
    let bytes ← base64Group? cs.isEmpty a b c d
    return bytes ++ (← base64Groups? cs)
  | _ => none

/-- The bytes that a text writes in base-64. Line breaks are passed over. -/
def base64? (s : String) : Option (List UInt8) :=
  base64Groups? (s.toList.filter fun c => c ≠ '\n' && c ≠ '\r')

end Numerals.Text
