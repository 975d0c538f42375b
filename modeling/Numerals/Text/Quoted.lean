import Numerals.Text.Printable

/-!
# Quoted text

Text in messages is written between quotes: printable characters stand for themselves, the quote and
the backslash are escaped, and every other character is written by an escape of its code point. A
text takes double quotes; a single byte is shown as the character of the same number in single
quotes.
-/

namespace Numerals.Text

/-- The character that opens and closes a quoted text. -/
def doubleQuote : Char := Char.ofNat 0x22

/-- The character that opens and closes a quoted byte. -/
def singleQuote : Char := Char.ofNat 0x27

/-- The character that starts an escape. -/
def backslash : Char := Char.ofNat 0x5C

/-- `n` in lower-case hexadecimal, padded with zeros to `width` digits. -/
def hexDigits (width n : Nat) : List Char :=
  let ds := Nat.toDigits 16 n
  List.replicate (width - ds.length) '0' ++ ds

/-- The letter of the short escape of a control character, if it has one. -/
def shortEscape? (c : Char) : Option Char :=
  match c.toNat with
  | 0x07 => some 'a'
  | 0x08 => some 'b'
  | 0x0C => some 'f'
  | 0x0A => some 'n'
  | 0x0D => some 'r'
  | 0x09 => some 't'
  | 0x0B => some 'v'
  | _ => none

/-- The escape of a character that cannot stand for itself. -/
def escapeCode (c : Char) : List Char :=
  match shortEscape? c with
  | some l => [backslash, l]
  | none =>
    if c.toNat < 0x20 || c.toNat == 0x7F then backslash :: 'x' :: hexDigits 2 c.toNat
    else if c.toNat < 0x10000 then backslash :: 'u' :: hexDigits 4 c.toNat
    else backslash :: 'U' :: hexDigits 8 c.toNat

/-- One character as written between quotes `q`. -/
def quoteChar (q c : Char) : List Char :=
  if c = q || c = backslash then [backslash, c]
  else if isPrintable c then [c]
  else escapeCode c

/-- `s` between double quotes. -/
def quote (s : String) : String :=
  String.ofList (doubleQuote :: s.toList.flatMap (quoteChar doubleQuote) ++ [doubleQuote])

/-- The character with the number `b`, between single quotes. -/
def quoteByte (b : UInt8) : String :=
  String.ofList (singleQuote :: quoteChar singleQuote (Char.ofNat b.toNat) ++ [singleQuote])

end Numerals.Text
