import Numerals.Document.Block
import Numerals.Document.Token
import Numerals.Text.Bytes
import Numerals.Text.Quoted

/-!
# Anchors, tags and directives

A node may be preceded by an anchor, which gives it a name for later references, and by a tag, which
says what kind of node it is. A tag is written in full between angle brackets, or as a handle and a
suffix. A directive is a line before a document that gives the version of the format or the
expansion of a handle.
-/

namespace Numerals.Document

/-- The name of an anchor or a reference after its indicator, and the cursor after it. -/
def readName (c : Cursor) : Read (String × Cursor) := do
  let start := c.mark
  let (name, c) := c.pass.span isNameChar
  c.demand 1
  let ends := match c.rest with
    | [] => true
    | x :: _ => isSpacing x || ['?', ':', ',', ']', '\x7d', '%', '@'].contains x || x.toNat = 0x60
  if name.isEmpty || !ends then .error (c.problem .missingName start)
  else return (String.ofList name, c)

/-- Whether `c` may stand in the address of a tag. -/
def isUriChar (c : Char) : Bool :=
  isNameChar c || c = Text.singleQuote ||
    [';', '/', '?', ':', '@', '&', '=', '+', '$', ',', '.', '%', '!', '~', '*', '(', ')', '[',
      ']'].contains c

/-- The number of bytes of a character whose first byte is `b`. -/
def encodedWidth? (b : UInt8) : Option Nat :=
  if b < 0x80 then some 1
  else if 0xC0 ≤ b && b < 0xE0 then some 2
  else if 0xE0 ≤ b && b < 0xF0 then some 3
  else if 0xF0 ≤ b && b < 0xF8 then some 4
  else none

/-- The byte that a percent sign and two hexadecimal digits write. -/
def readByte (start : Mark) (c : Cursor) : Read (UInt8 × Cursor) := do
  c.demand 3
  match c.rest with
  | '%' :: a :: b :: _ =>
    if Text.isDigit 16 a && Text.isDigit 16 b then
      return ((Text.valueOf 16 [a, b]).toUInt8, c.advance 3)
    else .error (c.problem .oddUriEscape start)
  | _ => .error (c.problem .oddUriEscape start)

/-- The `n` further bytes of a character. -/
def readTrailing (start : Mark) : Nat → Cursor → Read (List UInt8 × Cursor)
  | 0, c => return ([], c)
  | n + 1, c => do
    let (b, after) ← readByte start c
    if b < 0x80 || 0xC0 ≤ b then .error (c.problem .oddTrailingByte start)
    let (bs, rest) ← readTrailing start n after
    return (b :: bs, rest)

/-- The bytes of the character that escapes write. -/
def readEncoded (start : Mark) (c : Cursor) : Read (List UInt8 × Cursor) := do
  let (b, after) ← readByte start c
  match encodedWidth? b with
  | none => .error (c.problem .oddLeadingByte start)
  | some width =>
    let (bs, rest) ← readTrailing start (width - 1) after
    return (b :: bs, rest)

/-- The bytes of an address from the cursor on. -/
def uriFrom (start : Mark) : Nat → Cursor → Read (List UInt8 × Cursor)
  | 0, c => return ([], c)
  | bound + 1, c => do
    c.demand 1
    match c.rest with
    | [] => return ([], c)
    | x :: _ =>
      if x = '%' then
        let (bs, c) ← readEncoded start c
        let (further, c) ← uriFrom start bound c
        return (bs ++ further, c)
      else if isUriChar x then
        let (further, c) ← uriFrom start bound c.pass
        return (x.toNat.toUInt8 :: further, c)
      else return ([], c)

/-- The address that starts with `before`, which is not empty if `isBegun`. -/
def readUri (start : Mark) (isBegun : Bool) (before : List Char) (c : Cursor) :
    Read (String × Cursor) := do
  let (bytes, after) ← uriFrom start (c.rest.length + 1) c
  if !isBegun && after.mark = c.mark then .error (after.problem .missingUri start)
  else return (Text.ofBytes (before.map (·.toNat.toUInt8) ++ bytes), after)

/-- A handle: an exclamation mark, a name, and possibly a second exclamation mark. -/
def readHandle (start : Mark) (c : Cursor) : Read (List Char × Cursor) := do
  c.demand 1
  if !c.isAt '!' then .error (c.problem .missingBang start)
  let (name, c) := c.pass.span isNameChar
  c.demand 1
  if c.isAt '!' then return ('!' :: name ++ ['!'], c.pass) else return ('!' :: name, c)

/-- The handle and the suffix of a tag. A tag in full has no handle, and neither has the tag that is
an exclamation mark only. -/
def readTagParts (c : Cursor) : Read (String × String × Cursor) := do
  let start := c.mark
  c.demand 2
  if c.rest[1]? = some '<' then
    let (suffix, c) ← readUri start false [] (c.advance 2)
    c.demand 1
    if c.isAt '>' then return ("", suffix, c.pass) else .error (c.problem .missingUriEnd start)
  else
    let (handle, c) ← readHandle start c
    if 1 < handle.length && handle.getLast? = some '!' then
      let (suffix, c) ← readUri start false [] c
      return (String.ofList handle, suffix, c)
    else
      let (suffix, c) ← readUri start true handle.tail c
      if suffix.isEmpty then return ("", String.ofList handle, c) else return ("!", suffix, c)

/-- The tag that is next, and the cursor after it. -/
def readTag (c : Cursor) : Read (Symbol × Cursor) := do
  let (handle, suffix, after) ← readTagParts c
  after.demand 1
  if atSpacing after.rest then return (.tag handle suffix, after)
  else .error (after.problem .missingBlankOrLineEnd c.mark)

/-- A number of a version, which has at most two digits. -/
def readVersionNumber (start : Mark) (c : Cursor) : Read (Nat × Cursor) := do
  let (digits, after) := c.span (Text.isDigit 10)
  if 2 < digits.length then .error ((c.advance 2).problem .longVersion start)
  after.demand 1
  if digits.isEmpty then .error (c.problem .missingVersion start)
  else return (Text.valueOf 10 digits, after)

/-- The version in a directive. -/
def readVersion (start : Mark) (c : Cursor) : Read (Symbol × Cursor) := do
  let (major, c) ← readVersionNumber start (c.skip isBlank)
  if !c.isAt '.' then .error (c.problem .missingPoint start)
  let (minor, c) ← readVersionNumber start c.pass
  return (.version major minor, c)

/-- The handle in a directive and its expansion. -/
def readExpansion (start : Mark) (c : Cursor) : Read (Symbol × Cursor) := do
  let (handle, c) ← readHandle start (c.skip isBlank)
  if 1 < handle.length && handle.getLast? ≠ some '!' then .error (c.problem .missingBang start)
  if !c.rest.head?.any isBlank then .error (c.problem .missingBlank start)
  let (expansion, c) ← readUri start false [] (c.skip isBlank)
  c.demand 1
  if atSpacing c.rest then return (.handle (String.ofList handle) expansion, c)
  else .error (c.problem .missingBlankOrLineEnd start)

/-- The directive that is next, and the cursor on the line after it. -/
def readDirective (c : Cursor) : Read (Symbol × Cursor) := do
  let start := c.mark
  let (name, c) := c.pass.span isNameChar
  c.demand 1
  if name.isEmpty then .error (c.problem .missingDirective start)
  if !atSpacing c.rest then .error (c.problem .oddDirective start)
  let (symbol, c) ←
    if name = "YAML".toList then readVersion start c
    else if name = "TAG".toList then readExpansion start c
    else .error (c.problem .unknownDirective start)
  return (symbol, ← passLineEnd start c)

end Numerals.Document
