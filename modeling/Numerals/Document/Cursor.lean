import Numerals.Document.Problem

/-!
# Cursors

A `Cursor` is what remains of a text together with the place where it starts. Line breaks of
different kinds are made one before reading, except for the separators of lines and paragraphs,
which break lines but stay what they are. A mark of the byte order at the start of a text is
dropped.

Texts are read in blocks. An unreadable character anywhere in a block is a problem as soon as
anything in that block is needed, and no problem before.
-/

namespace Numerals.Document

/-- A place in a text: the number of characters before it, its line and its column. -/
structure Mark where
  index : Nat
  line : Nat
  column : Nat
deriving DecidableEq, Repr, Inhabited

/-- The rest of a text from a place on. `isFresh` says that only blanks have been passed since the
last line break, and `isCut` that more text follows which cannot be read. -/
structure Cursor where
  mark : Mark
  isFresh : Bool
  rest : List Char
  isCut : Bool
deriving Repr, Inhabited

/-- The mark of the byte order. -/
def orderMark : Char := Char.ofNat 0xFEFF

/-- Whether `c` may stand in a document. -/
def isAllowed (c : Char) : Bool :=
  let n := c.toNat
  n == 0x09 || n == 0x0A || n == 0x0D || (0x20 ≤ n && n ≤ 0x7E) || n == 0x85 ||
    (0xA0 ≤ n && n ≤ 0xFFFD) || 0x10000 ≤ n

/-- The size of a block in bytes. -/
def blockSize : Nat := 512

/-- The longest start of `cs` that has at most `room` bytes, and the rest. -/
def splitBlock (room : Nat) : List Char → List Char × List Char
  | [] => ([], [])
  | c :: cs =>
    if c.utf8Size ≤ room then
      let r := splitBlock (room - c.utf8Size) cs
      (c :: r.1, r.2)
    else ([], c :: cs)

/-- The blocks of `cs` up to the first one with an unreadable character, and whether there is such a
block. The first block has `room` bytes; `bound` bounds the number of blocks. -/
def readableFrom (room : Nat) : Nat → List Char → List Char × Bool
  | 0, _ => ([], false)
  | bound + 1, cs =>
    let (block, rest) := splitBlock room cs
    if !block.all isAllowed then ([], true)
    else if rest.isEmpty then (block, false)
    else
      let r := readableFrom blockSize bound rest
      (block ++ r.1, r.2)

/-- The characters with every line break of one line as a line feed. -/
def normalize : List Char → List Char
  | [] => []
  | '\r' :: '\n' :: cs => '\n' :: normalize cs
  | c :: cs => (if c = '\r' || c.toNat = 0x85 then '\n' else c) :: normalize cs

/-- Whether `c` ends a line. -/
def isBreak (c : Char) : Bool :=
  c = '\n' || c.toNat = 0x2028 || c.toNat = 0x2029

/-- Whether `c` is a blank within a line. -/
def isBlank (c : Char) : Bool :=
  c = ' ' || c = '\t'

/-- Whether `c` is a blank or ends a line. -/
def isSpacing (c : Char) : Bool :=
  isBlank c || isBreak c

/-- Whether `c` may stand in names. -/
def isNameChar (c : Char) : Bool :=
  ('0' ≤ c && c ≤ '9') || ('A' ≤ c && c ≤ 'Z') || ('a' ≤ c && c ≤ 'z') || c = '_' || c = '-'

/-- Whether `cs` starts with a blank or a line break, or is at the end. -/
def atSpacing : List Char → Bool
  | [] => true
  | c :: _ => isSpacing c

/-- Whether `cs` starts with a mark made of three times `c`. -/
def atMark (c : Char) : List Char → Bool
  | x :: y :: z :: cs => x = c && y = c && z = c && atSpacing cs
  | _ => false

namespace Cursor

/-- The cursor at the start of a text. -/
def start (s : String) : Cursor :=
  let cs := s.toList
  let marked := cs.head? = some orderMark
  let (room, cs) := if marked then (blockSize - 3, cs.drop 1) else (blockSize, cs)
  let (readable, cut) := readableFrom room (cs.length + 1) cs
  ⟨⟨0, 0, 0⟩, false, normalize readable, cut⟩

/-- The line of the cursor. -/
def line (c : Cursor) : Nat :=
  c.mark.line

/-- The column of the cursor. -/
def column (c : Cursor) : Nat :=
  c.mark.column

/-- Whether the character `x` is next. -/
def isAt (c : Cursor) (x : Char) : Bool :=
  c.rest.head? == some x

/-- The cursor after the next character, which breaks no line. -/
def pass (c : Cursor) : Cursor :=
  { c with
    mark := ⟨c.mark.index + 1, c.mark.line, c.mark.column + 1⟩
    isFresh := c.isFresh && c.rest.head?.any isBlank
    rest := c.rest.tail }

/-- The cursor after the next character, which breaks a line. -/
def passBreak (c : Cursor) : Cursor :=
  { c with
    mark := ⟨c.mark.index + 1, c.mark.line + 1, 0⟩
    isFresh := true
    rest := c.rest.tail }

/-- The cursor after the next `n` characters. -/
def advance (c : Cursor) : Nat → Cursor
  | 0 => c
  | n + 1 =>
    match c.rest with
    | [] => c
    | x :: _ => (if isBreak x then c.passBreak else c.pass).advance n

/-- The characters at the front that satisfy `p`, and the cursor after them. -/
def span (c : Cursor) (p : Char → Bool) : List Char × Cursor :=
  let cs := c.rest.takeWhile p
  (cs, c.advance cs.length)

/-- The cursor after the characters at the front that satisfy `p`. -/
def skip (c : Cursor) (p : Char → Bool) : Cursor :=
  (c.span p).2

/-- The number of blanks and line breaks at the front. -/
def spacing (c : Cursor) : Nat :=
  (c.rest.takeWhile isSpacing).length

/-- The cursor at the end of its line. -/
def toLineEnd (c : Cursor) : Cursor :=
  c.skip fun x => !isBreak x

/-- Whether a line with the mark of a document start or end is next. -/
def atDocumentMark (c : Cursor) : Bool :=
  c.column = 0 && (atMark '-' c.rest || atMark '.' c.rest)

/-- A problem here, within a construct that starts at `context`. -/
def problem (c : Cursor) (d : Defect) (context : Mark) : Problem :=
  ⟨d, context.line, c.line⟩

/-- Makes sure that the next `n` characters can be read, or that the text ends before. -/
def demand (c : Cursor) (n : Nat) : Read Unit :=
  if c.isCut && c.rest.length < n then .error ⟨.controlCharacter, 0, 0⟩ else .ok ()

end Cursor

end Numerals.Document
