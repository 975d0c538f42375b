import Numerals.Document.Cursor
import Numerals.Text.Quoted
import Numerals.Text.Reading

/-!
# Plain and quoted scalars

Scalars of one or more lines consist of words with gaps between them. A gap within a line stays as
it is. In a gap with line breaks the blanks are dropped; a single line feed becomes a space, and of
several breaks the first is dropped if it is a line feed. A line break after a backslash in double
quotes is dropped too, with the blanks after it.
-/

namespace Numerals.Document

/-- The white space between two words. Lists are in reverse order; `first` is empty if the first
line break is escaped. -/
structure Gap where
  blanks : List Char
  isBroken : Bool
  first : List Char
  further : List Char
deriving DecidableEq, Repr, Inhabited

namespace Gap

/-- No white space. -/
def empty : Gap := ⟨[], false, [], []⟩

/-- An escaped line break. -/
def escaped : Gap := ⟨[], true, [], []⟩

/-- A gap with one more blank or line break. -/
def add (g : Gap) (c : Char) : Gap :=
  if isBreak c then
    if g.isBroken then { g with further := c :: g.further }
    else { g with blanks := [], isBroken := true, first := [c] }
  else if g.isBroken then g
  else { g with blanks := c :: g.blanks }

/-- What a gap contributes to a scalar, in reverse order. -/
def contribution (g : Gap) : List Char :=
  if !g.isBroken then g.blanks
  else if g.first ≠ ['\n'] then g.further ++ g.first
  else if g.further.isEmpty then [' ']
  else g.further

end Gap

namespace Cursor

/-- The cursor after a blank or a line break. -/
def passSpacing (c : Cursor) : Cursor :=
  if c.rest.head?.any isBreak then c.passBreak else c.pass

/-- The gap that starts with `gap`, and the cursor after it. -/
def gapFrom : Nat → Gap → Cursor → Gap × Cursor
  | 0, gap, c => (gap, c)
  | bound + 1, gap, c =>
    match c.rest with
    | [] => (gap, c)
    | x :: _ => if isSpacing x then gapFrom bound (gap.add x) c.passSpacing else (gap, c)

/-- The gap that goes on with what is next, and the cursor after it. -/
def gap (c : Cursor) (g : Gap) : Gap × Cursor :=
  gapFrom c.spacing g c

end Cursor

/-- The character that a backslash and `c` stand for. -/
def unescape? (c : Char) : Option Char :=
  if c = Text.doubleQuote || c = Text.singleQuote || c = Text.backslash then some c
  else
    match c with
    | '0' => some (Char.ofNat 0x00)
    | 'a' => some (Char.ofNat 0x07)
    | 'b' => some (Char.ofNat 0x08)
    | 't' | '\t' => some '\t'
    | 'n' => some '\n'
    | 'v' => some (Char.ofNat 0x0B)
    | 'f' => some (Char.ofNat 0x0C)
    | 'r' => some '\r'
    | 'e' => some (Char.ofNat 0x1B)
    | ' ' => some ' '
    | 'N' => some (Char.ofNat 0x85)
    | '_' => some (Char.ofNat 0xA0)
    | 'L' => some (Char.ofNat 0x2028)
    | 'P' => some (Char.ofNat 0x2029)
    | _ => none

/-- The number of hexadecimal digits after a backslash and `c`. -/
def escapeWidth? (c : Char) : Option Nat :=
  match c with
  | 'x' => some 2
  | 'u' => some 4
  | 'U' => some 8
  | _ => none

/-- The character of an escape whose digits come next. -/
def readCode (start : Mark) (width : Nat) (c : Cursor) : Read (Char × Cursor) := do
  c.demand width
  let digits := c.rest.take width
  if digits.length < width || !digits.all (Text.isDigit 16) then
    .error (c.problem .shortEscape start)
  else
    let n := Text.valueOf 16 digits
    if (0xD800 ≤ n && n ≤ 0xDFFF) || 0x10FFFF < n then .error (c.problem .escapedSurrogate start)
    else .ok (Char.ofNat n, c.advance width)

/-- The character of the escape that is next. -/
def readEscape (start : Mark) (c : Cursor) : Read (Char × Cursor) :=
  match c.rest[1]? with
  | none => .error (c.problem .unknownEscape start)
  | some e =>
    match unescape? e, escapeWidth? e with
    | some x, _ => .ok (x, c.advance 2)
    | none, some width => readCode start width (c.advance 2)
    | none, none => .error (c.problem .unknownEscape start)

/-- Reads a scalar in quotes `quote` up to its closing quote. `acc` holds the characters read in
reverse order. -/
def quotedFrom (quote : Char) (start : Mark) : Nat → List Char → Cursor → Read (List Char × Cursor)
  | 0, _, c => .error (c.problem .unclosedQuote start)
  | bound + 1, acc, c => do
    c.demand 2
    if c.atDocumentMark then .error (c.problem .markInQuote start)
    match c.rest with
    | [] => .error (c.problem .unclosedQuote start)
    | x :: xs =>
      if isSpacing x then
        let (gap, c) := c.gap .empty
        quotedFrom quote start bound (gap.contribution ++ acc) c
      else if x = quote then
        if quote = Text.singleQuote && xs.head? = some quote then
          quotedFrom quote start bound (x :: acc) (c.advance 2)
        else .ok (acc.reverse, c.pass)
      else if quote = Text.doubleQuote && x = Text.backslash then
        if xs.head?.any isBreak then
          let (gap, c) := (c.advance 2).gap .escaped
          quotedFrom quote start bound (gap.contribution ++ acc) c
        else
          let (x, c) ← readEscape start c
          quotedFrom quote start bound (x :: acc) c
      else quotedFrom quote start bound (x :: acc) c.pass

/-- The quoted scalar that is next, and the cursor after its closing quote. -/
def readQuoted (quote : Char) (c : Cursor) : Read (List Char × Cursor) :=
  quotedFrom quote c.mark (c.rest.length + 1) [] c.pass

/-- Whether a plain scalar ends before `c`, which is followed by `next`. -/
def endsPlain (flow : Bool) (c : Char) (next : List Char) : Bool :=
  (c = ':' && atSpacing next) || (flow && [',', '?', '[', ']', '\x7b', '\x7d'].contains c)

/-- The start of `cs` that belongs to one word of a plain scalar. -/
def plainWord (flow : Bool) : List Char → List Char
  | [] => []
  | c :: cs => if isSpacing c || endsPlain flow c cs then [] else c :: plainWord flow cs

/-- The gap after a word of a plain scalar. A tab before the column `indent` of a further line is a
problem. -/
def plainGap (indent : Nat) (start : Mark) : Nat → Gap → Cursor → Read (Gap × Cursor)
  | 0, gap, c => .ok (gap, c)
  | bound + 1, gap, c =>
    match c.rest with
    | [] => .ok (gap, c)
    | x :: _ =>
      if !isSpacing x then .ok (gap, c)
      else if gap.isBroken && c.column < indent && x = '\t' then
        .error (c.problem .tabIndentation start)
      else plainGap indent start bound (gap.add x) c.passSpacing

/-- Reads a plain scalar. `acc` holds the characters read in reverse order and `gap` the white space
after them. Outside of brackets and braces, further lines need the column `indent`. The last result
says whether a line break stands behind the scalar. -/
def plainFrom (flow : Bool) (indent : Nat) (start : Mark) :
    Nat → List Char → Gap → Cursor → Read (List Char × Cursor × Bool)
  | 0, acc, gap, c => .ok (acc.reverse, c, gap.isBroken)
  | bound + 1, acc, gap, c => do
    c.demand 4
    if c.atDocumentMark || c.isAt '#' then .ok (acc.reverse, c, gap.isBroken)
    else
      match plainWord flow c.rest with
      | [] => .ok (acc.reverse, c, gap.isBroken)
      | x :: xs =>
        let word := x :: xs
        let acc := word.reverse ++ gap.contribution ++ acc
        let c := c.advance word.length
        let (gap, c) ← plainGap indent start c.spacing .empty c
        if gap = .empty || (!flow && c.column < indent) then .ok (acc.reverse, c, gap.isBroken)
        else plainFrom flow indent start bound acc gap c

/-- The plain scalar that is next, the cursor after it and the gap behind it, and whether that gap
has a line break. -/
def readPlain (flow : Bool) (indent : Nat) (c : Cursor) : Read (List Char × Cursor × Bool) :=
  plainFrom flow indent c.mark (c.rest.length + 1) [] .empty c

end Numerals.Document
