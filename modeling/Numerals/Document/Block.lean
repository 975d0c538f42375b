import Numerals.Document.Cursor
import Numerals.Text.Reading

/-!
# Block scalars

A block scalar is a run of indented lines after an indicator, which is a bar if line breaks are kept
and an angle bracket if they are folded. A sign after the indicator says whether the line breaks at
the end are kept or dropped, and a digit gives the indentation; without a digit the first line that
is not empty shows it.
-/

namespace Numerals.Document

/-- What becomes of the line breaks at the end of a block scalar: all dropped, one kept, or all
kept. -/
inductive Chomping where
  | strip
  | clip
  | keep
deriving DecidableEq, Repr, Inhabited

/-- The chomping that the sign `c` asks for. -/
def Chomping.ofSign? (c : Char) : Option Chomping :=
  if c = '+' then some .keep else if c = '-' then some .strip else none

/-- A sign for the chomping, if it is next. -/
def readChomping (c : Cursor) : Option Chomping × Cursor :=
  match c.rest.head?.bind Chomping.ofSign? with
  | some chomping => (some chomping, c.pass)
  | none => (none, c)

/-- A digit for the indentation, if it is next. -/
def readIncrement (start : Mark) (c : Cursor) : Read (Option Nat × Cursor) :=
  match c.rest with
  | x :: _ =>
    if x = '0' then .error (c.problem .zeroIndentation start)
    else if Text.isDigit 10 x then .ok (some (Text.valueOf 10 [x]), c.pass)
    else .ok (none, c)
  | [] => .ok (none, c)

/-- The sign and the digit after the indicator, in either order. -/
def readHeader (start : Mark) (c : Cursor) : Read (Chomping × Option Nat × Cursor) := do
  let (before, c) := readChomping c
  let (increment, c) ← readIncrement start c
  match before, increment with
  | none, some _ =>
    let (behind, c) := readChomping c
    return (behind.getD .clip, increment, c)
  | _, _ => return (before.getD .clip, increment, c)

/-- The cursor on the next line, after blanks and a comment. -/
def passLineEnd (start : Mark) (c : Cursor) : Read Cursor := do
  let c := c.skip isBlank
  let c := if c.isAt '#' then c.toLineEnd else c
  c.demand 1
  match c.rest with
  | [] => return c
  | x :: _ => if isBreak x then return c.passBreak else .error (c.problem .missingLineEnd start)

/-- Passes empty lines and the indentation of the line after them. Yields the line breaks after
`breaks` in reverse order and the greatest column reached. Without an `indent`, all spaces are
indentation. -/
def readBreaks (start : Mark) (indent : Option Nat) :
    Nat → Nat → List Char → Cursor → Read (List Char × Nat × Cursor)
  | 0, deepest, breaks, c => .ok (breaks, deepest, c)
  | bound + 1, deepest, breaks, c => do
    c.demand 1
    let inIndent := indent.all (c.column < ·)
    match c.rest with
    | [] => .ok (breaks, max deepest c.column, c)
    | x :: _ =>
      if inIndent && x = ' ' then readBreaks start indent bound deepest breaks c.pass
      else if inIndent && x = '\t' then .error (c.problem .tabInBlock start)
      else if isBreak x then
        readBreaks start indent bound (max deepest c.column) (x :: breaks) c.passBreak
      else .ok (breaks, max deepest c.column, c)

/-- What has been read of a block scalar, in reverse order: its text, the line break after it, the
further breaks, and whether the last line starts with a blank. -/
structure BlockText where
  text : List Char
  first : List Char
  further : List Char
  isSpaced : Bool
deriving DecidableEq, Repr, Inhabited

namespace BlockText

/-- The text with the breaks before a line, which may start with a blank. -/
def joined (b : BlockText) (literal spaced : Bool) : List Char :=
  if !literal && !b.isSpaced && !spaced && b.first = ['\n'] then
    if b.further.isEmpty then ' ' :: b.text else b.further ++ b.text
  else b.further ++ b.first ++ b.text

/-- The whole text, with its end treated as `chomping` says. -/
def finish (b : BlockText) : Chomping → List Char
  | .strip => b.text
  | .clip => b.first ++ b.text
  | .keep => b.further ++ b.first ++ b.text

end BlockText

/-- Reads the lines of a block scalar that are indented to the column `indent`. -/
def readLines (start : Mark) (literal : Bool) (indent : Nat) :
    Nat → BlockText → Cursor → Read (BlockText × Cursor)
  | 0, b, c => .ok (b, c)
  | bound + 1, b, c => do
    c.demand 1
    if c.column ≠ indent || c.rest.isEmpty then .ok (b, c)
    else
      let spaced := c.rest.head?.any isBlank
      let (line, c) := c.span fun x => !isBreak x
      c.demand 1
      let (first, c) := match c.rest with
        | x :: _ => ([x], c.passBreak)
        | [] => ([], c)
      let (further, _, c) ← readBreaks start (some indent) (c.spacing + 1) 0 [] c
      readLines start literal indent bound
        ⟨line.reverse ++ b.joined literal spaced, first, further, spaced⟩ c

/-- The block scalar whose indicator is next, and the cursor after it. `outer` is the indentation
around it, if there is any. -/
def readBlock (literal : Bool) (outer : Option Nat) (c : Cursor) : Read (List Char × Cursor) := do
  let start := c.mark
  let (chomping, increment, c) ← readHeader start c.pass
  let c ← passLineEnd start c
  let fixed := increment.map (outer.getD 0 + ·)
  let (breaks, deepest, c) ← readBreaks start fixed (c.spacing + 1) 0 [] c
  let least := match outer with
    | some n => n + 1
    | none => 1
  let indent := fixed.getD (max deepest least)
  let (b, c) ← readLines start literal indent (c.rest.length + 1) ⟨[], [], breaks, false⟩ c
  return ((b.finish chomping).reverse, c)

end Numerals.Document
