import Numerals.Command.Streams

/-!
# History of sessions

The editor of lines. It reads lines in pieces, and its history are the lines that it remembers, one
a line of a text. At most a thousand entries are kept, the last ones, and a line is not remembered
again right after itself. Reading a history stops at a line that is too long.
-/

namespace Numerals.Command

/-- The number of entries that are kept. -/
def historyLimit : Nat := 1000

/-- Lines are read in pieces of this size in bytes. -/
def lineBuffer : Nat := 4096

/-- Puts `c` in front of the first line. -/
def consChar (c : Char) : List (List Char) → List (List Char)
  | [] => [[c]]
  | line :: lines => (c :: line) :: lines

/-- The lines of a text with their line feeds, which only the last line may lack. -/
def splitLines (cs : List Char) : List (List Char) :=
  cs.foldr (fun c lines => if c = '\n' then ['\n'] :: lines else consChar c lines) []

/-- The size of a line in bytes. -/
def byteSize (cs : List Char) : Nat :=
  cs.foldl (fun n c => n + c.utf8Size) 0

/-- A line without the line feed at its end and the carriage return before that. -/
def dropLineEnd (cs : List Char) : List Char :=
  if cs.getLast? ≠ some '\n' then cs
  else if cs.dropLast.getLast? = some '\r' then cs.dropLast.dropLast
  else cs.dropLast

/-- The pieces of a line: each is filled until the next character exceeds its size. A carriage
return is never the last character that fits. `room` is what is left in the current piece. -/
def piecesFrom (room : Nat) : List Char → List (List Char)
  | [] => [[]]
  | c :: cs =>
    if c.utf8Size < room || (c.utf8Size = room && c ≠ '\r') then
      consChar c (piecesFrom (room - c.utf8Size) cs)
    else [] :: consChar c (piecesFrom (lineBuffer - c.utf8Size) cs)

/-- The lines that a session receives from a text. -/
def inputLines (s : String) : List String :=
  (splitLines s.toList).flatMap fun line =>
    (piecesFrom lineBuffer line).map fun p => String.ofList (dropLineEnd p)

/-- The last entries of a history. -/
def keepLast (entries : List String) : List String :=
  entries.drop (entries.length - historyLimit)

/-- The history in a text. -/
def readHistory (s : String) : List String :=
  let fits (line : List Char) : Bool := byteSize (line.takeWhile (· ≠ '\n')) < lineBuffer
  keepLast (((splitLines s.toList).takeWhile fits).map fun l => String.ofList (dropLineEnd l))

/-- The history with one more entry. -/
def remember (entries : List String) (line : String) : List String :=
  if entries.getLast? = some line then entries else keepLast (entries ++ [line])

/-- The text of a history. -/
def historyText (entries : List String) : String :=
  String.join (entries.map (· ++ "\n"))

/-- The editor of lines. -/
def lineEditor : LineEditor where
  lines := inputLines
  history kept entered := historyText (entered.foldl remember ((kept.map readHistory).getD []))

end Numerals.Command
