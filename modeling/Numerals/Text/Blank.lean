/-!
# Blank characters

The characters with the Unicode property `White_Space`, and the two ways blanks divide a text:
`trim` removes them at both ends, `fields` splits a text at every run of them.
-/

namespace Numerals.Text

/-- Whether `c` has the Unicode property `White_Space`. -/
def isBlank (c : Char) : Bool :=
  let n := c.toNat
  (0x09 ≤ n && n ≤ 0x0D) || n == 0x20 || n == 0x85 || n == 0xA0 || n == 0x1680 ||
    (0x2000 ≤ n && n ≤ 0x200A) || n == 0x2028 || n == 0x2029 || n == 0x202F || n == 0x205F ||
    n == 0x3000

/-- `s` without the blanks at its two ends. -/
def trim (s : String) : String :=
  String.ofList (((s.toList.dropWhile isBlank).reverse.dropWhile isBlank).reverse)

/-- A word put in front of `ws`, unless it is empty. -/
def consWord (w : List Char) (ws : List (List Char)) : List (List Char) :=
  if w.isEmpty then ws else w :: ws

/-- The word that `cs` starts with (empty if `cs` starts with a blank), and the words after it. -/
def wordsFrom (cs : List Char) : List Char × List (List Char) :=
  cs.foldr (fun c r => if isBlank c then ([], consWord r.1 r.2) else (c :: r.1, r.2)) ([], [])

/-- The maximal runs of non-blank characters of `cs`, in order. -/
def words (cs : List Char) : List (List Char) :=
  let r := wordsFrom cs
  consWord r.1 r.2

/-- The maximal runs of non-blank characters of `s`, in order. -/
def fields (s : String) : List String :=
  (words s.toList).map String.ofList

end Numerals.Text
