/-!
# Letter case

Names made of ASCII letters are recognised in any letter case. Besides the capitals two further
characters fold onto an ASCII letter: the long s onto `s` and the Kelvin sign onto `k`.
-/

namespace Numerals.Text

/-- The ASCII small letter that `c` folds onto, or `c` itself if there is none. -/
def foldCase (c : Char) : Char :=
  if 'A' ≤ c ∧ c ≤ 'Z' then Char.ofNat (c.toNat + 32)
  else if c.toNat = 0x017F then 's'
  else if c.toNat = 0x212A then 'k'
  else c

/-- Whether `s` spells `name`, a text of ASCII small letters, in some letter case. -/
def spells (name s : String) : Bool :=
  s.toList.map foldCase == name.toList

end Numerals.Text
