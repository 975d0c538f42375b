import Numerals.Fault
import Numerals.Text.Folding

/-!
# Styles

The four styles in which digits are written, by number and by name. Names are recognised in any
letter case. A number without a style is kept, so that it can be refused where it is used.
-/

namespace Numerals

/-- A style of writing numbers. -/
inductive Style where
  | general
  | fixed
  | scientific
  | ecma
  | other (number : Int)
deriving DecidableEq, Repr, Inhabited

namespace Style

/-- The styles with a name, in the order of their numbers. -/
def named : List Style := [general, fixed, scientific, ecma]

/-- The style with the given number. -/
def ofInt (n : Int) : Style :=
  if n < 0 then other n else named.getD n.toNat (other n)

/-- The number of a style. -/
def toInt : Style → Int
  | general => 0
  | fixed => 1
  | scientific => 2
  | ecma => 3
  | other n => n

/-- The name of a style. -/
def name : Style → String
  | general => "general"
  | fixed => "fixed"
  | scientific => "scientific"
  | ecma => "ecma"
  | other n => "Style(" ++ Text.decimal n ++ ")"

/-- The style that `s` names. -/
def ofName? (s : String) : Option Style :=
  named.find? fun t => Text.spells t.name s

/-- The style that `s` must name. -/
def ofName (s : String) : Result Style :=
  match ofName? s with
  | some t => .ok t
  | none => Result.refuse (.unknownStyleName s)

end Style

/-- How a number is written. A negative precision asks for all generated digits and no more. -/
structure Options where
  style : Style
  precision : Int
deriving DecidableEq, Repr, Inhabited

/-- The general style with the shortest digits. -/
def Options.default : Options := ⟨.general, -1⟩

end Numerals
