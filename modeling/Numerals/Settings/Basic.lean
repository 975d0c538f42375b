import Numerals.Error
import Numerals.Layout.Style
import Numerals.Text.Path

/-!
# Settings

The settings of the commands: the style by its name, the precision, the radix and the file that
keeps the lines of interactive sessions. `validate` accepts them if numbers can be written with
them.
-/

namespace Numerals

/-- The settings of the commands. -/
structure Settings where
  style : String
  precision : Int
  radix : Int
  history : String
deriving DecidableEq, Repr, Inhabited

namespace Settings

/-- The greatest number of digits that may be asked for. -/
def maxPrecision : Int := 1100

/-- The settings where nothing else is given. Lines of sessions are kept in the directory `home`,
unless it is empty. -/
def default (home : String) : Settings where
  style := Style.general.name
  precision := Options.default.precision
  radix := 10
  history := if home.isEmpty then "" else Text.joinPath home ".lazynum_history"

/-- Why settings are not valid. -/
inductive Flaw where
  | style (name : String)
  | precision (value : Int)
  | radix (value : Int)
  | ecmaRadix (value : Int)
deriving DecidableEq, Repr, Inhabited

namespace Flaw

open Text in
/-- What a flaw says. -/
def message : Flaw → String
  | style name => "style " ++ quote name ++ " is not one of general, fixed, scientific, ecma"
  | precision value => "precision " ++ decimal value ++ " out of range [-1, 1100]"
  | radix value => "radix " ++ decimal value ++ " out of range [2, 36]"
  | ecmaRadix value => "ecma style needs radix 10, got " ++ decimal value

/-- A flaw as an error of the settings. -/
def error (f : Flaw) : Error :=
  .settings (.plain f.message)

end Flaw

/-- The first flaw of the settings, in the order style, precision, radix, and the radix of the ECMA
style. -/
def flaw? (s : Settings) : Option Flaw :=
  match Style.ofName? s.style with
  | none => some (.style s.style)
  | some style =>
    if s.precision < -1 || maxPrecision < s.precision then some (.precision s.precision)
    else if s.radix < 2 || 36 < s.radix then some (.radix s.radix)
    else if style = .ecma && s.radix ≠ 10 then some (.ecmaRadix s.radix)
    else none

/-- Accepts settings without flaw. -/
def validate (s : Settings) : Except Error Settings :=
  match s.flaw? with
  | some f => .error f.error
  | none => .ok s

/-- How numbers are written. A style without a known name counts as general. -/
def options (s : Settings) : Options :=
  ⟨(Style.ofName? s.style).getD .general, s.precision⟩

end Settings

end Numerals
