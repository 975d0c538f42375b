import Numerals.Settings.Basic

/-!
# Settings in documents

Settings are read from a text with one document, whose settings replace given ones. What a document
is, and which settings it holds, depends on the format of the text. A `Format` says what becomes of
the first document of a text and of what follows it, and nothing else is known of it: it may refuse
a text, for a reason of its own, and it may crash. A text with a second document is refused, and so
are settings that are not valid.
-/

namespace Numerals.Settings

/-- What a format makes of the next document of a text. -/
inductive Reading (α : Type) where
  | document (x : α)
  | nothing
  | refused (reason : String)
  | crashed (e : Error)
deriving DecidableEq, Repr, Inhabited

/-- A format of texts. `first` are the given settings with the changes that the first document of a
text makes, and `second` is the document after it, of which nothing is expected. -/
structure Format where
  first : Settings → String → Reading Settings
  second : String → Reading Unit

/-- Why a text does not give settings, apart from a flaw of theirs. -/
inductive DecodeError where
  | refused (trailing : Bool) (reason : String)
  | trailingDocument
deriving DecidableEq, Repr, Inhabited

namespace DecodeError

/-- What an error says. -/
def message : DecodeError → String
  | refused false reason => "decode yaml: " ++ reason
  | refused true reason => "decode trailing yaml: " ++ reason
  | trailingDocument => "unexpected trailing yaml document"

/-- An error in a text, as an error of the settings. -/
def error (e : DecodeError) : Error :=
  .settings (.plain e.message)

end DecodeError

/-- The document of a reading, if there is one. A crash is raised. -/
def Reading.document? {α : Type} (trailing : Bool) : Reading α → Except (Failure Error) (Option α)
  | document x => .ok (some x)
  | nothing => .ok none
  | refused reason => .error (.returned (DecodeError.refused trailing reason).error)
  | crashed e => .error (.raised e)

/-- The settings `s` with the changes that the one document of a text makes, which must be valid. -/
def decode (s : Settings) (f : Format) (text : String) : Except (Failure Error) Settings := do
  let first ← (f.first s text).document? false
  let second ← (f.second text).document? true
  if second.isSome then .error (.returned DecodeError.trailingDocument.error)
  else (first.getD s).validate.mapError .returned

end Numerals.Settings
