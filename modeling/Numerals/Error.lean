import Numerals.Fault

/-!
# Errors

An error is a chain: a plain message, a message put before another error, a fault (alone or wrapping
another error), or an error of the settings. Its text joins the messages of the chain; its category
is that of the first fault in the chain. Errors whose outermost layer concerns the settings are
reported in a category of their own.
-/

namespace Numerals

/-- A chain of errors. -/
inductive Error where
  | plain (message : String)
  | context (message : String) (cause : Error)
  | fault (fault : Fault)
  | wrapping (fault : Fault) (cause : Error)
  | settings (cause : Error)
deriving DecidableEq, Repr, Inhabited

namespace Error

/-- The full text of an error. -/
def text : Error → String
  | plain message => message
  | context message cause => message ++ ": " ++ cause.text
  | fault f => f.text
  | wrapping f cause => f.text ++ ": " ++ cause.text
  | settings cause => "rtconfig: " ++ cause.text

/-- The next error in the chain. -/
def cause? : Error → Option Error
  | plain _ | fault _ => none
  | context _ cause | wrapping _ cause | settings cause => some cause

/-- The category of the first fault in the chain; an error without one is internal. -/
def category : Error → Category
  | plain _ => .internal
  | context _ cause | settings cause => cause.category
  | fault f | wrapping f _ => f.category

/-- The category of an outcome; the absence of an error counts as internal too. -/
def categoryOf : Option Error → Category
  | some e => e.category
  | none => .internal

/-- The category under which an error is reported. -/
def reportedCategory : Error → Category
  | settings _ => .settings
  | e => e.category

/-- Whether the outermost layer is a crash. -/
def isCrash : Error → Bool
  | fault f | wrapping f _ => f.isCrash
  | _ => false

/-- Whether the outermost layer is a fault with a category: only such an error can be recovered once
raised. -/
def isClassified : Error → Bool
  | fault f | wrapping f _ => !f.isCrash
  | _ => false

/-- The error as one of the settings. One that already is stays as it is. -/
def ofSettings : Error → Error
  | settings cause => settings cause
  | e => settings e

/-- The line that reports an error. -/
def report (e : Error) : String :=
  "error: " ++ e.reportedCategory.name ++ ": " ++ e.text ++ "\n"

/-- The exit code of a command that ends with this error. -/
def exitCode (e : Error) : Nat :=
  e.reportedCategory.exitCode

end Error

namespace Failure

/-- A recovery point: a raised error is returned from here on if it is classified, and stays raised
otherwise. -/
def recover : Failure Error → Failure Error
  | .raised e => if e.isClassified then .returned e else .raised e
  | .returned e => .returned e

end Failure

end Numerals
