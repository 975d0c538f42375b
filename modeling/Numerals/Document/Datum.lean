import Numerals.Document.Scalar
import Numerals.Layout.Display

/-!
# Data

A `Datum` is what a node means when nothing particular is expected of it. Tables whose keys are all
texts are told apart from others.
-/

namespace Numerals.Document

/-- What a node means. -/
inductive Datum where
  | null
  | truth (value : Bool)
  | integer (value : Int)
  | float (value : Binary64)
  | timestamp (value : Timestamp)
  | text (value : String)
  | list (items : List Datum)
  | table (named : Bool) (entries : List (Datum × Datum))
deriving Repr, Inhabited

namespace Datum

/-- What a scalar with a given text means. -/
def ofMeaning (s : String) : Meaning → Datum
  | .null => null
  | .truth b => truth b
  | .integer n => integer n
  | .float x => float x
  | .timestamp t => timestamp t
  | .text => text s

/-- Whether two data are the same as keys. Numbers are the same if they are of one kind and equal,
and lists and tables never are. -/
def same : Datum → Datum → Bool
  | null, null => true
  | truth a, truth b => a == b
  | integer a, integer b => a == b
  | float a, float b => !a.isNaN && (a == b || (a.isZero && b.isZero))
  | timestamp a, timestamp b => a == b
  | text a, text b => a == b
  | _, _ => false

/-- The type of a list or a table, for messages. -/
def collection? : Datum → Option String
  | list _ => some "[]interface \x7b\x7d"
  | table true _ => some "map[string]interface \x7b\x7d"
  | table false _ => some "map[interface \x7b\x7d]interface \x7b\x7d"
  | _ => none

/-- The place of a datum among keys of different kinds. -/
def rank : Datum → Nat
  | null => 0
  | integer _ => 1
  | float _ => 2
  | text _ => 3
  | truth _ => 4
  | _ => 5

/-- Whether a key is listed before another one at the latest. -/
def listedBefore (a b : Datum) : Bool :=
  match a, b with
  | integer a, integer b => a ≤ b
  | text a, text b => !(b < a)
  | _, _ => a.rank ≤ b.rank

/-- The names of the months. -/
def months : List String :=
  ["January", "February", "March", "April", "May", "June", "July", "August", "September",
    "October", "November", "December"]

/-- A timestamp as it is shown in messages. -/
def showTimestamp (t : Timestamp) : String :=
  let zone := match t.zone with
    | none => "time.UTC"
    | some 0 => "time.Local"
    | some _ => "time.Location(\"\")"
  "time.Date(" ++ ", ".intercalate
    [Text.decimal t.year, "time." ++ (months[t.month - 1]?).getD "", Text.decimal t.day,
      Text.decimal t.hour, Text.decimal t.minute, Text.decimal t.second,
      Text.decimal t.nanosecond, zone] ++ ")"

/-- A scalar as it is shown in messages. -/
def showScalar : Datum → String
  | truth b => if b then "true" else "false"
  | integer n =>
    if Text.isInt64 n then Text.decimal n
    else "0x" ++ String.ofList (Text.hexDigits 1 n.toNat)
  | float x => x.display
  | timestamp t => showTimestamp t
  | text s => Text.quote s
  | _ => "interface \x7b\x7d(nil)"

mutual

/-- A datum as it is shown in messages. -/
def shown : Datum → String
  | list items =>
    "[]interface \x7b\x7d\x7b" ++ ", ".intercalate (shownItems items) ++ "\x7d"
  | table named entries =>
    let ordered := (shownEntries entries).mergeSort fun a b => a.1.listedBefore b.1
    ((table named []).collection?).getD "" ++ "\x7b" ++
      ", ".intercalate (ordered.map Prod.snd) ++ "\x7d"
  | d => d.showScalar

/-- Data as they are shown in messages. -/
def shownItems : List Datum → List String
  | [] => []
  | d :: ds => d.shown :: shownItems ds

/-- Entries as they are shown in messages, each with its key. -/
def shownEntries : List (Datum × Datum) → List (Datum × String)
  | [] => []
  | (k, v) :: es => (k, k.shown ++ ":" ++ v.shown) :: shownEntries es

end

/-- The entries of a table with a new one, which replaces one with the same key. -/
def put (key value : Datum) : List (Datum × Datum) → List (Datum × Datum)
  | [] => [(key, value)]
  | (k, v) :: es => if k.same key then (k, value) :: es else (k, v) :: put key value es

end Datum

end Numerals.Document
