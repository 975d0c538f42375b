/-!
# Paths

Lexical simplification of paths whose parts are divided by slashes.
-/

namespace Numerals.Text

/-- The parts of a path, divided at every slash. -/
def pathParts (s : String) : List (List Char) :=
  s.toList.splitOn '/'

/-- One more part after the parts `kept`, which are in reverse order. A part `..` takes the part
before it away; at the root there is none to take. -/
def addPart (rooted : Bool) (kept : List (List Char)) (part : List Char) : List (List Char) :=
  if part = [] || part = ['.'] then kept
  else if part = ['.', '.'] then
    match kept with
    | [] => if rooted then [] else [part]
    | last :: before => if last = part then part :: kept else before
  else part :: kept

/-- The shortest path that is lexically the same. -/
def cleanPath (s : String) : String :=
  let rooted := s.toList.head? = some '/'
  let kept := ((pathParts s).foldl (addPart rooted) []).reverse
  let body := ['/'].intercalate kept
  if rooted then String.ofList ('/' :: body)
  else if body.isEmpty then "."
  else String.ofList body

/-- The path of `name` in the directory `dir`. -/
def joinPath (dir name : String) : String :=
  cleanPath (dir ++ "/" ++ name)

end Numerals.Text
