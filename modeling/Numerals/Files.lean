/-!
# Files

A directory of text files, each under its path from the directory. Directories in it exist through
the files they hold. A path may go through `.` and `..`; nothing is known of what lies outside.
-/

namespace Numerals

/-- Text files by their paths, whose parts are divided by single slashes. -/
structure Files where
  entries : List (String × String)
deriving DecidableEq, Repr, Inhabited

/-- Why a file cannot be read. -/
inductive FileError where
  | missing (path : String)
  | notDirectory (path : String)
  | isDirectory (path : String)
deriving DecidableEq, Repr, Inhabited

/-- What an error says. -/
def FileError.message : FileError → String
  | missing path => "open " ++ path ++ ": no such file or directory"
  | notDirectory path => "open " ++ path ++ ": not a directory"
  | isDirectory path => "read " ++ path ++ ": is a directory"

namespace Files

/-- What a path leads to. The name of a missing file is there if the file can be created. -/
inductive Target where
  | file (name content : String)
  | directory
  | belowFile
  | missing (name : Option String)
deriving DecidableEq, Repr, Inhabited

/-- The text of the file with the given name. -/
def content? (files : Files) (name : String) : Option String :=
  files.entries.lookup name

/-- Whether there is a directory with the given name. -/
def hasDirectory (files : Files) (name : String) : Bool :=
  files.entries.any fun e => (name ++ "/").isPrefixOf e.1

/-- What `parts` lead to from outside: directories further up, or nothing that is known. -/
def outside (parts : List String) : Target :=
  if parts.all (["", ".", ".."].contains ·) then .directory else .missing none

/-- What `parts` lead to from the directory with the parts `here`, in reverse order. -/
def follow (files : Files) (here : List String) : List String → Target
  | [] => .directory
  | part :: parts =>
    if part = "" || part = "." then follow files here parts
    else if part = ".." then
      match here with
      | [] => outside parts
      | _ :: here => follow files here parts
    else
      let name := "/".intercalate (part :: here).reverse
      match files.content? name with
      | some content => if parts.isEmpty then .file name content else .belowFile
      | none =>
        if files.hasDirectory name then follow files (part :: here) parts
        else .missing (if parts.isEmpty then some name else none)

/-- What a path leads to. -/
def find (files : Files) (path : String) : Target :=
  files.follow [] ((path.toList.splitOn '/').map String.ofList)

/-- The text of the file at a path. -/
def read (files : Files) (path : String) : Except FileError String :=
  match files.find path with
  | .file _ content => .ok content
  | .directory => .error (.isDirectory path)
  | .belowFile => .error (.notDirectory path)
  | .missing _ => .error (.missing path)

/-- The files with the text of the named one replaced. -/
def put (name content : String) : List (String × String) → List (String × String)
  | [] => [(name, content)]
  | e :: es => if e.1 = name then (name, content) :: es else e :: put name content es

/-- The files after a text is written at a path. Where no file can be created nothing changes. -/
def write (files : Files) (path content : String) : Files :=
  match files.find path with
  | .file name _ => ⟨put name content files.entries⟩
  | .missing (some name) => ⟨put name content files.entries⟩
  | _ => files

/-- The entries of `after` that `before` does not have. -/
def changes (before after : Files) : List (String × String) :=
  after.entries.filter fun e => before.content? e.1 ≠ some e.2

end Files

end Numerals
