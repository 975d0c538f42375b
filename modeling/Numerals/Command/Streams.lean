import Numerals.Files
import Numerals.Settings.Decode

/-!
# Streams

A command sees its surroundings: the home directory, the standard input and the texts of files. To
them belong the format of files with settings, and the editor of lines that sessions use, of both of
which commands know no more than what they get from them. A command writes on two output streams and
may ask for texts to be saved in files. An output stream may accept a limited number of writes only;
a further write fails and leaves nothing in the stream.

A command is a computation that yields an exit code. A fault that is raised in it and not recovered
ends it without one.
-/

namespace Numerals.Command

/-- The exit code after success. -/
def exitSuccess : Nat := 0

/-- The exit code after invalid input. -/
def exitInvalid : Nat := 2

/-- The exit code after an internal failure. -/
def exitInternal : Nat := 10

/-- An output stream: what is written on it, and how many further writes it accepts, if there is a
limit. -/
structure Stream where
  text : String
  room : Option Nat
deriving DecidableEq, Repr, Inhabited

/-- A stream without limit. -/
def Stream.empty : Stream := ⟨"", none⟩

/-- The stream after a write, unless the write fails. -/
def Stream.write (s : Stream) (t : String) : Option Stream :=
  match s.room with
  | none => some ⟨s.text ++ t, none⟩
  | some 0 => none
  | some (n + 1) => some ⟨s.text ++ t, some n⟩

/-- The standard input: a text, or only failing reads. -/
structure Input where
  text : String
  isBroken : Bool
deriving DecidableEq, Repr, Inhabited

/-- An editor of lines: `lines` are those that it hands out of an input, one after the other, and
`history` is the text that it keeps of the lines that were entered, after the text that it kept
before, if there is one. -/
structure LineEditor where
  lines : String → List String
  history : Option String → List String → String

/-- What a command sees. -/
structure Surroundings where
  home : String
  input : Input
  read : String → Except FileError String
  format : Settings.Format
  editor : LineEditor

/-- What a command leaves: its two output streams, and the texts to be saved with their paths. -/
structure Traces where
  out : Stream
  err : Stream
  saved : List (String × String)
deriving DecidableEq, Repr, Inhabited

/-- No traces, on streams without limit. -/
def Traces.empty : Traces := ⟨.empty, .empty, []⟩

/-- A computation of a command. Its exceptions are the errors raised in it. -/
abbrev Run (α : Type) := ExceptT Error (StateM Traces) α

/-- The outcome of a computation on given traces, and the traces after it. -/
def Run.outcome {α : Type} (r : Run α) (t : Traces) : Except Error α × Traces :=
  StateT.run (ExceptT.run r) t

/-- Writes on the standard output, and says whether the write succeeded. -/
def writeOut (t : String) : Run Bool := do
  match (← get).out.write t with
  | some s => modify fun t => { t with out := s }; return true
  | none => return false

/-- Writes on the standard error output, and says whether the write succeeded. -/
def writeErr (t : String) : Run Bool := do
  match (← get).err.write t with
  | some s => modify fun t => { t with err := s }; return true
  | none => return false

/-- Ends with a message. If it cannot be written, that is an internal failure. -/
def fail (code : Nat) (message : String) : Run Nat := do
  if ← writeErr message then return code else return exitInternal

/-- Ends with the report of an error. -/
def report (e : Error) : Run Nat :=
  fail e.exitCode e.report

/-- Ends with a failure: a returned error is reported, and a raised one stays raised. -/
def conclude : Failure Error → Run Nat
  | .returned e => report e
  | .raised e => throw e

/-- Ends because the standard output failed. -/
def failWriting : Run Nat :=
  fail exitInternal "error: writing output: write stream: disk full\n"

/-- Writes lines of help, up to the first that fails, and ends. -/
def help (code : Nat) : List String → Run Nat
  | [] => return code
  | line :: lines => do
    if ← writeErr (line ++ "\n") then help code lines else return exitInternal

end Numerals.Command
