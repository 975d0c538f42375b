import Numerals.Command.Dispatch
import Numerals.Command.History
import Numerals.Document.Settings

/-!
# The program

Reads what a command may need, runs it, writes what it wrote and saves what it saved.
-/

namespace Numerals

/-- The texts of those files that can be read. -/
def readFiles (paths : List String) : IO (List (String × String)) :=
  paths.filterMapM fun (path : String) => do
    try
      let text ← IO.FS.readFile path
      return some (path, text)
    catch _ => return none

/-- What a command sees, given the texts of files. -/
def surroundings (home input : String) (files : List (String × String)) : Command.Surroundings where
  home := home
  input := ⟨input, false⟩
  read path :=
    match files.lookup path with
    | some text => .ok text
    | none => .error (.missing path)
  format := Document.format
  editor := Command.lineEditor

end Numerals

open Numerals in
/-- Runs the program. -/
def main (args : List String) : IO UInt32 := do
  let home := (← IO.getEnv "HOME").getD ""
  let input ← if Command.readsInput args then (← IO.getStdin).readToEnd else pure ""
  let configs ← readFiles (Command.configPaths args (Command.lineEditor.lines input))
  let histories ← readFiles (Command.historyPath (surroundings home input configs) args)
  let env := surroundings home input (configs ++ histories)
  let (code, traces) := (Command.run env args).outcome Command.Traces.empty
  (← IO.getStdout).putStr traces.out.text
  (← IO.getStderr).putStr traces.err.text
  for (path, text) in traces.saved do
    try
      IO.FS.writeFile path text
    catch _ => pure ()
  match code with
  | .ok n => return n.toUInt32
  | .error e =>
    (← IO.getStderr).putStr ("panic: " ++ e.text ++ "\n")
    return Command.exitInvalid.toUInt32
