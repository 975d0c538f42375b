import Numerals.Command.Session

/-!
# The command line

`run` is the whole program: it chooses the command by the first argument and runs it with the
others.
-/

namespace Numerals.Command

/-- The help on all commands. -/
def generalHelp : List String :=
  [usage,
    "  show       render values (--style, --precision, --radix, --config)",
    "  digits     print the shortest digit sequence and exponent (--radix, --config)",
    "  decompose  print sign, mantissa and exponent",
    "  pow        exact integer power",
    "  repl       interactive show loop"]

/-- Keeps the lines of a session in the file at a path, after those that are kept there, unless the
path is empty. -/
def saveHistory (env : Surroundings) (path : String) (lines : List String) : Run Unit := do
  if !path.isEmpty then
    let text := env.editor.history (env.read path).toOption lines
    modify fun t => { t with saved := t.saved ++ [(path, text)] }

/-- The command that starts a session on the standard input. -/
def runSession (env : Surroundings) (args : List String) : Run Nat :=
  let helpLine := "usage: lazynum repl [--style s] [--precision n] [--radix n] [--config file]"
  withArguments args [helpLine] fun a => do
    if !a.positional.isEmpty then fail exitInvalid "error: repl takes no arguments\n"
    else
      match loadSettings env a with
      | .error e => conclude e
      | .ok s => do
        let session : Session := ⟨s.style, s.precision, s.radix⟩
        let (code, lines) ← session.loop env ((env.editor.lines env.input.text).map Prompt.line)
        saveHistory env s.history lines
        return code

/-- Runs the program with the given arguments. -/
def run (env : Surroundings) (args : List String) : Run Nat :=
  match args with
  | [] => help exitInvalid [usage]
  | name :: rest =>
    match valueCommand? env name rest with
    | some command => command
    | none =>
      if name = "repl" then runSession env rest
      else if name = "--help" || name = "-h" || name = "help" then help exitSuccess generalHelp
      else help exitInvalid ["unknown command: " ++ name, usage]

/-- The file that the arguments of a command name for its settings. -/
def configPath (args : List String) : List String :=
  match Arguments.parse args with
  | .ok a => if a.config = "" then [] else [a.config]
  | .error _ => []

/-- The files with settings that a run of the program may read, if its input is divided into
`lines`. -/
def configPaths (args lines : List String) : List String :=
  configPath args.tail ++
    (if args.head? = some "repl" then
      lines.flatMap fun line => configPath (Text.fields line).tail
    else [])

/-- The file with the history that a run of the program may read. -/
def historyPath (env : Surroundings) (args : List String) : List String :=
  match args with
  | "repl" :: rest =>
    match Arguments.parse rest with
    | .error _ => []
    | .ok a =>
      match loadSettings env a with
      | .error _ => []
      | .ok s => if s.history.isEmpty then [] else [s.history]
  | _ => []

/-- Whether a run of the program reads the standard input. -/
def readsInput (args : List String) : Bool :=
  match args with
  | "repl" :: _ => true
  | "show" :: rest =>
    match Arguments.parse rest with
    | .ok a => a.positional = [] || a.positional = ["-"]
    | .error _ => false
  | _ => false

end Numerals.Command
