import Numerals.Command.Values

/-!
# Interactive sessions

A session holds the settings of its user. Each line of a session changes one of the settings, runs a
command, or is a list of values to be written with the current settings. What fails is reported, and
the session goes on.
-/

namespace Numerals.Command

/-- The settings of a session. -/
structure Session where
  style : String
  precision : Int
  radix : Int
deriving DecidableEq, Repr, Inhabited

/-- What a session receives when it asks for a line. -/
inductive Prompt where
  | line (text : String)
  | endOfInput
  | aborted
  | failure (message : String)
deriving DecidableEq, Repr, Inhabited

/-- The same surroundings without standard input, which belongs to the session. -/
def Surroundings.withoutInput (env : Surroundings) : Surroundings :=
  { env with input := ⟨"", false⟩ }

namespace Session

/-- The session as settings, to be validated. -/
def settings (s : Session) : Settings :=
  ⟨s.style, s.precision, s.radix, ""⟩

/-- The help on sessions. -/
def helpText : String :=
  "Enter values to show them with the current settings, or a command:\n" ++
  "  show|digits|decompose|pow ...   run a lazynum command\n" ++
  "  :style <name>                   set the style\n" ++
  "  :precision <n>                  set the precision (-1 for shortest)\n" ++
  "  :radix <n>                      set the radix\n" ++
  "  :settings                       print the current settings\n" ++
  "  :help                           this text\n" ++
  "  :quit                           leave\n"

/-- The session `next` if its settings are valid; otherwise `s`, after a report. -/
def change (s next : Session) : Run Session :=
  match next.settings.validate with
  | .ok _ => return next
  | .error e => do
    discard (report e)
    return s

/-- The integer for a setting, unless it is none. -/
def changeInteger (s : Session) (flag : Flag) (value : String) (next : Int → Session) :
    Run Session :=
  match Text.readInt64? value with
  | some n => s.change (next n)
  | none => do
    discard (writeErr ("error: " ++ (ArgumentError.notAnInteger flag value).message ++ "\n"))
    return s

/-- Changes the setting that `name` asks for. -/
def set (s : Session) (name : String) (values : List String) : Run Session :=
  match values with
  | [value] =>
    match name with
    | ":style" => s.change { s with style := value }
    | ":precision" => s.changeInteger .precision value fun n => { s with precision := n }
    | ":radix" => s.changeInteger .radix value fun n => { s with radix := n }
    | _ => return s
  | _ => do
    discard (writeErr ("usage: " ++ name ++ " <value>\n"))
    return s

/-- The arguments of the command `show` for values under the settings of a session. -/
def showArguments (s : Session) (values : List String) : List String :=
  ["--style", s.style, "--precision", Text.decimal s.precision, "--radix", Text.decimal s.radix,
    "--"] ++ values

/-- Runs a line that is divided into fields. The result is the session after it, or nothing if the
session is to end. -/
def eval (env : Surroundings) (s : Session) (fields : List String) : Run (Option Session) :=
  match fields with
  | [] => return some s
  | name :: args =>
    if name = ":quit" || name = ":exit" then return none
    else if name = ":help" then do
      discard (writeOut helpText)
      return some s
    else if name = ":settings" then do
      discard (writeOut ("style=" ++ s.style ++ " precision=" ++ Text.decimal s.precision ++
        " radix=" ++ Text.decimal s.radix ++ "\n"))
      return some s
    else if name = ":style" || name = ":precision" || name = ":radix" then
      some <$> s.set name args
    else
      match valueCommand? env.withoutInput name args with
      | some run => do
        discard run
        return some s
      | none => do
        if name.toList.head? = some ':' then
          discard (writeErr ("unknown command " ++ name ++ ", try :help\n"))
        else discard (runShow env.withoutInput (s.showArguments (name :: args)))
        return some s

/-- What a session does with a prompt: the line it remembers, the session after it, and the exit
code if it ends. -/
structure Turn where
  entered : Option String
  session : Session
  exit : Option Nat
deriving DecidableEq, Repr, Inhabited

/-- Answers one prompt. -/
def answer (env : Surroundings) (s : Session) : Prompt → Run Turn
  | .endOfInput => return ⟨none, s, some exitSuccess⟩
  | .aborted => return ⟨none, s, none⟩
  | .failure message => do
    let code ← fail exitInternal ("error: reading input: " ++ message ++ "\n")
    return ⟨none, s, some code⟩
  | .line text => do
    let line := Text.trim text
    if line.isEmpty then return ⟨none, s, none⟩
    match ← s.eval env (Text.fields line) with
    | some next => return ⟨some line, next, none⟩
    | none => return ⟨some line, s, some exitSuccess⟩

/-- Answers prompts until the session ends. The result is the exit code and the lines to remember.
At the end of the prompts the session ends as at the end of the input. -/
def loop (env : Surroundings) (s : Session) : List Prompt → Run (Nat × List String)
  | [] => return (exitSuccess, [])
  | p :: ps => do
    let turn ← s.answer env p
    match turn.exit with
    | some code => return (code, turn.entered.toList)
    | none =>
      let (code, lines) ← turn.session.loop env ps
      return (code, turn.entered.toList ++ lines)

/-- A turn with what it wrote on the two output streams. -/
structure Entry where
  turn : Turn
  out : String
  err : String
deriving DecidableEq, Repr, Inhabited

/-- The entries of a session with streams without limit, one for each prompt that it takes. -/
def transcript (env : Surroundings) (s : Session) : List Prompt → Except Error (List Entry)
  | [] => .ok []
  | p :: ps =>
    match (s.answer env p).outcome Traces.empty with
    | (.error e, _) => .error e
    | (.ok turn, traces) =>
      let entry : Entry := ⟨turn, traces.out.text, traces.err.text⟩
      match turn.exit with
      | some _ => .ok [entry]
      | none => (transcript env turn.session ps).map fun entries => entry :: entries

end Session

end Numerals.Command
