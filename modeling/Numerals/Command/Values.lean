import Numerals.Command.Arguments
import Numerals.Command.Streams
import Numerals.Integer.Numeral
import Numerals.Integer.Power
import Numerals.Layout.Basic

/-!
# Commands on values

The commands that write one line for each value, `show`, `digits` and `decompose`, and the command
`pow`. The first value that cannot be written ends a command with a report of its error.
-/

namespace Numerals.Command

/-- The line on the use of the commands. -/
def usage : String := "usage: lazynum <show|digits|decompose|pow|repl> [options] [args]"

/-- The settings from the file at `path` on top of the default ones; no file is read if the path is
empty. -/
def readSettings (env : Surroundings) (path : String) : Except (Failure Error) Settings :=
  if path = "" then .ok (Settings.default env.home)
  else
    match env.read path with
    | .error e => .error (.returned (.settings (.plain e.message)))
    | .ok text => (Settings.default env.home).decode env.format text

/-- The settings that arguments ask for on top of `s`. -/
def override (s : Settings) (a : Arguments) : Settings :=
  { s with
    style := a.style.getD s.style
    precision := a.precision.getD s.precision
    radix := a.radix.getD s.radix }

/-- The valid settings that arguments ask for. -/
def loadSettings (env : Surroundings) (a : Arguments) : Except (Failure Error) Settings := do
  let s ← readSettings env a.config
  (override s a).validate.mapError .returned

/-- The line for a value in a radix. Faults are returned. -/
def showLine (radix : Int) (o : Options) (s : String) : Result String := do
  let x ← Binary64.ofText s
  let text ← ((Decomposition.ofBinary64 x).render radix o).recover
  return text ++ "\n"

/-- The line of the digits of a value in a radix. -/
def digitsLine (radix : Int) (s : String) : Result String := do
  let x ← Binary64.ofText s
  let ds ← Digits.generate (.ofBinary64 x) radix
  return ds.text ++ " e" ++ Text.decimal ds.exponent ++ "\n"

/-- The line of the parts of a value. -/
def decomposeLine (s : String) : Result String := do
  let x ← Binary64.ofText s
  let d := Decomposition.ofBinary64 x
  let w := WordDecomposition.ofBinary64 x
  return "sign=" ++ Text.decimal d.sign ++ " mantissa=" ++ Text.decimal d.mantissa ++
    " exponent=" ++ Text.decimal d.exponent ++ " high=" ++ Text.decimal w.high.toNat ++
    " low=" ++ Text.decimal w.low.toNat ++ "\n"

/-- Writes the line of each value, up to the first failure. -/
def eachLine (line : String → Result String) : List String → Run Nat
  | [] => return exitSuccess
  | v :: vs =>
    match line v with
    | .error e => conclude (e.map .fault)
    | .ok text => do
      if ← writeOut text then eachLine line vs else failWriting

/-- The greatest size of the standard input in bytes. -/
def maxInputSize : Nat := 1048576

/-- The text of the standard input. -/
def readInput (input : Input) : Except String String :=
  if input.isBroken then .error "bad read"
  else if maxInputSize < input.text.utf8ByteSize then
    .error ("input exceeds maximum size " ++ Text.decimal maxInputSize ++ " bytes")
  else .ok input.text

/-- The values of the command `show`: those in the arguments, or those in the standard input if
there are none or only a minus sign. -/
def showValues (input : Input) (positional : List String) : Except String (List String) :=
  if positional = [] || positional = ["-"] then (readInput input).map Text.fields
  else .ok positional

/-- The help on the command `show`. -/
def showHelp : List String :=
  ["usage: lazynum show [--style s] [--precision n] [--radix n] [--config file] [float...|-]",
    "  Render each value; with no values, read whitespace-separated values from stdin.",
    "  --style  general, fixed, scientific or ecma"]

/-- Reads the arguments of a command and goes on with them, unless they ask for help. -/
def withArguments (args : List String) (helpLines : List String) (go : Arguments → Run Nat) :
    Run Nat :=
  match Arguments.parse args with
  | .error e => fail exitInvalid ("error: " ++ e.message ++ "\n")
  | .ok a => if a.help then help exitSuccess helpLines else go a

/-- Goes on if all options are among `allowed`. -/
def onlyWith (a : Arguments) (command : String) (allowed : List Flag) (go : Run Nat) : Run Nat :=
  match a.misplaced? allowed with
  | some f => report (.fault (.misplacedOption f.name command))
  | none => go

/-- The command that writes values. -/
def runShow (env : Surroundings) (args : List String) : Run Nat :=
  withArguments args showHelp fun a =>
    match loadSettings env a with
    | .error e => conclude e
    | .ok s =>
      match showValues env.input a.positional with
      | .error message => fail exitInvalid ("error: reading input: " ++ message ++ "\n")
      | .ok values => eachLine (showLine s.radix s.options) values

/-- The command that writes the shortest digits of values. -/
def runDigits (env : Surroundings) (args : List String) : Run Nat :=
  withArguments args ["usage: lazynum digits [--radix n] [--config file] <float>..."] fun a =>
    onlyWith a "digits" [.radix, .config]
      (if a.positional.isEmpty then fail exitInvalid "error: no values given\n"
      else
        match readSettings env a.config with
        | .error e => conclude e
        | .ok s => eachLine (digitsLine (a.radix.getD s.radix)) a.positional)

/-- The command that writes the parts of values. -/
def runDecompose (args : List String) : Run Nat :=
  withArguments args ["usage: lazynum decompose <float>..."] fun a =>
    onlyWith a "decompose" []
      (if a.positional.isEmpty then fail exitInvalid "error: no values given\n"
      else eachLine decomposeLine a.positional)

/-- The greatest exponent of the command `pow`. -/
def maxExponent : Nat := 65536

/-- The exponent in an argument. -/
def exponentOf (s : String) : Result Int :=
  match Text.readInt64? s with
  | some n =>
    if maxExponent < n || n < -2147483648 then Result.refuse (.exponentArgument s maxExponent)
    else .ok n
  | none => Result.refuse (.exponentArgument s maxExponent)

/-- The line of a power. -/
def powLine (base exponent : String) : Result String := do
  let x ← Integer.read base 10
  let n ← exponentOf exponent
  let p ← (x.pow n).recover
  return p.decimal ++ "\n"

/-- The command that writes powers of integers. -/
def runPow (args : List String) : Run Nat :=
  withArguments args ["usage: lazynum pow <base> <exponent>"] fun a =>
    onlyWith a "pow" []
      (match a.positional with
      | [base, exponent] => eachLine (fun b => powLine b exponent) [base]
      | _ => fail exitInvalid "error: pow takes a base and an exponent\n")

/-- The command with the given name, if it is one on values. -/
def valueCommand? (env : Surroundings) (name : String) (args : List String) : Option (Run Nat) :=
  match name with
  | "show" => some (runShow env args)
  | "digits" => some (runDigits env args)
  | "decompose" => some (runDecompose args)
  | "pow" => some (runPow args)
  | _ => none

end Numerals.Command
