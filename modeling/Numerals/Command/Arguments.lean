import Numerals.Binary.Literal
import Numerals.Error

/-!
# Arguments

The arguments of a command are options and positional arguments in any order. An argument that is a
number is positional even if it starts with a minus sign, and so is a lone minus sign. After the
argument `--` all arguments are positional. The value of an option follows an equals sign or is the
next argument, whatever that is.
-/

namespace Numerals.Command

/-- The options that set something. -/
inductive Flag where
  | config
  | style
  | precision
  | radix
deriving DecidableEq, Repr, Inhabited

namespace Flag

/-- The options in all. -/
def all : List Flag := [config, style, precision, radix]

/-- How an option is written. -/
def name : Flag → String
  | config => "--config"
  | style => "--style"
  | precision => "--precision"
  | radix => "--radix"

/-- The option that is written `s`. -/
def ofName? (s : String) : Option Flag :=
  all.find? fun f => f.name == s

end Flag

/-- What the arguments of a command ask for. `seen` lists the options that were given, in order. -/
structure Arguments where
  help : Bool
  config : String
  style : Option String
  precision : Option Int
  radix : Option Int
  seen : List Flag
  positional : List String
deriving DecidableEq, Repr, Inhabited

/-- Why arguments are not understood. -/
inductive ArgumentError where
  | unknown (argument : String)
  | missingValue (flag : Flag)
  | notAnInteger (flag : Flag) (value : String)
deriving DecidableEq, Repr, Inhabited

namespace ArgumentError

/-- What an error says. -/
def message : ArgumentError → String
  | unknown argument => "unknown option: " ++ argument
  | missingValue flag => "option " ++ flag.name ++ " needs a value"
  | notAnInteger flag value =>
    "option " ++ flag.name ++ ": " ++ Text.quote value ++ " is not an integer"

/-- An error in the arguments as an error without category. -/
def error (e : ArgumentError) : Error :=
  .plain e.message

end ArgumentError

/-- One argument by itself. -/
inductive Argument where
  | positional
  | terminator
  | help
  | flag (flag : Flag) (value : Option String)
  | unknown
deriving DecidableEq, Repr, Inhabited

/-- An argument divided at its first equals sign: what is before it and, if there is one, what is
after it. -/
def splitValue (cs : List Char) : List Char × Option (List Char) :=
  match cs.span (· ≠ '=') with
  | (name, []) => (name, none)
  | (name, _ :: value) => (name, some value)

/-- What an argument is if it is not taken as the value of an option. -/
def Argument.ofText (s : String) : Argument :=
  if s.toList.head? ≠ some '-' || s == "-" || Binary64.isNumeral s then .positional
  else
    let (name, value) := splitValue s.toList
    let name := String.ofList name
    if name == "--help" || name == "-h" then .help
    else if name == "--" then .terminator
    else
      match Flag.ofName? name with
      | some f => .flag f (value.map String.ofList)
      | none => .unknown

namespace Arguments

/-- No arguments. -/
def empty : Arguments := ⟨false, "", none, none, none, [], []⟩

/-- Further positional arguments. -/
def addPositional (a : Arguments) (args : List String) : Arguments :=
  { a with positional := a.positional ++ args }

/-- An option with its value. -/
def set (a : Arguments) (flag : Flag) (value : String) : Except ArgumentError Arguments :=
  let a := { a with seen := a.seen ++ [flag] }
  let integer : Except ArgumentError Int :=
    match Text.readInt64? value with
    | some n => .ok n
    | none => .error (.notAnInteger flag value)
  match flag with
  | .config => .ok { a with config := value }
  | .style => .ok { a with style := some value }
  | .precision => integer.map fun n => { a with precision := some n }
  | .radix => integer.map fun n => { a with radix := some n }

/-- Reads arguments after those that gave `a`. -/
def parseFrom (a : Arguments) : List String → Except ArgumentError Arguments
  | [] => .ok a
  | arg :: rest =>
    match Argument.ofText arg with
    | .positional => parseFrom (a.addPositional [arg]) rest
    | .terminator => .ok (a.addPositional rest)
    | .help => parseFrom { a with help := true } rest
    | .flag flag (some value) =>
      match a.set flag value with
      | .ok a => parseFrom a rest
      | .error e => .error e
    | .flag flag none =>
      match rest with
      | [] => .error (.missingValue flag)
      | value :: rest =>
        match a.set flag value with
        | .ok a => parseFrom a rest
        | .error e => .error e
    | .unknown => .error (.unknown arg)

/-- Reads the arguments of a command. -/
def parse (args : List String) : Except ArgumentError Arguments :=
  parseFrom empty args

/-- The first option that is given but not among `allowed`. -/
def misplaced? (a : Arguments) (allowed : List Flag) : Option Flag :=
  a.seen.find? fun f => !allowed.contains f

end Arguments

end Numerals.Command
