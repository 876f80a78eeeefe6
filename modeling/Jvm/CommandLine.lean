import Jvm.Machine.Step

/-!
# The command line

    [--classpath ROOTS | --cp ROOTS] [--max-call-depth N] [--] CLASS

An option takes its value from the next argument or after an equals sign, and stands before or
after the class. Without `--classpath` the roots come from the environment, and without that the
current directory is the only one.
-/

namespace Jvm

/-- What a run needs to know. -/
structure Options where
  /-- The roots, separated by colons. -/
  classPath : String
  maxCallDepth : Nat
  mainClass : String
deriving DecidableEq, Repr

/-- Why the arguments do not lead to a run. -/
inductive Refusal where
  /-- Help was asked for. -/
  | help
  | unknownOption (argument : String)
  | unexpectedArgument (argument : String)
  | missingValue (option : String)
  | repeatedOption (option : String)
  | invalidCount (value : String)
  | missingClass
deriving DecidableEq, Repr

namespace Refusal

/-- How to call the program. -/
def usage : String :=
  "Usage: [--classpath ROOTS] [--max-call-depth N] CLASS\n"

/-- The refusal as text. -/
def message : Refusal → String
  | .help => usage
  | .unknownOption argument => "error: unknown option " ++ argument ++ "\n" ++ usage
  | .unexpectedArgument argument => "error: unexpected argument " ++ argument ++ "\n" ++ usage
  | .missingValue option => "error: " ++ option ++ " needs a value\n" ++ usage
  | .repeatedOption option => "error: " ++ option ++ " is given more than once\n" ++ usage
  | .invalidCount value => "error: not a count: " ++ value ++ "\n" ++ usage
  | .missingClass => "error: no class is given\n" ++ usage

/-- The exit code. -/
def exitCode : Refusal → UInt32
  | .help => 0
  | _ => 2

end Refusal

namespace CommandLine

/-- What the arguments so far have set. -/
structure Settings where
  classPath : Option String := none
  maxCallDepth : Option Nat := none
  mainClass : Option String := none
deriving DecidableEq, Repr

/-- An option that takes a value. -/
inductive ValueOption where
  | classPath
  | maxCallDepth
deriving DecidableEq, Repr

/-- The option of a name. -/
def ValueOption.ofName? : String → Option ValueOption
  | "--classpath" => some .classPath
  | "--cp" => some .classPath
  | "--max-call-depth" => some .maxCallDepth
  | _ => none

/-- A count in decimal, with an optional plus sign, that fits 64 bits. -/
def readCount? (text : String) : Option Nat :=
  let digits :=
    match text.toList with
    | '+' :: rest => rest
    | all => all
  if digits.isEmpty || !digits.all (·.isDigit) then none
  else
    let n := digits.foldl (fun n c => n * 10 + (c.toNat - '0'.toNat)) 0
    if n < UInt64.size then some n else none

/-- Whether an argument can only be an option; a lone dash is a value. -/
def isOption (argument : String) : Bool :=
  argument.toList.head? == some '-' && argument != "-"

/-- Cuts an argument into the name of an option and the value after an equals sign. -/
def splitValue (argument : String) : String × Option String :=
  let chars := argument.toList
  let name := String.ofList (chars.takeWhile (· ≠ '='))
  match chars.dropWhile (· ≠ '=') with
  | [] => (name, none)
  | _ :: value => (name, some (String.ofList value))

/-- Sets an option, which may be set once. -/
def Settings.set (settings : Settings) (option : ValueOption) (name value : String) :
    Except Refusal Settings :=
  match option with
  | .classPath =>
    if settings.classPath.isSome then .error (.repeatedOption name)
    else .ok { settings with classPath := some value }
  | .maxCallDepth =>
    if settings.maxCallDepth.isSome then .error (.repeatedOption name)
    else
      match readCount? value with
      | some n => .ok { settings with maxCallDepth := some n }
      | none => .error (.invalidCount value)

/-- Takes an argument that is no option: the class. -/
def Settings.addClass (settings : Settings) (argument : String) : Except Refusal Settings :=
  if settings.mainClass.isSome then .error (.unexpectedArgument argument)
  else .ok { settings with mainClass := some argument }

/-- Why an argument that looks like an option is not taken. -/
def refuse (argument : String) : Refusal :=
  match argument.toList with
  | '-' :: 'h' :: _ => .help
  | _ => if argument = "--help" then .help else .unknownOption argument

/-- Reads arguments from first to last. -/
def readAll (settings : Settings) : List String → Except Refusal Settings
  | [] => .ok settings
  | argument :: rest =>
    if argument = "--" then rest.foldlM Settings.addClass settings
    else if !isOption argument then do readAll (← settings.addClass argument) rest
    else
      let (name, value?) := splitValue argument
      match ValueOption.ofName? name, value?, rest with
      | none, _, _ => .error (refuse argument)
      | some option, some value, rest => do readAll (← settings.set option name value) rest
      | some option, none, value :: rest =>
        if isOption value then .error (.missingValue name)
        else do readAll (← settings.set option name value) rest
      | some _, none, [] => .error (.missingValue name)

end CommandLine

namespace Options

/-- The options that the arguments and the class path of the environment give. -/
def read (environment : Option String) (arguments : List String) : Except Refusal Options := do
  let settings ← CommandLine.readAll {} arguments
  match settings.mainClass with
  | none => throw .missingClass
  | some mainClass =>
    return {
      classPath := settings.classPath.getD (environment.getD ".")
      maxCallDepth := settings.maxCallDepth.getD 1024
      mainClass }

/-- The machine that a run starts with. -/
def machine (options : Options) : Machine where
  loader := { roots := Path.roots options.classPath }
  calls := { limit := options.maxCallDepth }

end Options

/-- What is written to the error output when a run ends in an error. -/
def Error.report (e : Error) : String := "Error: " ++ e.message ++ "\n"

end Jvm
