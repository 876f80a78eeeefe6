import Jvm.CommandLine

/-!
# The program

Reads the class files that a run can ask for, then steps a machine and passes on what it prints.
-/

namespace Jvm.Program

/-- The error that the operating system's number stands for. A number may come negated, as an
unsigned word. -/
def ofNumber (code : UInt32) (details : String) : IoError :=
  let n := if code.toNat < 0x80000000 then code.toNat else UInt32.size - code.toNat
  match n with
  | 2 => .notFound
  | 20 => .notDirectory
  | 21 => .isDirectory
  | 36 => .nameTooLong
  | n => .other (details ++ " (os error " ++ toString n ++ ")")

/-- An error of reading a file. -/
def ofIO : IO.Error → IoError
  | .noFileOrDirectory .. => .notFound
  | .inappropriateType _ code details | .permissionDenied _ code details
  | .invalidArgument _ code details | .resourceExhausted _ code details
  | .alreadyExists _ code details | .noSuchThing _ code details => ofNumber code details
  | .resourceBusy code details | .hardwareFault code details | .illegalOperation code details
  | .unsupportedOperation code details | .otherError code details => ofNumber code details
  | e => .other (toString e)

/-- Reads a file. -/
def readFile (path : String) : IO (Except IoError Bytes) := do
  if '\x00' ∈ path.toList then return .error .nulInPath
  try
    let content ← IO.FS.readBinFile path
    return .ok content.toList
  catch e => return .error (ofIO e)

/-- The classes that a class file names: a run can ask for no others. -/
def namedClasses (bytes : Bytes) : List String :=
  match ClassFile.parse bytes with
  | .error _ => []
  | .ok file =>
    let pool : ConstantPool := ⟨file.constants⟩
    file.constants.toList.filterMap fun entry =>
      match entry with
      | .classRef name => (pool.utf8 name).toOption
      | _ => none

/-- Reads the files of classes, and of those they name. -/
partial def gather (roots : List String) (seen : List String)
    (record : List (String × Except IoError Bytes)) :
    List String → IO (List (String × Except IoError Bytes))
  | [] => return record
  | name :: pending => do
    let name := internalName name
    if name ∈ seen then gather roots seen record pending
    else
      let mut record := record
      let mut pending := pending
      for root in roots do
        let path := Path.classFile root name
        let result ← readFile path
        record := (path, result) :: record
        if let .ok bytes := result then pending := namedClasses bytes ++ pending
      gather roots (name :: seen) record pending

/-- Passes on what the machine has printed, and forgets it together with the log. -/
def passOn (m : Machine) : IO Machine := do
  unless m.streams.out.written.isEmpty do
    (← IO.getStdout).putStr m.streams.out.written
    (← IO.getStdout).flush
  unless m.streams.err.written.isEmpty do
    (← IO.getStderr).putStr m.streams.err.written
    (← IO.getStderr).flush
  return { m with streams := {}, log := [] }

/-- Steps until the run ends. A step that never ends is tried for ever. -/
partial def proceed (files : FileSystem) (m : Machine) : IO UInt32 := do
  match Machine.step files m with
  | .ok more m =>
    let m ← passOn m
    if more then proceed files m else return 0
  | .error .unfinished m => proceed files m
  | .error (.failed e) m =>
    discard (passOn m)
    (← IO.getStderr).putStr e.report
    return 1

end Jvm.Program

/-- Runs the class that the arguments name. -/
def main (arguments : List String) : IO UInt32 := do
  let environment ← IO.getEnv "CLASSPATH"
  match Jvm.Options.read environment arguments with
  | .error refusal =>
    if refusal = .help then IO.print refusal.message else IO.eprint refusal.message
    return refusal.exitCode
  | .ok options =>
    let m := options.machine
    let record ← Jvm.Program.gather m.loader.roots [] [] [options.mainClass]
    let files := Jvm.FileSystem.ofRecord record
    match Jvm.Machine.prepare files options.mainClass m with
    | .ok _ m => Jvm.Program.proceed files m
    | .error .unfinished _ => return 1
    | .error (.failed e) _ =>
      IO.eprint e.report
      return 1
