import Jvm.Class
import Jvm.Loader.Miss

/-!
# What a run logs

A log is a list of events. Each event has a level and a text.
-/

namespace Jvm

/-- How urgent an event is. -/
inductive LogLevel where
  | error | warn | info | debug | trace
deriving DecidableEq, Repr

namespace LogLevel

/-- The level's name in a log. -/
def name : LogLevel → String
  | .error => "ERROR"
  | .warn => "WARN"
  | .info => "INFO"
  | .debug => "DEBUG"
  | .trace => "TRACE"

/-- Position among the levels, most urgent first. -/
def rank : LogLevel → Nat
  | .error => 0
  | .warn => 1
  | .info => 2
  | .debug => 3
  | .trace => 4

/-- Whether a log of this verbosity shows events of level `other`. -/
def shows (verbosity other : LogLevel) : Bool := other.rank ≤ verbosity.rank

end LogLevel

/-- Something that a run reports while it goes on. -/
inductive Event where
  /-- A class was loaded from a file. -/
  | loaded (name path : String)
  /-- A root did not give a class. -/
  | missed (name : String) (miss : Miss)
  /-- A frame was pushed; `depth` counts it. -/
  | entered (owner method descriptor : String) (depth : Nat)
  /-- A frame was popped; `depth` is what is left. -/
  | left (owner method : String) (depth : Nat)
  /-- Frames of an earlier run were dropped. -/
  | discarded (count : Nat)
  /-- An instruction is about to be executed. -/
  | executing (pc : Nat) (opcode : Opcode) (operand : Operand Nat)
  /-- The call stack became empty. -/
  | finished (executed : Nat)
deriving DecidableEq, Repr

namespace Event

/-- The level of an event: a file that is there and useless is worth a warning. -/
def level : Event → LogLevel
  | .missed _ miss => if miss.cause.isAbsence then .debug else .warn
  | .executing _ _ _ => .trace
  | _ => .debug

/-- A numeral with blanks in front that make it at least four characters. -/
def alignedNumeral (n : Nat) : String :=
  let digits := toString n
  String.ofList (List.replicate (4 - digits.length) ' ') ++ digits

/-- The text of an event. -/
def message : Event → String
  | .loaded name path => "loaded " ++ name ++ " from " ++ path
  | .missed name miss =>
    if miss.cause.isAbsence then name ++ " not found under " ++ miss.root
    else "skipping " ++ miss.message
  | .entered owner method descriptor depth =>
    "enter " ++ owner ++ "." ++ method ++ descriptor ++ " (depth " ++ toString depth ++ ")"
  | .left owner method depth =>
    "leave " ++ owner ++ "." ++ method ++ " (depth " ++ toString depth ++ ")"
  | .discarded count => "discarding " ++ toString count ++ " stale frames"
  | .executing pc opcode operand =>
    alignedNumeral pc ++ ": " ++ opcode.mnemonic ++ " " ++ operand.describe
  | .finished executed => "run finished after " ++ toString executed ++ " instructions"

end Event

end Jvm
