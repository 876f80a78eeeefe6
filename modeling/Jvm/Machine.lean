import Jvm.CallStack
import Jvm.Loader
import Jvm.Native

/-!
# The machine

The state of a machine and the computations on it. A computation that fails leaves the machine as
it was at that point.
-/

namespace Jvm

/-- A machine. -/
structure Machine where
  loader : Loader
  natives : NativeTable := .standard
  streams : Streams := {}
  calls : CallStack := {}
  /-- How the tables of the classes that it loads give their methods. -/
  order : MethodOrder := .ofFile
  /-- Number of instructions that were executed without an error. The count has no bound: kept in a
  word of 64 bits it is the same for the first `2 ^ 64` instructions. -/
  executed : Nat := 0
  /-- The least urgent level that is logged. -/
  logLevel : LogLevel := .error
  /-- What was logged, latest first. -/
  log : List Event := []

/-- A computation on a machine. -/
abbrev Exec := EStateM Stop Machine

namespace Machine

/-- A machine with no frames and nothing executed that keeps the loader and the settings. -/
def renew (m : Machine) : Machine := { m with calls := m.calls.clear, executed := 0 }

/-- Ends the computation in an error. -/
def fail {α : Type} (error : Error) : Exec α := throw (.failed error)

/-- The result of a function that may fail. -/
def orFail {α : Type} : Except Error α → Exec α
  | .ok a => return a
  | .error e => fail e

/-- The machine after an event, which is logged if its level is urgent enough. -/
def logging (m : Machine) (event : Event) : Machine :=
  if m.logLevel.shows event.level then { m with log := event :: m.log } else m

/-- Logs an event. -/
def note (event : Event) : Exec Unit := modify fun m => m.logging event

/-- Works on the top frame. -/
def onTop {α : Type} (act : OnFrame α) : Exec α := fun m =>
  match m.calls.onTop act with
  | .ok a calls => .ok a { m with calls }
  | .error e calls => .error (.failed e) { m with calls }

/-- Works on the output streams. -/
def onStreams {α : Type} (act : Output α) : Exec α := fun m =>
  match act m.streams with
  | .ok a streams => .ok a { m with streams }
  | .error e streams => .error (.failed e) { m with streams }

/-- Lets the loader work, and logs what it has to say. -/
def onLoader {α : Type} (work : Loader → Loading Stop α) : Exec α := fun m =>
  let done := work m.loader
  let m := done.events.foldl logging { m with loader := done.loader }
  match done.result with
  | .ok a => .ok a m
  | .error stop => .error stop m

/-- The class of a name. -/
def resolve (files : FileSystem) (name : String) : Exec Class :=
  onLoader fun loader =>
    let found := loader.resolve files name
    { found with result := found.result.mapError .failed }

/-- Puts a frame on top of the call stack. -/
def pushFrame (frame : Frame) : Exec Unit := do
  let calls ← orFail ((← get).calls.push frame)
  modify fun m => { m with calls }
  note (CallStack.enteredEvent frame calls.depth)

/-- Takes the top frame off the call stack, if there is one. -/
def popFrame : Exec Unit := do
  match (← get).calls.pop? with
  | none => return
  | some (frame, calls) =>
    modify fun m => { m with calls }
    note (CallStack.leftEvent frame calls.depth)

/-- Drops all frames. -/
def clearFrames : Exec Unit := do
  let calls := (← get).calls
  unless calls.isEmpty do note (.discarded calls.depth)
  modify fun m => { m with calls := calls.clear }

/-- The class whose code is running. -/
def currentClass : Exec Class := onTop do return (← get).owner

end Machine

end Jvm
