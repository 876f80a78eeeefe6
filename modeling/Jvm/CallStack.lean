import Jvm.Event
import Jvm.Frame

/-!
# The call stack

The frames of the invocations that are under way, the running one on top, and a limit to their
number.
-/

namespace Jvm

/-- Frames, top first, and how many there may be. -/
structure CallStack where
  frames : List Frame := []
  limit : Nat := 1024
deriving DecidableEq, Repr

namespace CallStack

/-- Number of frames. -/
def depth (calls : CallStack) : Nat := calls.frames.length

/-- Whether there is no frame. -/
def isEmpty (calls : CallStack) : Bool := calls.frames.isEmpty

/-- The running frame. -/
def top? (calls : CallStack) : Option Frame := calls.frames.head?

/-- Puts a frame on top, unless the limit is reached. -/
def push (calls : CallStack) (frame : Frame) : Except Error CallStack :=
  if calls.limit ≤ calls.depth then .error (.stackOverflow calls.limit)
  else .ok { calls with frames := frame :: calls.frames }

/-- Takes the top frame off. -/
def pop? (calls : CallStack) : Option (Frame × CallStack) :=
  match calls.frames with
  | [] => none
  | frame :: rest => some (frame, { calls with frames := rest })

/-- Drops every frame. -/
def clear (calls : CallStack) : CallStack := { calls with frames := [] }

/-- Works on the top frame. -/
def onTop {α : Type} (act : OnFrame α) (calls : CallStack) : EStateM.Result Error CallStack α :=
  match calls.frames with
  | [] => .error (.invalidFrameAccess .noFrame) calls
  | frame :: rest =>
    match act frame with
    | .ok a frame => .ok a { calls with frames := frame :: rest }
    | .error e frame => .error e { calls with frames := frame :: rest }

/-- What the log says of a frame that has been pushed onto `depth - 1` others. -/
def enteredEvent (frame : Frame) (depth : Nat) : Event :=
  .entered frame.owner.name frame.method.name frame.method.descriptor depth

/-- What the log says of a frame that has been popped off `depth` others. -/
def leftEvent (frame : Frame) (depth : Nat) : Event :=
  .left frame.owner.name frame.method.name depth

end CallStack

end Jvm
