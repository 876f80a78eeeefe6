import Jvm.Error

/-!
# Output streams

A stream keeps what was written to it. Its owner may have set it up to refuse to write or to
flush; a write that is refused leaves the text as it was.
-/

namespace Jvm

/-- One output stream. -/
structure OutputStream where
  /-- Everything written so far. -/
  written : String := ""
  /-- Why each write fails, if it does. -/
  writeFault : Option IoError := none
  /-- Why each flush fails, if it does. -/
  flushFault : Option IoError := none
deriving DecidableEq, Repr, Inhabited

/-- The two output streams of the host. -/
structure Streams where
  out : OutputStream := {}
  err : OutputStream := {}
deriving DecidableEq, Repr, Inhabited

/-- A computation on the streams. What it did to them before it failed stays done. -/
abbrev Output := EStateM Error Streams

namespace Streams

/-- The stream of a handle. -/
def get (streams : Streams) : StreamHandle → OutputStream
  | .stdout => streams.out
  | .stderr => streams.err

/-- Replaces the stream of a handle. -/
def set (streams : Streams) (stream : OutputStream) : StreamHandle → Streams
  | .stdout => { streams with out := stream }
  | .stderr => { streams with err := stream }

/-- Writes text to a stream. -/
def write (handle : StreamHandle) (text : String) : Output Unit := fun streams =>
  let stream := streams.get handle
  match stream.writeFault with
  | some fault => .error (.io fault) streams
  | none => .ok () (streams.set { stream with written := stream.written ++ text } handle)

/-- Flushes a stream. -/
def flush (handle : StreamHandle) : Output Unit := fun streams =>
  match (streams.get handle).flushFault with
  | some fault => .error (.io fault) streams
  | none => .ok () streams

end Streams

end Jvm
