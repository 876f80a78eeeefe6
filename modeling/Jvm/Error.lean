import Jvm.Constant
import Jvm.ConstantPool
import Jvm.Loader.Miss
import Jvm.Value

/-!
# Errors of a run

Every error ends a run. Each names its cause; `Error.message` gives the text.
-/

namespace Jvm

/-- Something that the machine does not do. -/
inductive Unsupported where
  /-- A method without code cannot be executed. -/
  | noCode (owner method : String)
  /-- A program starts in a static method with code. -/
  | entryPoint (owner method descriptor : String)
  /-- The constant, in the form that messages show, is not an integer. -/
  | constant (description : String)
  /-- No native field stands for the static field. -/
  | staticField (owner name : String)
  /-- The method called is not static or has no code. -/
  | staticCall (owner method descriptor : String)
  /-- No native method stands for the method called on an object. -/
  | virtualCall (target : MemberRef)
  /-- A call passes a 64-bit argument. -/
  | wideArguments (descriptor : String)
  /-- A native method was called on null. -/
  | nullReceiver
  /-- A native method that needs a receiver was called without one. -/
  | noReceiver
  /-- What a native method says it does not do. -/
  | native (text : String)
deriving DecidableEq, Repr

namespace Unsupported

/-- What is not supported. -/
def message : Unsupported → String
  | .noCode owner method => owner ++ "." ++ method ++ " has no code"
  | .entryPoint owner method descriptor =>
    owner ++ "." ++ method ++ descriptor ++ " is not a static bytecode method"
  | .constant description => "ldc of " ++ description
  | .staticField owner name => "static field " ++ owner ++ "." ++ name
  | .staticCall owner method descriptor =>
    "invokestatic of " ++ owner ++ "." ++ method ++ descriptor
  | .virtualCall target =>
    "virtual dispatch to " ++ target.owner ++ "." ++ target.name ++ target.descriptor
  | .wideArguments descriptor => "64-bit arguments in " ++ descriptor
  | .nullReceiver => "intrinsic invoked on a null receiver"
  | .noReceiver => "intrinsic requires a receiver"
  | .native text => text

end Unsupported

/-- An access that a frame or the call stack cannot grant. -/
inductive FrameFault where
  /-- The method has no instruction at `pc`. -/
  | pastEnd (pc : Nat) (owner method : String)
  /-- The frame has no such local variable. -/
  | noLocal (index : UInt16)
  /-- There is no frame. -/
  | noFrame
  /-- A value was returned and no frame was left to take it. -/
  | noCaller
deriving DecidableEq, Repr

namespace FrameFault

/-- The access as text. -/
def message : FrameFault → String
  | .pastEnd pc owner method =>
    "pc " ++ toString pc ++ " past the end of " ++ owner ++ "." ++ method
  | .noLocal index => "local " ++ toString index.toNat ++ " out of range"
  | .noFrame => "call stack is empty"
  | .noCaller => "value returned from the outermost frame"

end FrameFault

/-- Why a run ended. -/
inductive Error where
  /-- No root gave the class. -/
  | classNotFound (name : String) (misses : List Miss)
  | methodNotFound (owner name descriptor : String)
  | unsupportedOpcode (opcode : Opcode) (owner method : String) (pc : Nat)
  | unsupported (what : Unsupported)
  | stackUnderflow
  | invalidFrameAccess (fault : FrameFault)
  /-- A class or a call site has a defect. -/
  | defect (cause : Defect)
  | typeMismatch (expected : ValueKind) (found : Value)
  | invalidOperand (opcode : Opcode) (operand : Operand Nat)
  | arithmetic (reason : String)
  /-- The call stack has its `limit` of frames. -/
  | stackOverflow (limit : Nat)
  | io (cause : IoError)
deriving DecidableEq, Repr

namespace Error

/-- The error as text. -/
def message : Error → String
  | .classNotFound name misses => "class " ++ name ++ " not found: " ++ Miss.summary misses
  | .methodNotFound owner name descriptor =>
    "method " ++ owner ++ "." ++ name ++ descriptor ++ " not found"
  | .unsupportedOpcode opcode owner method pc =>
    "unsupported " ++ opcode.mnemonic ++ " at " ++ owner ++ "." ++ method ++ " pc " ++ toString pc
  | .unsupported what => "unsupported operation: " ++ what.message
  | .stackUnderflow => "operand stack underflow"
  | .invalidFrameAccess fault => "invalid frame access: " ++ fault.message
  | .defect cause => cause.message
  | .typeMismatch expected found =>
    "type mismatch: expected " ++ expected.name ++ ", found " ++ found.display
  | .invalidOperand opcode operand =>
    "invalid operand " ++ operand.describe ++ " for " ++ opcode.mnemonic
  | .arithmetic reason => "arithmetic error: " ++ reason
  | .stackOverflow limit => "call stack exceeded " ++ toString limit ++ " frames"
  | .io cause => "i/o error: " ++ cause.message

end Error

/-- How a computation ends without a result: in an error, or not at all within what it was given.
A step that is unfinished would never end. -/
inductive Stop where
  | failed (error : Error)
  | unfinished
deriving DecidableEq, Repr

namespace Value

/-- The integer that the value is. -/
def asInt : Value → Except Error Int32
  | .int v => .ok v
  | found => .error (.typeMismatch .int found)

/-- The value itself if it is a reference. -/
def asReference : Value → Except Error Value
  | .int v => .error (.typeMismatch .reference (.int v))
  | reference => .ok reference

end Value

end Jvm
