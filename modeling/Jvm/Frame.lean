import Jvm.Class
import Jvm.Error
import Jvm.Operation

/-!
# Frames

A frame is one invocation of a method. Most instructions work on the top frame alone; they are
`OnFrame` computations here. A computation that fails leaves the frame as it was at that point:
operands that it has taken off the stack are gone.
-/

namespace Jvm

/-- An invocation of a method. -/
structure Frame where
  /-- The class that declares the method. -/
  owner : Class
  method : Method
  /-- Index of the next instruction. -/
  pc : Nat := 0
  /-- The operand stack, top first. -/
  stack : List Value := []
  locals : Array Value
deriving DecidableEq, Repr

/-- A computation on one frame. -/
abbrev OnFrame := EStateM Error Frame

namespace Frame

/-- The frame of a call: the arguments in the first locals, null in the others. -/
def ofCall (owner : Class) (method : Method) (arguments : List Value := []) : Frame where
  owner := owner
  method := method
  locals :=
    (arguments ++
      List.replicate (method.maxLocals.toNat - arguments.length) Value.null).toArray

/-- A frame without code to execute or with its counter out of the code cannot fetch. -/
def fetch? (frame : Frame) : Except Error (Instruction Nat) :=
  match frame.method.code with
  | none => .error (.unsupported (.noCode frame.owner.name frame.method.name))
  | some code =>
    match code[frame.pc]? with
    | some inst => .ok inst
    | none => .error (.invalidFrameAccess (.pastEnd frame.pc frame.owner.name frame.method.name))

/-! ## Elementary computations -/

/-- Puts a value on the operand stack. -/
def push (value : Value) : OnFrame Unit :=
  modify fun frame => { frame with stack := value :: frame.stack }

/-- Takes the top value off the operand stack. -/
def pop : OnFrame Value := fun frame =>
  match frame.stack with
  | [] => .error .stackUnderflow frame
  | value :: rest => .ok value { frame with stack := rest }

/-- Takes the top value off the operand stack, which must be an integer. -/
def popInt : OnFrame Int32 := do MonadExcept.ofExcept (← pop).asInt

/-- Takes the top value off the operand stack, which must be a reference. -/
def popReference : OnFrame Value := do MonadExcept.ofExcept (← pop).asReference

/-- Takes the top `count` values off the operand stack; the answer has them in the order they were
pushed. With fewer values on the stack nothing is taken. -/
def popArguments (count : Nat) : OnFrame (List Value) := fun frame =>
  if frame.stack.length < count then .error .stackUnderflow frame
  else .ok (frame.stack.take count).reverse { frame with stack := frame.stack.drop count }

/-- The value of a local variable. -/
def load (index : UInt16) : OnFrame Value := do
  match (← get).locals[index.toNat]? with
  | some value => return value
  | none => throw (.invalidFrameAccess (.noLocal index))

/-- Sets a local variable. -/
def store (index : UInt16) (value : Value) : OnFrame Unit := do
  let frame ← get
  if index.toNat < frame.locals.size then
    set { frame with locals := frame.locals.setIfInBounds index.toNat value }
  else throw (.invalidFrameAccess (.noLocal index))

/-- Goes on at another instruction. -/
def jump (target : Nat) : OnFrame Unit := modify fun frame => { frame with pc := target }

/-! ## Instructions within a frame -/

/-- The integer operand of an instruction. -/
def intOperand (inst : Instruction Nat) : Except Error Int32 :=
  match inst.operand with
  | .int v => .ok v
  | _ => .error (.invalidOperand inst.opcode inst.operand)

/-- The constant pool index of an instruction. -/
def indexOperand (inst : Instruction Nat) : Except Error UInt16 :=
  match inst.operand with
  | .index i => .ok i
  | _ => .error (.invalidOperand inst.opcode inst.operand)

/-- The local variable slot of an instruction. -/
def slotOperand (inst : Instruction Nat) : Except Error UInt16 :=
  match inst.operand with
  | .slot i => .ok i
  | _ => .error (.invalidOperand inst.opcode inst.operand)

/-- The slot and the step of an instruction. -/
def incrementOperand (inst : Instruction Nat) : Except Error (UInt16 × Int32) :=
  match inst.operand with
  | .increment i delta => .ok (i, delta)
  | _ => .error (.invalidOperand inst.opcode inst.operand)

/-- The branch target of an instruction. -/
def branchOperand (inst : Instruction Nat) : Except Error Nat :=
  match inst.operand with
  | .branch target => .ok target
  | _ => .error (.invalidOperand inst.opcode inst.operand)

/-- The value that the constant at `index` pushes. Only integers can be pushed. -/
def constantValue (pool : ConstantPool) (index : UInt16) : Except Error Int32 :=
  match pool.get? index >>= Constant.unloadable? with
  | some description => .error (.unsupported (.constant description))
  | none => (pool.integer index).mapError .defect

/-- Executes an instruction that stays within its frame. -/
def perform (op : FrameOperation) (inst : Instruction Nat) : OnFrame Unit :=
  match op with
  | .nop => return
  | .pushNull => push .null
  | .pushInt => do push (.int (← MonadExcept.ofExcept (intOperand inst)))
  | .loadConstant => do
    let index ← MonadExcept.ofExcept (indexOperand inst)
    let pool := (← get).owner.pool
    push (.int (← MonadExcept.ofExcept (constantValue pool index)))
  | .loadInt => do
    let value ← load (← MonadExcept.ofExcept (slotOperand inst))
    push (.int (← MonadExcept.ofExcept value.asInt))
  | .loadReference => do
    let value ← load (← MonadExcept.ofExcept (slotOperand inst))
    push (← MonadExcept.ofExcept value.asReference)
  | .storeInt => do
    let value ← popInt
    store (← MonadExcept.ofExcept (slotOperand inst)) (.int value)
  | .storeReference => do
    let value ← popReference
    store (← MonadExcept.ofExcept (slotOperand inst)) value
  | .pop => do
    let _ ← pop
    return
  | .dup => do
    match (← get).stack.head? with
    | some value => push value
    | none => throw .stackUnderflow
  | .swap => do
    let top ← pop
    let below ← pop
    push top
    push below
  | .arithmetic op => do
    let b ← popInt
    let a ← popInt
    match op.result? a b with
    | some result => push (.int result)
    | none => throw (.arithmetic "/ by zero")
  | .negate => do push (.int (-(← popInt)))
  | .increment => do
    let (index, delta) ← MonadExcept.ofExcept (incrementOperand inst)
    let value ← load index
    store index (.int ((← MonadExcept.ofExcept value.asInt) + delta))
  | .branchZero test => do
    let target ← MonadExcept.ofExcept (branchOperand inst)
    let value ← popInt
    if test.holds value 0 then jump target
  | .branchCompare test => do
    let target ← MonadExcept.ofExcept (branchOperand inst)
    let b ← popInt
    let a ← popInt
    if test.holds a b then jump target
  | .branchNull expected => do
    let target ← MonadExcept.ofExcept (branchOperand inst)
    let value ← popReference
    if (value == .null) == expected then jump target
  | .goto => do jump (← MonadExcept.ofExcept (branchOperand inst))

end Frame

end Jvm
