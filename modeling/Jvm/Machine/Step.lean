import Jvm.Machine.Invoke

/-!
# Executing instructions

`step` executes the next instruction of the top frame. The program counter moves on before the
instruction is executed, so a failed instruction is not executed again.
-/

namespace Jvm.Machine

/-- Executes an instruction of the top frame, found at `pc`. -/
def execute (files : FileSystem) (inst : Instruction Nat) (pc : Nat) : Exec Unit :=
  match inst.opcode.operation with
  | .within op => onTop (Frame.perform op inst)
  | .getStatic => do getStatic (← orFail (Frame.indexOperand inst))
  | .invokeStatic => do invokeStatic files (← orFail (Frame.indexOperand inst))
  | .invokeVirtual => do invokeVirtual (← orFail (Frame.indexOperand inst))
  | .returnVoid => popFrame
  | .returnInt => do returnValue (.int (← onTop Frame.popInt))
  | .returnReference => do returnValue (← onTop Frame.popReference)
  | .unsupported => do
    let frame ← onTop get
    fail (.unsupportedOpcode inst.opcode frame.owner.name frame.method.name pc)

/-- Fetches the next instruction of the top frame and moves its counter on. -/
def fetch : OnFrame (Instruction Nat) := do
  let frame ← get
  let inst ← MonadExcept.ofExcept frame.fetch?
  Frame.jump (frame.pc + 1)
  return inst

/-- Fetches and executes the next instruction. -/
def advance (files : FileSystem) : Exec Unit := do
  let pc ← onTop do return (← get).pc
  let inst ← onTop fetch
  note (.executing pc inst.opcode inst.operand)
  execute files inst pc
  modify fun m => { m with executed := m.executed + 1 }

/-- Executes the next instruction, if there is a frame; the answer says whether there was. A step
that would never end is not taken. -/
def step (files : FileSystem) : Exec Bool := fun m =>
  if m.calls.isEmpty then .ok false m
  else
    match advance files m with
    | .ok _ after => .ok true after
    | .error .unfinished _ => .error .unfinished m
    | .error (.failed e) after => .error (.failed e) after

/-! ## Runs -/

/-- Steps until there is no frame, at most `limit` times. -/
def run (files : FileSystem) : (limit : Nat) → Exec Unit
  | 0 => throw .unfinished
  | limit + 1 => fun m =>
    match step files m with
    | .ok true after => run files limit after
    | .ok false after => note (.finished after.executed) after
    | .error stop after => .error stop after

/-- Pushes the frame where the program of a class starts. -/
def enter (files : FileSystem) (className : String) : Exec Unit := do
  let c ← resolve files className
  match c.entryPoint? (← get).order with
  | none => fail (.methodNotFound c.name Class.entryName Class.entryDescriptor)
  | some method =>
    if !method.isStatic || method.code.isNone then
      fail (.unsupported (.entryPoint c.name method.name method.descriptor))
    pushFrame (Frame.ofCall c method)

/-- Drops all frames and pushes the one where the program of a class starts. -/
def prepare (files : FileSystem) (className : String) : Exec Unit := do
  clearFrames
  enter files className

/-- Runs the program of a class from its start, for at most `limit` steps. -/
def start (files : FileSystem) (className : String) (limit : Nat) : Exec Unit := do
  prepare files className
  run files limit

end Jvm.Machine
