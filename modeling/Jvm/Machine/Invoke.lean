import Jvm.Machine

/-!
# Calls and returns

A call names its target by class, name and descriptor. Native members come first: a static call
goes on to the classes under the roots only if no native method stands for it, a virtual call not
at all.
-/

namespace Jvm.Machine

/-- The parameter types that a call site declares. Values are one word wide, so a call with a
64-bit parameter is refused. -/
def callTypes (descriptor : String) : Except Error (List FieldType) :=
  match MethodType.ofDescriptor? descriptor with
  | none => .error (.defect (.invalidDescriptor descriptor))
  | some type =>
    if type.parameters.any (·.isWide) then .error (.unsupported (.wideArguments descriptor))
    else .ok type.parameters

/-- The method that slot `index` of the running class refers to. -/
def callTarget (index : UInt16) : Exec MemberRef := do
  orFail (((← currentClass).pool.method index).mapError .defect)

/-- Pushes the static field that slot `index` of the running class refers to. -/
def getStatic (index : UInt16) : Exec Unit := do
  let field ← orFail (((← currentClass).pool.field index).mapError .defect)
  match (← get).natives.field? field.owner field.name with
  | some value => onTop (Frame.push value)
  | none => fail (.unsupported (.staticField field.owner field.name))

/-- Performs a native method and pushes its value, if it has one. -/
def callNative (action : NativeAction) (call : NativeCall) : Exec Unit := do
  match ← onStreams (action call) with
  | some value => onTop (Frame.push value)
  | none => return

/-- Calls the bytecode of a static method. -/
def callBytecode (files : FileSystem) (target : MemberRef) : Exec Unit := do
  let (owner, method) ← onLoader fun loader => loader.findMethod files target
  if !method.isStatic || method.code.isNone then
    fail (.unsupported (.staticCall owner.name method.name method.descriptor))
  let arguments ← onTop (Frame.popArguments method.argumentCount)
  pushFrame (Frame.ofCall owner method arguments)

/-- Calls the static method that slot `index` of the running class refers to. -/
def invokeStatic (files : FileSystem) (index : UInt16) : Exec Unit := do
  let target ← callTarget index
  let types ← orFail (callTypes target.descriptor)
  match (← get).natives.method? .static target.owner target.name types.length with
  | some action =>
    let arguments ← onTop (Frame.popArguments types.length)
    callNative action { arguments, types }
  | none => callBytecode files target

/-- Calls the method that slot `index` of the running class refers to, on the object below the
arguments. -/
def invokeVirtual (index : UInt16) : Exec Unit := do
  let target ← callTarget index
  let types ← orFail (callTypes target.descriptor)
  match (← get).natives.method? .virtual target.owner target.name types.length with
  | some action =>
    let arguments ← onTop (Frame.popArguments types.length)
    let receiver ← onTop Frame.pop
    callNative action { receiver := some receiver, arguments, types }
  | none => fail (.unsupported (.virtualCall target))

/-- Leaves the running method and gives a value to its caller. -/
def returnValue (value : Value) : Exec Unit := do
  popFrame
  if (← get).calls.isEmpty then fail (.invalidFrameAccess .noCaller)
  onTop (Frame.push value)

end Jvm.Machine
