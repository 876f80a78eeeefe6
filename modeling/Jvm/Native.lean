import Jvm.Descriptor
import Jvm.Streams

/-!
# Native fields and methods

The members of library classes that the host provides. A native method is found by the kind of
call, the class, the name and the number of arguments, whatever their types; of two registrations
of the same key the later one counts.
-/

namespace Jvm

/-- How a method is called. -/
inductive CallKind where
  | static
  | virtual
deriving DecidableEq, Repr

/-- What a native method is called with. -/
structure NativeCall where
  /-- The object of a virtual call. -/
  receiver : Option Value := none
  arguments : List Value := []
  /-- The parameter types that the call site declares. -/
  types : List FieldType := []
deriving DecidableEq, Repr

/-- What a native method does. Its value, if it has one, is the result of the call. -/
abbrev NativeAction := NativeCall → Output (Option Value)

/-- A static field that the host provides. -/
structure NativeField where
  owner : String
  name : String
  value : Value
deriving DecidableEq, Repr

/-- A method that the host provides. -/
structure NativeMethod where
  kind : CallKind
  owner : String
  name : String
  arity : Nat
  action : NativeAction

/-- All members that the host provides, latest registration first. -/
structure NativeTable where
  fields : List NativeField := []
  methods : List NativeMethod := []

namespace NativeTable

/-- Registers a static field. -/
def registerField (table : NativeTable) (field : NativeField) : NativeTable :=
  { table with fields := field :: table.fields }

/-- Registers a method. -/
def registerMethod (table : NativeTable) (method : NativeMethod) : NativeTable :=
  { table with methods := method :: table.methods }

/-- The value of a static field. -/
def field? (table : NativeTable) (owner name : String) : Option Value :=
  (table.fields.find? fun f => f.owner == owner && f.name == name).map (·.value)

/-- The action of a method. -/
def method? (table : NativeTable) (kind : CallKind) (owner name : String) (arity : Nat) :
    Option NativeAction :=
  (table.methods.find? fun m =>
    m.kind == kind && m.arity == arity && m.owner == owner && m.name == name).map (·.action)

end NativeTable

/-! ## Printing -/

namespace Print

/-- The character of the low 16 bits of an integer; half a surrogate pair is no character. -/
def charOf (v : Int32) : Char :=
  let n := v.toUInt32.toNat % 65536
  if n.isValidChar then Char.ofNat n else '\uFFFD'

/-- A value as it is printed for a parameter of the given type. -/
def render (value : Value) (type : Option FieldType) : String :=
  match type, value with
  | some (.primitive .boolean), .int v => if v = 0 then "false" else "true"
  | some (.primitive .char), .int v => (charOf v).toString
  | _, value => value.display

/-- The stream that a call is made on. -/
def receiver (call : NativeCall) : Except Error StreamHandle :=
  match call.receiver with
  | some (.stream handle) => .ok handle
  | some .null => .error (.unsupported .nullReceiver)
  | some (.int v) => .error (.typeMismatch .reference (.int v))
  | none => .error (.unsupported .noReceiver)

/-- The text of the first argument, if there is one. -/
def argument? (call : NativeCall) : Option String :=
  call.arguments.head?.map fun value => render value call.types.head?

/-- Prints the first argument and flushes. -/
def print : NativeAction := fun call => do
  let handle ← MonadExcept.ofExcept (receiver call)
  if let some text := argument? call then Streams.write handle text
  Streams.flush handle
  return none

/-- Prints the first argument, if there is one, then a line feed, and flushes. -/
def println : NativeAction := fun call => do
  let handle ← MonadExcept.ofExcept (receiver call)
  if let some text := argument? call then Streams.write handle text
  Streams.write handle "\n"
  Streams.flush handle
  return none

end Print

/-- The standard streams and the print methods of their class. -/
def NativeTable.standard : NativeTable where
  fields := [
    ⟨"java/lang/System", "err", .stream .stderr⟩,
    ⟨"java/lang/System", "out", .stream .stdout⟩]
  methods := [
    ⟨.virtual, "java/io/PrintStream", "print", 1, Print.print⟩,
    ⟨.virtual, "java/io/PrintStream", "println", 1, Print.println⟩,
    ⟨.virtual, "java/io/PrintStream", "println", 0, Print.println⟩]

end Jvm
