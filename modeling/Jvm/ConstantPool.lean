import Jvm.Constant
import Jvm.Defect

/-!
# Following references through a constant pool

Each look-up goes from entry to entry and reports the first one that is missing or of another
kind. Nothing is assumed of the entries: they may point at themselves or past the end.
-/

namespace Jvm

/-- A field or a method named by class, name and descriptor. -/
structure MemberRef where
  owner : String
  name : String
  descriptor : String
deriving DecidableEq, Repr

/-- The constants of a class by slot. -/
structure ConstantPool where
  entries : Array Constant
deriving DecidableEq, Repr

namespace ConstantPool

/-- Number of slots, the first included. -/
def size (pool : ConstantPool) : Nat := pool.entries.size

/-- Whether the pool has no slot but the first. -/
def isEmpty (pool : ConstantPool) : Bool := pool.size ≤ 1

/-- The constant in a slot. -/
def get? (pool : ConstantPool) (index : UInt16) : Option Constant := pool.entries[index.toNat]?

/-- The text in a slot. -/
def utf8 (pool : ConstantPool) (index : UInt16) : Except Defect String :=
  match pool.get? index with
  | some (.utf8 text) => .ok text
  | _ => .error (.malformedReference index .utf8)

/-- The name of the class that a slot refers to. -/
def className (pool : ConstantPool) (index : UInt16) : Except Defect String :=
  match pool.get? index with
  | some (.classRef name) => pool.utf8 name
  | _ => .error (.malformedReference index .classRef)

/-- The name and the descriptor that a slot pairs. -/
def nameAndType (pool : ConstantPool) (index : UInt16) : Except Defect (String × String) :=
  match pool.get? index with
  | some (.nameAndType name descriptor) => do
    let name ← pool.utf8 name
    let descriptor ← pool.utf8 descriptor
    return (name, descriptor)
  | _ => .error (.malformedReference index .nameAndType)

/-- The member that a reference entry with these two indices names. -/
def member (pool : ConstantPool) (owner nameAndType : UInt16) : Except Defect MemberRef := do
  let owner ← pool.className owner
  let (name, descriptor) ← pool.nameAndType nameAndType
  return ⟨owner, name, descriptor⟩

/-- The field that a slot refers to. -/
def field (pool : ConstantPool) (index : UInt16) : Except Defect MemberRef :=
  match pool.get? index with
  | some (.fieldRef owner nameAndType) => pool.member owner nameAndType
  | _ => .error (.malformedReference index .fieldRef)

/-- The method that a slot refers to, be it of a class or of an interface. -/
def method (pool : ConstantPool) (index : UInt16) : Except Defect MemberRef :=
  match pool.get? index with
  | some (.methodRef owner nameAndType) => pool.member owner nameAndType
  | some (.interfaceMethodRef owner nameAndType) => pool.member owner nameAndType
  | _ => .error (.malformedReference index .methodRef)

/-- The integer in a slot. -/
def integer (pool : ConstantPool) (index : UInt16) : Except Defect Int32 :=
  match pool.get? index with
  | some (.integer value) => .ok value
  | _ => .error (.malformedReference index .integer)

end ConstantPool

end Jvm
