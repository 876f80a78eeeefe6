import Jvm.Instruction.Decode

/-!
# Defects of a class

What can be wrong with a class whose file has the right structure: a reference that does not lead
to the kind of constant it must, a method descriptor that is none, code that does not decode.
-/

namespace Jvm

/-- What a constant pool entry is expected to be. -/
inductive EntryKind where
  | utf8 | classRef | nameAndType | fieldRef | methodRef | integer
deriving DecidableEq, Repr

namespace EntryKind

/-- The kind's name in messages. -/
def name : EntryKind → String
  | .utf8 => "Utf8"
  | .classRef => "Class"
  | .nameAndType => "NameAndType"
  | .fieldRef => "Fieldref"
  | .methodRef => "Methodref"
  | .integer => "Integer"

end EntryKind

/-- A defect of a class. -/
inductive Defect where
  /-- Slot `index` holds no entry of the kind that a reference to it needs. -/
  | malformedReference (index : UInt16) (expected : EntryKind)
  | invalidDescriptor (descriptor : String)
  | invalidCode (owner method : String) (cause : DecodeError)
deriving DecidableEq, Repr

namespace Defect

/-- The defect as text. -/
def message : Defect → String
  | .malformedReference index expected =>
    "constant pool index " ++ toString index.toNat ++ " is not a valid " ++ expected.name ++
      " entry"
  | .invalidDescriptor descriptor => "invalid method descriptor " ++ descriptor
  | .invalidCode owner method cause =>
    "invalid code in " ++ owner ++ "." ++ method ++ ": " ++ cause.message

end Defect

end Jvm
