import Jvm.Decimal.Binary32

/-!
# Constants

The entries of a constant pool as a class file lays them out: entries refer to each other by
index, and floating point numbers are kept as their bits.
-/

namespace Jvm

/-- An entry of a constant pool. -/
inductive Constant where
  /-- The first slot, and the slot after each 8-byte constant. -/
  | unusable
  | utf8 (text : String)
  | integer (value : Int32)
  | float (bits : UInt32)
  | long (value : Int64)
  | double (bits : UInt64)
  | classRef (name : UInt16)
  | string (text : UInt16)
  | fieldRef (owner nameAndType : UInt16)
  | methodRef (owner nameAndType : UInt16)
  | interfaceMethodRef (owner nameAndType : UInt16)
  | nameAndType (name descriptor : UInt16)
  | methodHandle (kind : UInt8) (reference : UInt16)
  | methodType (descriptor : UInt16)
  | dynamic (bootstrap nameAndType : UInt16)
  | invokeDynamic (bootstrap nameAndType : UInt16)
  | module (name : UInt16)
  | package (name : UInt16)
deriving DecidableEq, Repr, Inhabited

namespace Constant

/-- Whether the constant takes two slots. -/
def isWide : Constant → Bool
  | .long _ | .double _ => true
  | _ => false

/-- A record in the form that messages show it: a name and named numbers. -/
def record (name : String) (fields : List (String × String)) : String :=
  name ++ " \x7b " ++ ", ".intercalate (fields.map fun (key, value) => key ++ ": " ++ value) ++
    " \x7d"

/-- For a constant that `ldc` may name in a class file and that has no place on this machine's
operand stack: its form in the message that says so. -/
def unloadable? : Constant → Option String
  | .float bits => some (record "ConstantFloat" [("bytes", Decimal.Binary32.text bits)])
  | .string index => some (record "ConstantString" [("string_index", toString index.toNat)])
  | .classRef index => some (record "ConstantClass" [("name_index", toString index.toNat)])
  | .methodType descriptor =>
    some (record "ConstantMethodType" [("descriptor_index", toString descriptor.toNat)])
  | .methodHandle kind reference =>
    some (record "ConstantMethodHandle"
      [("reference_kind", toString kind.toNat), ("reference_index", toString reference.toNat)])
  | .dynamic bootstrap member =>
    some (record "ConstantDynamic"
      [("bootstrap_method_attr_index", toString bootstrap.toNat),
        ("name_and_type_index", toString member.toNat)])
  | _ => none

end Constant

end Jvm
