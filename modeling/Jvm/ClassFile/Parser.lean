import Jvm.ClassFile
import Jvm.ClassFile.Reader
import Jvm.Text.ModifiedUtf8

/-!
# Reading a class file

`ClassFile.parse` reads a class file off the front of a byte string; what follows the file is not
looked at. Attributes named `Code` and `ConstantValue` have a layout of their own, for which the
length that the file declares plays no part; all others are as many bytes as declared.
-/

namespace Jvm

open Reader

/-! ## The constant pool -/

/-- One constant, which belongs into slot `index`. -/
def Constant.read (index : UInt16) : Reader Constant := do
  let tag ← u8
  match tag.toNat with
  | 1 =>
    let bytes ← take (← u16).toNat
    match Text.ModifiedUtf8.decode bytes with
    | some text => return .utf8 text
    | none => throw (.invalidUtf8 index)
  | 3 => return .integer (← u32).toInt32
  | 4 => return .float (← u32)
  | 5 => return .long (← u64).toInt64
  | 6 => return .double (← u64)
  | 7 => return .classRef (← u16)
  | 8 => return .string (← u16)
  | 9 => return .fieldRef (← u16) (← u16)
  | 10 => return .methodRef (← u16) (← u16)
  | 11 => return .interfaceMethodRef (← u16) (← u16)
  | 12 => return .nameAndType (← u16) (← u16)
  | 15 => return .methodHandle (← u8) (← u16)
  | 16 => return .methodType (← u16)
  | 17 => return .dynamic (← u16) (← u16)
  | 18 => return .invokeDynamic (← u16) (← u16)
  | 19 => return .module (← u16)
  | 20 => return .package (← u16)
  | _ => throw (.unknownTag tag index)

/-- A constant takes at least its tag. -/
theorem Constant.length_lt_of_read {index : UInt16} {input rest : Bytes} {entry : Constant}
    (h : read index input = .ok (entry, rest)) : rest.length < input.length := by
  cases input with
  | nil => cases h
  | cons tag tail =>
    refine Nat.lt_succ_of_le ((?_ : Shrinks _) tail entry rest h)
    split
    case h_1 =>
      refine Shrinks.u16.bind fun _ => (Shrinks.take _).bind fun _ => ?_
      split
      · exact .pure _
      · exact .throw _
    case h_2 | h_3 => exact Shrinks.u32.map _
    case h_4 | h_5 => exact Shrinks.u64.map _
    case h_6 | h_7 | h_13 | h_16 | h_17 => exact Shrinks.u16.map _
    case h_8 | h_9 | h_10 | h_11 | h_14 | h_15 => exact Shrinks.u16.bind fun _ => Shrinks.u16.map _
    case h_12 => exact Shrinks.u8.bind fun _ => Shrinks.u16.map _
    case h_18 => exact .throw _

/-- The constants from slot `index` on. A wide constant takes two slots, and may take one more than there
are. The index is a word of 16 bits and starts again at zero where a wide constant leads past its end. -/
def Constant.readSlots (count index : UInt16) : Reader (List Constant) := fun input =>
  if index < count then
    match hread : read index input with
    | .error e => .error e
    | .ok (entry, rest) =>
      have : rest.length < input.length := length_lt_of_read hread
      if entry.isWide then
        (readSlots count (index + 2) rest).map fun (entries, rest) => (entry :: .unusable :: entries, rest)
      else (readSlots count (index + 1) rest).map fun (entries, rest) => (entry :: entries, rest)
  else .ok ([], input)
termination_by input => input.length

/-- The constant pool: a count of slots, of which the first is not written. -/
def Constant.readPool : Reader (Array Constant) := do
  let count ← u16
  return (.unusable :: (← readSlots count 1)).toArray

/-! ## Attributes and members -/

/-- One row of an exception table. -/
def ExceptionRange.read : Reader ExceptionRange :=
  return ⟨← u16, ← u16, ← u16, ← u16⟩

/-- The text in slot `index`. -/
def Attribute.readName (pool : Array Constant) (index : UInt16) : Reader String :=
  match pool[index.toNat]? with
  | some (.utf8 text) => return text
  | _ => throw (.badAttributeName index)

/-- The content of an attribute of the given name and declared length, where `nested` reads the
attributes of a `Code` attribute. -/
def Attribute.readContent (nested : Reader AttributeTable) (name : String) (length : UInt32) :
    Reader Attribute :=
  if name = "Code" then do
    let maxStack ← u16
    let maxLocals ← u16
    let bytes ← take (← u32).toNat
    let handlers ← counted ExceptionRange.read
    return .code maxStack maxLocals bytes handlers (← nested)
  else if name = "ConstantValue" then return .constantValue (← u16)
  else return .raw (← take length.toNat)

/-- A counted list of attributes, nested at most `depth` deep. Each level takes bytes of its own,
so the number of bytes that are left is deep enough; where it is used up none is left, and the
count cannot be read. -/
def AttributeTable.read (pool : Array Constant) : (depth : Nat) → Reader AttributeTable
  | 0 => throw .truncated
  | depth + 1 => do
    let entries ← counted do
      let name ← Attribute.readName pool (← u16)
      let length ← u32
      return (name, ← Attribute.readContent (read pool depth) name length)
    return .ofList entries

/-- A field or a method. -/
def Member.read (pool : Array Constant) (depth : Nat) : Reader Member :=
  return ⟨← u16, ← u16, ← u16, ← AttributeTable.read pool depth⟩

/-- The word that class files start with, and the minor and the major number of the version. -/
def ClassFile.readVersion : Reader (UInt16 × UInt16) := do
  let found ← u32
  if found ≠ magic then throw (.invalidMagic found)
  let minorVersion ← u16
  return (minorVersion, ← u16)

/-- A class file whose attributes are nested at most `depth` deep. -/
def ClassFile.read (depth : Nat) : Reader ClassFile := do
  let (minorVersion, majorVersion) ← readVersion
  let pool ← Constant.readPool
  let access ← u16
  let thisClass ← u16
  let superClass ← u16
  let interfaces ← counted u16
  let fields ← counted (Member.read pool depth)
  let methods ← counted (Member.read pool depth)
  return {
    minorVersion, majorVersion, constants := pool, access, thisClass, superClass, interfaces
    fields, methods, attributes := ← AttributeTable.read pool depth }

/-- The class file that a byte string starts with. -/
def ClassFile.parse (bytes : Bytes) : Except ParseError ClassFile :=
  (read bytes.length bytes).map (·.1)

end Jvm
