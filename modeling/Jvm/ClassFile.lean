import Jvm.Bytes
import Jvm.Constant

/-!
# The structure of a class file

Everything is kept as the file numbers it: references are indices into the constant pool, and
nothing is looked up yet.
-/

namespace Jvm

/-- A range of code offsets that a handler guards. -/
structure ExceptionRange where
  startPc : UInt16
  endPc : UInt16
  handlerPc : UInt16
  catchType : UInt16
deriving DecidableEq, Repr

/-- What an attribute holds. Its layout is chosen by its name. -/
inductive Attribute where
  /-- The code of a method. -/
  | code (maxStack maxLocals : UInt16) (bytes : Bytes) (handlers : List ExceptionRange)
      (attributes : List (String × Attribute))
  /-- The index of the constant that a field starts with. -/
  | constantValue (index : UInt16)
  /-- Any other attribute. -/
  | raw (bytes : Bytes)
deriving Repr

/-- Attributes by name: each name stands once. -/
abbrev AttributeTable := List (String × Attribute)

namespace AttributeTable

/-- The attribute of a name. -/
def get? (table : AttributeTable) (name : String) : Option Attribute := table.lookup name

/-- Adds an attribute in place of the one that had its name. -/
def insert (table : AttributeTable) (name : String) (content : Attribute) : AttributeTable :=
  table.filter (fun entry => entry.1 ≠ name) ++ [(name, content)]

/-- The table of attributes in file order: of one name, the last counts. -/
def ofList (attributes : List (String × Attribute)) : AttributeTable :=
  attributes.foldl (fun table (name, content) => table.insert name content) []

end AttributeTable

/-- A field or a method. -/
structure Member where
  access : UInt16
  name : UInt16
  descriptor : UInt16
  attributes : AttributeTable
deriving Repr

/-- A class file. -/
structure ClassFile where
  minorVersion : UInt16
  majorVersion : UInt16
  /-- The constants by slot, the first of which no file writes. -/
  constants : Array Constant
  access : UInt16
  thisClass : UInt16
  /-- The slot of the superclass, or zero. -/
  superClass : UInt16
  interfaces : List UInt16
  fields : List Member
  methods : List Member
  attributes : AttributeTable
deriving Repr

namespace ClassFile

/-- The word that every class file starts with. -/
def magic : UInt32 := 0xcafebabe

end ClassFile

end Jvm
