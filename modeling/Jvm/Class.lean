import Jvm.ClassFile
import Jvm.ConstantPool
import Jvm.Descriptor

/-!
# Classes and their methods

`Class.ofFile` turns the structure of a class file into a class: names are looked up, descriptors
read and code decoded, and the first defect in file order is reported. Of two methods with the same
name and descriptor the later one counts.

A table of methods is for finding a method by name and descriptor. When it is gone through, it gives
the methods in an order of its own (`MethodOrder`), which is not that of the file.
-/

namespace Jvm

/-- A method of a class. -/
structure Method where
  name : String
  descriptor : String
  access : UInt16
  type : MethodType
  maxStack : UInt16
  maxLocals : UInt16
  /-- Abstract and native methods have no code. -/
  code : Option Code
deriving DecidableEq, Repr

namespace Method

/-- Whether the method is called without a receiver. -/
def isStatic (method : Method) : Bool := method.access &&& 0x0008 != 0

/-- Number of values that a call takes off the operand stack, the receiver not counted. -/
def argumentCount (method : Method) : Nat := method.type.parameters.length

/-- Whether the method has this name and descriptor. -/
def isNamed (method : Method) (name descriptor : String) : Bool :=
  method.name == name && method.descriptor == descriptor

/-- The stack size, the number of locals and the code of a method of class `owner` with these
attributes. -/
def readBody (owner name : String) (attributes : AttributeTable) :
    Except Defect (UInt16 × UInt16 × Option Code) :=
  match attributes.get? "Code" with
  | some (.code maxStack maxLocals bytes _ _) =>
    match Code.decode bytes with
    | .ok code => .ok (maxStack, maxLocals, some code)
    | .error cause => .error (.invalidCode owner name cause)
  | _ => .ok (0, 0, none)

/-- The method that a member of class `owner` declares. -/
def ofMember (pool : ConstantPool) (owner : String) (member : Member) : Except Defect Method := do
  let name ← pool.utf8 member.name
  let descriptor ← pool.utf8 member.descriptor
  let some type := MethodType.ofDescriptor? descriptor
    | throw (.invalidDescriptor descriptor)
  let (maxStack, maxLocals, code) ← readBody owner name member.attributes
  return { name, descriptor, access := member.access, type, maxStack, maxLocals, code }

end Method

/-- Methods of which no two share name and descriptor. -/
abbrev MethodTable := List Method

namespace MethodTable

/-- Adds a method in place of the one that had its name and descriptor. -/
def insert (table : MethodTable) (method : Method) : MethodTable :=
  table.filter (fun other => !other.isNamed method.name method.descriptor) ++ [method]

/-- The method with this name and descriptor. -/
def get? (table : MethodTable) (name descriptor : String) : Option Method :=
  table.find? (·.isNamed name descriptor)

/-- The table of the methods that members of class `owner` declare. -/
def ofMembers (pool : ConstantPool) (owner : String) (members : List Member) :
    Except Defect MethodTable :=
  members.foldlM
    (fun table member => return insert table (← Method.ofMember pool owner member)) []

end MethodTable

/-- A class. -/
structure Class where
  /-- Name with slashes between its parts. -/
  name : String
  superName : Option String
  pool : ConstantPool
  methods : MethodTable
deriving DecidableEq, Repr

namespace Class

/-- The superclass name that slot `index` gives; zero stands for no superclass. -/
def readSuperName (pool : ConstantPool) (index : UInt16) : Except Defect (Option String) :=
  if index = 0 then .ok none else (pool.className index).map some

/-- The class that a class file declares. -/
def ofFile (file : ClassFile) : Except Defect Class := do
  let pool : ConstantPool := ⟨file.constants⟩
  let name ← pool.className file.thisClass
  let superName ← readSuperName pool file.superClass
  let methods ← MethodTable.ofMembers pool name file.methods
  return { name, superName, pool, methods }

/-- The method that the class itself declares under this name and descriptor. -/
def method? (c : Class) (name descriptor : String) : Option Method := c.methods.get? name descriptor

/-- Name of the method where a program starts. -/
def entryName : String := "main"

/-- Descriptor of the method where a program starts. -/
def entryDescriptor : String := "([Ljava/lang/String;)V"

/-- Whether a program may start with a method that is not the usual one: a static `main` without
parameters. -/
def mayStart (method : Method) : Bool :=
  method.name == entryName && method.isStatic && method.argumentCount == 0

end Class

/-- An order in which the tables of classes give their methods. A table gives each method once; the order is
not known beforehand, and may be another one when the same file is loaded again. -/
structure MethodOrder where
  methods : Class → List Method
  perm : ∀ c, (methods c).Perm c.methods

/-- The order of the class file. -/
def MethodOrder.ofFile : MethodOrder := ⟨Class.methods, fun c => .refl c.methods⟩

/-- The method where a program starts: `main` with its usual descriptor, or else the first one that the
table gives of those that may stand for it. -/
def Class.entryPoint? (c : Class) (order : MethodOrder := .ofFile) : Option Method :=
  match c.method? entryName entryDescriptor with
  | some method => some method
  | none => (order.methods c).find? mayStart

end Jvm
