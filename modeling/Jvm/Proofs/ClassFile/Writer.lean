import Jvm.ClassFile
import Jvm.Proofs.Text.ModifiedUtf8

/-!
# Writing a class file

What a class file is before it is bytes: the constants in a row, attributes in file order, each with
the slot of its name, and members and classes made of these. `write` gives the bytes, most significant
first. `file` says what a reader is to find in them: constants have slots, and of the attributes of one
name the last one counts.
-/

namespace Jvm

/-! ## Words -/

namespace Bytes

def ofWord16 (w : UInt16) : Bytes := [.ofNat (w.toNat / 256), .ofNat (w.toNat % 256)]

theorem word16_ofWord16 (w : UInt16) : word16 (.ofNat (w.toNat / 256)) (.ofNat (w.toNat % 256)) = w := by
  have hlt := w.toNat_lt
  rw [word16, UInt8.toNat_ofNat', UInt8.toNat_ofNat', ← UInt16.toNat_inj, UInt16.toNat_ofNat']
  omega

def ofWord32 (w : UInt32) : Bytes :=
  ofWord16 (.ofNat (w.toNat / 65536)) ++ ofWord16 (.ofNat (w.toNat % 65536))

def ofWord64 (w : UInt64) : Bytes :=
  ofWord32 (.ofNat (w.toNat / 4294967296)) ++ ofWord32 (.ofNat (w.toNat % 4294967296))

/-- A 16-bit count. -/
def ofCount (n : Nat) : Bytes := ofWord16 (.ofNat n)

/-- What is written for each element of a list, after their number. -/
def ofList {α : Type} (write : α → Bytes) (l : List α) : Bytes := ofCount l.length ++ l.flatMap write

end Bytes

open Bytes

/-! ## Constants -/

namespace Constant

/-- The bytes of a constant: its tag and its fields. -/
def write : Constant → Bytes
  | .unusable => []
  | .utf8 text => 1 :: (ofCount (Text.ModifiedUtf8.encode text).length ++ Text.ModifiedUtf8.encode text)
  | .integer value => 3 :: ofWord32 value.toUInt32
  | .float bits => 4 :: ofWord32 bits
  | .long value => 5 :: ofWord64 value.toUInt64
  | .double bits => 6 :: ofWord64 bits
  | .classRef name => 7 :: ofWord16 name
  | .string text => 8 :: ofWord16 text
  | .fieldRef owner member => 9 :: (ofWord16 owner ++ ofWord16 member)
  | .methodRef owner member => 10 :: (ofWord16 owner ++ ofWord16 member)
  | .interfaceMethodRef owner member => 11 :: (ofWord16 owner ++ ofWord16 member)
  | .nameAndType name descriptor => 12 :: (ofWord16 name ++ ofWord16 descriptor)
  | .methodHandle kind reference => 15 :: kind :: ofWord16 reference
  | .methodType descriptor => 16 :: ofWord16 descriptor
  | .dynamic bootstrap member => 17 :: (ofWord16 bootstrap ++ ofWord16 member)
  | .invokeDynamic bootstrap member => 18 :: (ofWord16 bootstrap ++ ofWord16 member)
  | .module name => 19 :: ofWord16 name
  | .package name => 20 :: ofWord16 name

/-- A constant that a file can hold: one of the 17 kinds, and no text too long for its count. -/
def Fits : Constant → Prop
  | .unusable => False
  | .utf8 text => (Text.ModifiedUtf8.encode text).length < 65536
  | _ => True

instance : DecidablePred Fits
  | .unusable => .isFalse id
  | .utf8 text => inferInstanceAs (Decidable ((Text.ModifiedUtf8.encode text).length < 65536))
  | .integer _ | .float _ | .long _ | .double _ | .classRef _ | .string _ | .fieldRef _ _ | .methodRef _ _
  | .interfaceMethodRef _ _ | .nameAndType _ _ | .methodHandle _ _ | .methodType _ | .dynamic _ _ | .invokeDynamic _ _
  | .module _ | .package _ => .isTrue trivial

/-- Slots that a constant takes. -/
def slots (c : Constant) : Nat := if c.isWide then 2 else 1

/-- The slot of constant `k`: slot zero is nobody's. -/
def slotOf (constants : List Constant) (k : Nat) : Nat := 1 + ((constants.take k).map slots).sum

/-- What stands in the slots of a constant. -/
def fill (c : Constant) : List Constant := if c.isWide then [c, .unusable] else [c]

/-- The constant pool by slot. -/
def pool (constants : List Constant) : Array Constant := (.unusable :: constants.flatMap fill).toArray

theorem length_fill (c : Constant) : c.fill.length = c.slots := by
  rw [fill, slots]
  split <;> rfl

theorem size_pool (constants : List Constant) : (pool constants).size = slotOf constants constants.length := by
  rw [pool, List.size_toArray, List.length_cons, List.length_flatMap, slotOf, List.take_length, Nat.add_comm]
  simp only [length_fill]

theorem slotOf_cons_succ (c : Constant) (constants : List Constant) (k : Nat) :
    slotOf (c :: constants) (k + 1) = c.slots + slotOf constants k := by
  rw [slotOf, slotOf, List.take_succ_cons, List.map_cons, List.sum_cons]
  omega

/-- Each constant is in its slot. -/
theorem pool_slotOf {constants : List Constant} {k : Nat} {c : Constant} (h : constants[k]? = some c) :
    (pool constants)[slotOf constants k]? = some c := by
  rw [pool, List.getElem?_toArray]
  induction constants generalizing k with
  | nil => simp at h
  | cons b rest ih =>
    cases k with
    | zero =>
      obtain rfl : b = c := by simpa using h
      show (b.fill ++ rest.flatMap fill)[0]? = some b
      rw [fill]
      split <;> rfl
    | succ k =>
      have hrest := ih (k := k) (by simpa using h)
      have hslot : slotOf rest k = slotOf rest k - 1 + 1 := by rw [slotOf]; omega
      rw [hslot, List.getElem?_cons_succ] at hrest
      rw [slotOf_cons_succ, hslot, ← Nat.add_assoc, List.getElem?_cons_succ, List.flatMap_cons,
        ← length_fill, List.getElem?_append_right (Nat.le_add_right _ _), Nat.add_sub_cancel_left, hrest]

theorem isWide_of_fill_unusable {c : Constant} (hc : c.Fits) {j : Nat} (h : c.fill[j]? = some .unusable) :
    c.isWide ∧ j = 1 := by
  have hfirst : some c ≠ some .unusable := by
    intro heq
    rw [Option.some.inj heq] at hc
    exact hc
  rw [fill] at h
  split at h
  case isTrue hwide =>
    rcases j with _ | _ | j
    · exact absurd h hfirst
    · exact ⟨hwide, rfl⟩
    · simp at h
  case isFalse =>
    rcases j with _ | j
    · exact absurd h hfirst
    · simp at h

/-- Of the slots after the first, the ones that follow a wide constant are unusable. -/
theorem fill_unusable_iff {constants : List Constant} (hfits : ∀ c ∈ constants, c.Fits) (j : Nat) :
    (constants.flatMap fill)[j]? = some .unusable ↔
      ∃ k c, constants[k]? = some c ∧ c.isWide ∧ j = slotOf constants k := by
  induction constants generalizing j with
  | nil => simp
  | cons b rest ih =>
    have hrest := ih fun c hc => hfits c (List.mem_cons_of_mem b hc)
    rw [List.flatMap_cons]
    constructor
    · intro h
      by_cases hj : j < b.fill.length
      · rw [List.getElem?_append_left hj] at h
        exact ⟨0, b, rfl, isWide_of_fill_unusable (hfits b List.mem_cons_self) h⟩
      · rw [List.getElem?_append_right (by omega)] at h
        obtain ⟨k, c, hk, hwide, hslot⟩ := (hrest _).1 h
        refine ⟨k + 1, c, hk, hwide, ?_⟩
        rw [slotOf_cons_succ, ← length_fill]
        omega
    · rintro ⟨k, c, hk, hwide, rfl⟩
      cases k with
      | zero =>
        obtain rfl : b = c := by simpa using hk
        rw [fill, if_pos hwide]
        rfl
      | succ k =>
        rw [slotOf_cons_succ, ← length_fill, List.getElem?_append_right (Nat.le_add_right _ _),
          Nat.add_sub_cancel_left]
        exact (hrest _).2 ⟨k, c, hk, hwide, rfl⟩

/-- The first slot and the slots after wide constants are unusable, and no others. -/
theorem pool_unusable_iff {constants : List Constant} (hfits : ∀ c ∈ constants, c.Fits) (i : Nat) :
    (pool constants)[i]? = some .unusable ↔
      i = 0 ∨ ∃ k c, constants[k]? = some c ∧ c.isWide ∧ i = slotOf constants k + 1 := by
  rw [pool, List.getElem?_toArray]
  cases i with
  | zero => simp
  | succ j =>
    rw [List.getElem?_cons_succ, fill_unusable_iff hfits]
    simp only [Nat.add_right_cancel_iff, Nat.add_one_ne_zero, false_or]

end Constant

/-! ## Attributes -/

namespace Written

/-- An attribute in a file. The length that is declared for code and for a constant value is the
writer's to choose. -/
inductive Attribute where
  | code (name : UInt16) (declared : UInt32) (maxStack maxLocals : UInt16) (bytes : Bytes)
      (handlers : List ExceptionRange) (attributes : List Attribute)
  | constantValue (name : UInt16) (declared : UInt32) (index : UInt16)
  | raw (name : UInt16) (bytes : Bytes)

def writeHandler (range : ExceptionRange) : Bytes :=
  ofWord16 range.startPc ++ (ofWord16 range.endPc ++ (ofWord16 range.handlerPc ++ ofWord16 range.catchType))

mutual

def Attribute.write : Attribute → Bytes
  | .code name declared maxStack maxLocals bytes handlers attributes =>
    ofWord16 name ++ (ofWord32 declared ++ (ofWord16 maxStack ++ (ofWord16 maxLocals ++
      (ofWord32 (.ofNat bytes.length) ++ (bytes ++ (ofList writeHandler handlers ++
        (ofCount attributes.length ++ writeAttributes attributes)))))))
  | .constantValue name declared index => ofWord16 name ++ (ofWord32 declared ++ ofWord16 index)
  | .raw name bytes => ofWord16 name ++ (ofWord32 (.ofNat bytes.length) ++ bytes)

/-- The bytes of attributes, one after the other. -/
def writeAttributes : List Attribute → Bytes
  | [] => []
  | a :: rest => a.write ++ writeAttributes rest

end

/-- The text in slot `index`. -/
def nameAt (pool : Array Constant) (index : UInt16) : String :=
  match pool[index.toNat]? with
  | some (.utf8 text) => text
  | _ => ""

/-- The slot that the name of an attribute is in. -/
def Attribute.name : Attribute → UInt16
  | .code name .. | .constantValue name .. | .raw name _ => name

/-- Of entries in file order, the last of each name. -/
def lastOfEach {α : Type} : List (String × α) → List (String × α)
  | [] => []
  | entry :: rest => if entry.1 ∈ rest.map (·.1) then lastOfEach rest else entry :: lastOfEach rest

section
variable {α : Type}

theorem mem_of_mem_lastOfEach {l : List (String × α)} {entry : String × α} (h : entry ∈ lastOfEach l) :
    entry ∈ l := by
  induction l with
  | nil => exact h
  | cons first rest ih =>
    rw [lastOfEach] at h
    split at h
    · exact List.mem_cons_of_mem first (ih h)
    · rcases List.mem_cons.1 h with rfl | h
      · exact List.mem_cons_self
      · exact List.mem_cons_of_mem first (ih h)

/-- Each name stands once. -/
theorem nodup_lastOfEach (l : List (String × α)) : ((lastOfEach l).map (·.1)).Nodup := by
  induction l with
  | nil => exact List.nodup_nil
  | cons first rest ih =>
    rw [lastOfEach]
    split
    case isTrue => exact ih
    case isFalse hnew =>
      refine List.nodup_cons.2 ⟨fun hmem => hnew ?_, ih⟩
      obtain ⟨entry, hentry, hname⟩ := List.mem_map.1 hmem
      exact List.mem_map.2 ⟨entry, mem_of_mem_lastOfEach hentry, hname⟩

/-- What a name stands for is the last that it was given. -/
theorem lookup_lastOfEach (l : List (String × α)) (name : String) :
    (lastOfEach l).lookup name = l.reverse.lookup name := by
  induction l with
  | nil => rfl
  | cons first rest ih =>
    rw [List.reverse_cons, List.lookup_append, ← ih, lastOfEach]
    obtain ⟨key, value⟩ := first
    by_cases hname : name = key
    · subst hname
      split
      case isTrue hagain =>
        -- The entry is not the last of its name.
        obtain ⟨entry, hentry, hsame⟩ := List.mem_map.1 hagain
        have hsome : (rest.reverse.lookup name).isSome :=
          List.lookup_isSome_iff.2 ⟨entry, List.mem_reverse.2 hentry, by simp [hsame]⟩
        rw [ih, Option.or_of_isSome hsome]
      case isFalse hnew =>
        have hnone : (lastOfEach rest).lookup name = none :=
          List.lookup_eq_none_iff.2 fun entry hentry => by
            simpa using fun h => hnew (List.mem_map.2 ⟨entry, mem_of_mem_lastOfEach hentry, h.symm⟩)
        simp [hnone]
    · have hbeq : (name == key) = false := beq_false_of_ne hname
      split <;> simp [hbeq, List.lookup_cons]

end

mutual

/-- What a reader finds of an attribute. -/
def Attribute.content (pool : Array Constant) : Attribute → Jvm.Attribute
  | .code _ _ maxStack maxLocals bytes handlers attributes =>
    .code maxStack maxLocals bytes handlers (lastOfEach (entries pool attributes))
  | .constantValue _ _ index => .constantValue index
  | .raw _ bytes => .raw bytes

/-- Attributes with their names. -/
def entries (pool : Array Constant) : List Attribute → List (String × Jvm.Attribute)
  | [] => []
  | a :: rest => (nameAt pool a.name, a.content pool) :: entries pool rest

end

/-- What a reader finds of a list of attributes. -/
def table (pool : Array Constant) (attributes : List Attribute) : AttributeTable :=
  lastOfEach (entries pool attributes)

mutual

/-- The name of the attribute is a text of the pool and belongs to its layout, and the counts fit. -/
def Attribute.Fits (pool : Array Constant) : Attribute → Prop
  | .code name _ _ _ bytes handlers attributes =>
    pool[name.toNat]? = some (.utf8 "Code") ∧ bytes.length < 4294967296 ∧ handlers.length < 65536 ∧
      attributes.length < 65536 ∧ AttributesFit pool attributes
  | .constantValue name _ _ => pool[name.toNat]? = some (.utf8 "ConstantValue")
  | .raw name bytes =>
    (∃ text, pool[name.toNat]? = some (.utf8 text) ∧ text ≠ "Code" ∧ text ≠ "ConstantValue") ∧
      bytes.length < 4294967296

def AttributesFit (pool : Array Constant) : List Attribute → Prop
  | [] => True
  | a :: rest => a.Fits pool ∧ AttributesFit pool rest

end

/-! ## Members and class files -/

structure Member where
  access : UInt16
  name : UInt16
  descriptor : UInt16
  attributes : List Attribute

namespace Member

def write (m : Member) : Bytes :=
  ofWord16 m.access ++ (ofWord16 m.name ++ (ofWord16 m.descriptor ++
    (ofCount m.attributes.length ++ writeAttributes m.attributes)))

def member (pool : Array Constant) (m : Member) : Jvm.Member :=
  ⟨m.access, m.name, m.descriptor, table pool m.attributes⟩

def Fits (pool : Array Constant) (m : Member) : Prop :=
  m.attributes.length < 65536 ∧ AttributesFit pool m.attributes

end Member

structure ClassFile where
  minorVersion : UInt16
  majorVersion : UInt16
  constants : List Constant
  access : UInt16
  thisClass : UInt16
  superClass : UInt16
  interfaces : List UInt16
  fields : List Member
  methods : List Member
  attributes : List Attribute

namespace ClassFile

/-- The bytes of a class file. The count of the constant pool is one more than the slots taken. -/
def write (s : ClassFile) : Bytes :=
  ofWord32 0xcafebabe ++ (ofWord16 s.minorVersion ++ (ofWord16 s.majorVersion ++
    (ofCount (Constant.slotOf s.constants s.constants.length) ++ (s.constants.flatMap Constant.write ++
      (ofWord16 s.access ++ (ofWord16 s.thisClass ++ (ofWord16 s.superClass ++
        (ofList ofWord16 s.interfaces ++ (ofList Member.write s.fields ++ (ofList Member.write s.methods ++
          (ofCount s.attributes.length ++ writeAttributes s.attributes)))))))))))

/-- What a reader finds. -/
def file (s : ClassFile) : Jvm.ClassFile where
  minorVersion := s.minorVersion
  majorVersion := s.majorVersion
  constants := Constant.pool s.constants
  access := s.access
  thisClass := s.thisClass
  superClass := s.superClass
  interfaces := s.interfaces
  fields := s.fields.map (Member.member (Constant.pool s.constants))
  methods := s.methods.map (Member.member (Constant.pool s.constants))
  attributes := table (Constant.pool s.constants) s.attributes

/-- Every count has room in its field, and attributes are named after texts of the pool. -/
structure Fits (s : ClassFile) : Prop where
  constants : ∀ c ∈ s.constants, c.Fits
  slots : Constant.slotOf s.constants s.constants.length < 65536
  interfaces : s.interfaces.length < 65536
  fields : s.fields.length < 65536
  eachField : ∀ m ∈ s.fields, m.Fits (Constant.pool s.constants)
  methods : s.methods.length < 65536
  eachMethod : ∀ m ∈ s.methods, m.Fits (Constant.pool s.constants)
  attributes : s.attributes.length < 65536
  eachAttribute : AttributesFit (Constant.pool s.constants) s.attributes

end ClassFile

end Written

end Jvm
