import Jvm.Text.Slice

/-!
# Field and method descriptors

A field descriptor spells a type: a letter for a primitive, `L` with a class name and `;` for a
reference, `[` and a field descriptor for an array. A method descriptor lists the parameters in
round brackets and then spells the result, where `V` stands for none. A descriptor at the front of a
text is measured in bytes, and the text is cut behind it.
-/

namespace Jvm

open Text

/-- The primitive types. -/
inductive Primitive where
  | boolean | byte | char | short | int | long | float | double
deriving DecidableEq, Repr

namespace Primitive

/-- The primitive type that a descriptor letter names. -/
def ofLetter? : Char → Option Primitive
  | 'Z' => some .boolean
  | 'B' => some .byte
  | 'C' => some .char
  | 'S' => some .short
  | 'I' => some .int
  | 'J' => some .long
  | 'F' => some .float
  | 'D' => some .double
  | _ => none

/-- Words that a value of the type takes. -/
def words : Primitive → Nat
  | .long | .double => 2
  | _ => 1

end Primitive

/-- The shape of a type: references drop the name of their class. -/
inductive FieldType where
  | primitive (type : Primitive)
  | reference
  | array (element : FieldType)
deriving DecidableEq, Repr

namespace FieldType

/-- Words that a value of the type takes. -/
def words : FieldType → Nat
  | .primitive type => type.words
  | _ => 1

/-- Whether a value of the type takes two words. -/
def isWide (type : FieldType) : Bool := type.words == 2

/-- Reads the type that a text starts with and the number of bytes that spell it. No result, `V`, is
a type here, though there is no array of it; a class name has at least one character. -/
def decode (text : List Char) : Except CutError (Option (Option FieldType × Nat)) :=
  match text with
  | [] => .ok none
  | c :: tail =>
    if c = 'V' then .ok (some (none, 1))
    else if c = 'L' then
      .ok ((find? ';' (c :: tail)).bind fun last =>
        if 1 < last then some (some .reference, last + 1) else none)
    else if c = '[' then
      match hcut : cutAt 1 (c :: tail) with
      | .error e => .error e
      | .ok rest =>
        have : rest.length < tail.length + 1 := length_lt_of_cutAt hcut Nat.one_pos
        match decode rest with
        | .error e => .error e
        | .ok none => .ok none
        | .ok (some (none, _)) => .ok none
        | .ok (some (some element, length)) => .ok (some (some (.array element), length + 1))
    else .ok ((Primitive.ofLetter? c).map fun type => (some (.primitive type), 1))
termination_by text.length

/-- A type takes at least one byte. -/
theorem pos_of_decode {text : List Char} {result : Option FieldType} {length : Nat}
    (h : decode text = .ok (some (result, length))) : 0 < length := by
  unfold decode at h
  grind [Option.bind_eq_some_iff, Option.map_eq_some_iff]

/-- Reads field descriptors until the text ends. Each is cut off after the bytes that spell it. -/
def decodeAll (text : List Char) : Except CutError (Option (List FieldType)) :=
  if text = [] then .ok (some [])
  else
    match hread : decode text with
    | .error e => .error e
    | .ok none => .ok none
    | .ok (some (none, _)) => .ok none
    | .ok (some (some type, length)) =>
      match hcut : cutAt length text with
      | .error e => .error e
      | .ok rest =>
        have : rest.length < text.length := length_lt_of_cutAt hcut (pos_of_decode hread)
        (decodeAll rest).map (·.map (type :: ·))
termination_by text.length

end FieldType

/-- What a method takes and gives; `none` is no result. -/
structure MethodType where
  parameters : List FieldType
  result : Option FieldType
deriving DecidableEq, Repr

namespace MethodType

/-- The method type with these parameters and this result. The result has no line feed, and takes all
of its text. -/
def decodeParts (parameters result : List Char) : Except CutError (Option MethodType) :=
  if result = [] ∨ '\n' ∈ result then .ok none
  else do
    let some parameters ← FieldType.decodeAll parameters | return none
    let some (type, length) ← FieldType.decode result | return none
    return if length = byteLength result then some ⟨parameters, type⟩ else none

/-- Reads a method descriptor. The parameters end at the first closing bracket. -/
def decode (text : String) : Except CutError (Option MethodType) :=
  match text.toList with
  | '(' :: inner =>
    match inner.dropWhile (· ≠ ')') with
    | [] => .ok none
    | _ :: result => decodeParts (inner.takeWhile (· ≠ ')')) result
  | _ => .ok none

/-- The method type that a descriptor spells. Reading it never cuts within a character. -/
def ofDescriptor? (text : String) : Option MethodType :=
  match decode text with
  | .ok type => type
  | .error _ => none

end MethodType

/-- The type that a descriptor text starts with, and the number of UTF-8 bytes that spell it. -/
def leadingType? (text : String) : Option (Option FieldType × Nat) :=
  match FieldType.decode text.toList with
  | .ok found => found
  | .error _ => none

end Jvm
