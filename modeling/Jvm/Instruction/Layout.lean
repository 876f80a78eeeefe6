import Jvm.Bytes
import Jvm.Instruction

/-!
# The layout of one encoded instruction

`Layout.ofByte` says for each opcode byte which operand bytes follow it, and `Encoded.read?` reads
the instruction that starts at a given offset. Only the two switches depend on the offset, through
their padding, and only on its remainder modulo four.

Where a switch ends comes from 32-bit words that may be anything. It is computed within 64 bits, and no
step of that overflows in code of a size that there is (`readTableSwitch?_of_words`,
`readLookupSwitch?_of_words`).
-/

namespace Jvm

/-- How the bytes after an opcode byte are to be read. -/
inductive Layout where
  /-- No operand bytes; the opcode implies the operand. -/
  | implied (operand : Operand Int)
  /-- A signed byte to push. -/
  | byteInt
  /-- A signed 16-bit word to push. -/
  | wordInt
  /-- An 8-bit constant pool index. -/
  | byteIndex
  /-- A 16-bit constant pool index. -/
  | wordIndex
  /-- An 8-bit local variable slot. -/
  | byteSlot
  /-- An 8-bit slot and a signed byte to add to it. -/
  | increment
  /-- A signed 16-bit branch displacement. -/
  | branch
  /-- A second opcode byte with operands of twice the width. -/
  | wide
  /-- Padding, a default displacement, two bounds and a jump table between them. -/
  | tableSwitch
  /-- Padding, a default displacement, a count and so many key and displacement pairs. -/
  | lookupSwitch
  /-- So many operand bytes that no supported opcode needs. -/
  | skipped (count : Nat)
  /-- No instruction starts with this byte, so its length is not known. -/
  | undefined
deriving DecidableEq, Repr

namespace Layout

/-- The layout that an opcode byte announces. -/
def ofByte (byte : UInt8) : Layout :=
  let n := byte.toNat
  if 0x02 ≤ n ∧ n ≤ 0x08 then .implied (.int (Int32.ofInt (n - 3)))
  else if n = 0x10 then .byteInt
  else if n = 0x11 then .wordInt
  else if n = 0x12 then .byteIndex
  else if n = 0x13 ∨ n = 0xb2 ∨ n = 0xb6 ∨ n = 0xb8 then .wordIndex
  else if n = 0x15 ∨ n = 0x19 ∨ n = 0x36 ∨ n = 0x3a then .byteSlot
  else if 0x1a ≤ n ∧ n ≤ 0x1d then .implied (.slot (UInt16.ofNat (n - 0x1a)))
  else if 0x2a ≤ n ∧ n ≤ 0x2d then .implied (.slot (UInt16.ofNat (n - 0x2a)))
  else if 0x3b ≤ n ∧ n ≤ 0x3e then .implied (.slot (UInt16.ofNat (n - 0x3b)))
  else if 0x4b ≤ n ∧ n ≤ 0x4e then .implied (.slot (UInt16.ofNat (n - 0x4b)))
  else if n = 0x84 then .increment
  else if 0x99 ≤ n ∧ n ≤ 0xa4 ∨ n = 0xa7 ∨ n = 0xc6 ∨ n = 0xc7 then .branch
  else if n = 0xc4 then .wide
  else if n = 0xaa then .tableSwitch
  else if n = 0xab then .lookupSwitch
  else if 0xca ≤ n then .undefined
  else if 0x16 ≤ n ∧ n ≤ 0x18 ∨ 0x37 ≤ n ∧ n ≤ 0x39 ∨ n = 0xa9 ∨ n = 0xbc then .skipped 1
  else if n = 0x14 ∨ n = 0xa5 ∨ n = 0xa6 ∨ n = 0xa8 ∨ 0xb3 ≤ n ∧ n ≤ 0xb5 ∨ n = 0xb7 ∨
      n = 0xbb ∨ n = 0xbd ∨ n = 0xc0 ∨ n = 0xc1 then .skipped 2
  else if n = 0xc5 then .skipped 3
  else if n = 0xb9 ∨ n = 0xba ∨ n = 0xc8 ∨ n = 0xc9 then .skipped 4
  else .implied .none

end Layout

/-! ## Where switches end -/

namespace Code

/-- A number, if it is a signed 64-bit one. -/
def signed64? (n : Int) : Option Int :=
  if -0x8000000000000000 ≤ n ∧ n < 0x8000000000000000 then some n else none

/-- A number, if it is an unsigned 64-bit one. -/
def unsigned64? (n : Int) : Option Int := if 0 ≤ n ∧ n < 0x10000000000000000 then some n else none

/-- Where a jump table for the values from `low` to `high` ends that starts at `table`, by 64-bit
arithmetic of which no step may overflow. -/
def jumpTableEnd? (table low high : Int) : Option Int := do
  let span ← signed64? (high - low)
  let entries ← signed64? (span + 1)
  let size ← signed64? (max entries 0 * 4)
  unsigned64? (table + size)

/-- The same for a table of `count` pairs. -/
def pairTableEnd? (table count : Int) : Option Int := do
  let size ← signed64? (max count 0 * 8)
  unsigned64? (table + size)

theorem signed64?_of {n : Int} (hlow : -0x8000000000000000 ≤ n) (hhigh : n < 0x8000000000000000) :
    signed64? n = some n := if_pos ⟨hlow, hhigh⟩

theorem unsigned64?_of {n : Int} (hlow : 0 ≤ n) (hhigh : n < 0x10000000000000000) : unsigned64? n = some n :=
  if_pos ⟨hlow, hhigh⟩

section
variable {table low high count : Int}

/-- However far apart the bounds are. -/
theorem jumpTableEnd?_eq (htable : 0 ≤ table) (hroom : table < 0xf000000000000000)
    (hlow : -0x80000000 ≤ low ∧ low < 0x80000000) (hhigh : -0x80000000 ≤ high ∧ high < 0x80000000) :
    jumpTableEnd? table low high = some (table + 4 * (high - low + 1).toNat) := by
  have hspan : signed64? (high - low) = some (high - low) := signed64?_of (by omega) (by omega)
  have hentries : signed64? (high - low + 1) = some (high - low + 1) := signed64?_of (by omega) (by omega)
  have hsize : signed64? (max (high - low + 1) 0 * 4) = some (max (high - low + 1) 0 * 4) :=
    signed64?_of (by omega) (by omega)
  have hend : unsigned64? (table + max (high - low + 1) 0 * 4) = some (table + max (high - low + 1) 0 * 4) :=
    unsigned64?_of (by omega) (by omega)
  simp only [jumpTableEnd?, hspan, hentries, hsize, hend, Option.bind_eq_bind, Option.bind_some, Option.some.injEq]
  omega

theorem pairTableEnd?_eq (htable : 0 ≤ table) (hroom : table < 0xf000000000000000)
    (hcount : -0x80000000 ≤ count ∧ count < 0x80000000) :
    pairTableEnd? table count = some (table + 8 * count.toNat) := by
  have hsize : signed64? (max count 0 * 8) = some (max count 0 * 8) := signed64?_of (by omega) (by omega)
  have hend : unsigned64? (table + max count 0 * 8) = some (table + max count 0 * 8) :=
    unsigned64?_of (by omega) (by omega)
  simp only [pairTableEnd?, hsize, hend, Option.bind_eq_bind, Option.bind_some, Option.some.injEq]
  omega

end

end Code

/-- One instruction as its bytes give it. -/
structure Encoded where
  opcode : Opcode
  operand : Operand Int
  /-- Number of bytes after the opcode byte. -/
  tail : Nat
deriving DecidableEq, Repr

namespace Encoded

/-- Number of bytes of the instruction. -/
def size (e : Encoded) : Nat := e.tail + 1

/-- Bytes between a switch opcode at `offset` and its first aligned word. -/
def padding (offset : Nat) : Nat := (4 - (offset + 1) % 4) % 4

/-- Reads a signed 32-bit word. -/
def signedWord (a b c d : UInt8) : Int :=
  (Bytes.word32 (Bytes.word16 a b) (Bytes.word16 c d)).toInt32.toInt

/-- An instruction without a decoded operand, unless its `count` operand bytes are missing. -/
def plain? (opcode : Opcode) (count : Nat) (rest : Bytes) : Option Encoded :=
  if rest.hasAtLeast count then some ⟨opcode, .none, count⟩ else none

/-- Reads what follows a `wide` opcode byte. -/
def readWide? : Bytes → Option Encoded
  | inner :: hi :: lo :: rest =>
    let index := Bytes.word16 hi lo
    match Layout.ofByte inner with
    | .increment =>
      match rest with
      | hi :: lo :: _ =>
        some ⟨.ofByte inner, .increment index (Bytes.word16 hi lo).toInt16.toInt32, 5⟩
      | _ => none
    | .byteSlot => some ⟨.ofByte inner, .slot index, 3⟩
    | _ => some ⟨.unknown inner, .none, 3⟩
  | _ => none

/-- Reads the operands of a `tableswitch` at `offset`. -/
def readTableSwitch? (opcode : Opcode) (offset : Nat) (rest : Bytes) : Option Encoded :=
  match rest.drop (padding offset) with
  | _ :: _ :: _ :: _ :: l₃ :: l₂ :: l₁ :: l₀ :: h₃ :: h₂ :: h₁ :: h₀ :: _ =>
    let entries := (signedWord h₃ h₂ h₁ h₀ - signedWord l₃ l₂ l₁ l₀ + 1).toNat
    plain? opcode (padding offset + 12 + 4 * entries) rest
  | _ => none

/-- Reads the operands of a `lookupswitch` at `offset`. -/
def readLookupSwitch? (opcode : Opcode) (offset : Nat) (rest : Bytes) : Option Encoded :=
  match rest.drop (padding offset) with
  | _ :: _ :: _ :: _ :: n₃ :: n₂ :: n₁ :: n₀ :: _ =>
    plain? opcode (padding offset + 8 + 8 * (signedWord n₃ n₂ n₁ n₀).toNat) rest
  | _ => none

theorem signedWord_bounds (a b c d : UInt8) : -0x80000000 ≤ signedWord a b c d ∧ signedWord a b c d < 0x80000000 :=
  ⟨Int32.le_toInt _, Int32.toInt_lt _⟩

/-- A `tableswitch` is read as far as 64-bit arithmetic says. -/
theorem readTableSwitch?_of_words {opcode : Opcode} {offset : Nat} {rest more : Bytes}
    {d₃ d₂ d₁ d₀ l₃ l₂ l₁ l₀ h₃ h₂ h₁ h₀ : UInt8} (hroom : offset < 0x8000000000000000)
    (hrest : rest.drop (padding offset) =
      d₃ :: d₂ :: d₁ :: d₀ :: l₃ :: l₂ :: l₁ :: l₀ :: h₃ :: h₂ :: h₁ :: h₀ :: more) :
    ∃ tail : Nat, Code.jumpTableEnd? (offset + 1 + padding offset + 12 : Nat) (signedWord l₃ l₂ l₁ l₀)
        (signedWord h₃ h₂ h₁ h₀) = some ((offset + 1 + tail : Nat) : Int) ∧
      readTableSwitch? opcode offset rest = plain? opcode tail rest := by
  have hpadding : padding offset < 4 := Nat.mod_lt _ (by decide)
  have hend := Code.jumpTableEnd?_eq (Int.natCast_nonneg (offset + 1 + padding offset + 12)) (by omega)
    (signedWord_bounds l₃ l₂ l₁ l₀) (signedWord_bounds h₃ h₂ h₁ h₀)
  refine ⟨_, hend.trans (congrArg some ?_), by rw [readTableSwitch?, hrest]⟩
  omega

/-- A `lookupswitch` is, too. -/
theorem readLookupSwitch?_of_words {opcode : Opcode} {offset : Nat} {rest more : Bytes}
    {d₃ d₂ d₁ d₀ n₃ n₂ n₁ n₀ : UInt8} (hroom : offset < 0x8000000000000000)
    (hrest : rest.drop (padding offset) = d₃ :: d₂ :: d₁ :: d₀ :: n₃ :: n₂ :: n₁ :: n₀ :: more) :
    ∃ tail : Nat, Code.pairTableEnd? (offset + 1 + padding offset + 8 : Nat) (signedWord n₃ n₂ n₁ n₀) =
        some ((offset + 1 + tail : Nat) : Int) ∧
      readLookupSwitch? opcode offset rest = plain? opcode tail rest := by
  have hpadding : padding offset < 4 := Nat.mod_lt _ (by decide)
  have hend := Code.pairTableEnd?_eq (Int.natCast_nonneg (offset + 1 + padding offset + 8)) (by omega)
    (signedWord_bounds n₃ n₂ n₁ n₀)
  refine ⟨_, hend.trans (congrArg some ?_), by rw [readLookupSwitch?, hrest]⟩
  omega

/-- Reads the instruction at `offset` that starts with `byte` and goes on in `rest`; `none` when
its operands run past the end. -/
def read? (offset : Nat) (byte : UInt8) (rest : Bytes) : Option Encoded :=
  let opcode := Opcode.ofByte byte
  match Layout.ofByte byte, rest with
  | .implied operand, _ => some ⟨opcode, operand, 0⟩
  | .byteInt, a :: _ => some ⟨opcode, .int a.toInt8.toInt32, 1⟩
  | .wordInt, a :: b :: _ => some ⟨opcode, .int (Bytes.word16 a b).toInt16.toInt32, 2⟩
  | .byteIndex, a :: _ => some ⟨opcode, .index a.toUInt16, 1⟩
  | .wordIndex, a :: b :: _ => some ⟨opcode, .index (Bytes.word16 a b), 2⟩
  | .byteSlot, a :: _ => some ⟨opcode, .slot a.toUInt16, 1⟩
  | .increment, a :: b :: _ => some ⟨opcode, .increment a.toUInt16 b.toInt8.toInt32, 2⟩
  | .branch, a :: b :: _ => some ⟨opcode, .branch (Bytes.word16 a b).toInt16.toInt, 2⟩
  | .wide, rest => readWide? rest
  | .tableSwitch, rest => readTableSwitch? opcode offset rest
  | .lookupSwitch, rest => readLookupSwitch? opcode offset rest
  | .skipped count, rest => plain? opcode count rest
  | .undefined, _ => some ⟨opcode, .none, 0⟩
  | _, _ => none

end Encoded

end Jvm
