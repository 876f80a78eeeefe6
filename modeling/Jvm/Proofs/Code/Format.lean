import Mathlib
import Jvm.Instruction.Decode

/-!
# The instruction format by byte position

What stands at an offset of a code array, said by looking at the bytes at and after it: the opcode,
the operand and the length of the instruction. Opcodes have a table of bytes, lengths a table by
opcode byte, and operands are given by mnemonic; the reader `Encoded.read?` knows none of these.

Main theorem `read?_eq`: the reader gives exactly what the format says, and fails exactly when the
instruction runs past the end.
-/

namespace Jvm

/-! ## Words at a position -/

namespace Bytes

/-- The byte at a position; zero past the end. -/
def byteAt (code : Bytes) (i : Nat) : UInt8 := code.getD i 0

def unsigned8 (code : Bytes) (i : Nat) : Nat := (code.byteAt i).toNat

def unsigned16 (code : Bytes) (i : Nat) : Nat := code.unsigned8 i * 256 + code.unsigned8 (i + 1)

def unsigned32 (code : Bytes) (i : Nat) : Nat := code.unsigned16 i * 65536 + code.unsigned16 (i + 2)

def signed8 (code : Bytes) (i : Nat) : Int := (code.unsigned8 i : Int).bmod 256

def signed16 (code : Bytes) (i : Nat) : Int := (code.unsigned16 i : Int).bmod 65536

def signed32 (code : Bytes) (i : Nat) : Int := (code.unsigned32 i : Int).bmod 4294967296

section

theorem toInt_toInt8 (a : UInt8) : a.toInt8.toInt = (a.toNat : Int).bmod 256 := by
  rw [← Int8.toInt_toBitVec, BitVec.toInt_eq_toNat_bmod]
  rfl

theorem toInt_toInt16 (a : UInt16) : a.toInt16.toInt = (a.toNat : Int).bmod 65536 := by
  rw [← Int16.toInt_toBitVec, BitVec.toInt_eq_toNat_bmod]
  rfl

theorem toInt_toInt32 (a : UInt32) : a.toInt32.toInt = (a.toNat : Int).bmod 4294967296 := by
  rw [← Int32.toInt_toBitVec, BitVec.toInt_eq_toNat_bmod]
  rfl

theorem toNat_word16 (hi lo : UInt8) : (word16 hi lo).toNat = hi.toNat * 256 + lo.toNat := by
  have hhi := hi.toNat_lt
  have hlo := lo.toNat_lt
  rw [word16, UInt16.toNat_ofNat', Nat.mod_eq_of_lt (by omega)]

theorem toNat_word32 (hi lo : UInt16) : (word32 hi lo).toNat = hi.toNat * 65536 + lo.toNat := by
  have hhi := hi.toNat_lt
  have hlo := lo.toNat_lt
  rw [word32, UInt32.toNat_ofNat', Nat.mod_eq_of_lt (by omega)]

variable (code : Bytes) (i : Nat)

theorem toUInt16_byteAt : (code.byteAt i).toUInt16 = .ofNat (code.unsigned8 i) := by
  simp [unsigned8]

theorem toInt_byteAt : (code.byteAt i).toInt8.toInt = code.signed8 i := toInt_toInt8 _

theorem toInt32_byteAt : (code.byteAt i).toInt8.toInt32 = .ofInt (code.signed8 i) := by
  rw [← toInt_byteAt, ← Int8.toInt_toInt32, Int32.ofInt_toInt]

theorem word16_byteAt : word16 (code.byteAt i) (code.byteAt (i + 1)) = .ofNat (code.unsigned16 i) := rfl

theorem toInt_word16_byteAt :
    (word16 (code.byteAt i) (code.byteAt (i + 1))).toInt16.toInt = code.signed16 i := by
  rw [toInt_toInt16, toNat_word16]
  rfl

theorem toInt32_word16_byteAt :
    (word16 (code.byteAt i) (code.byteAt (i + 1))).toInt16.toInt32 = .ofInt (code.signed16 i) := by
  rw [← toInt_word16_byteAt, ← Int16.toInt_toInt32, Int32.ofInt_toInt]

theorem signedWord_byteAt :
    Encoded.signedWord (code.byteAt i) (code.byteAt (i + 1)) (code.byteAt (i + 2)) (code.byteAt (i + 3)) =
      code.signed32 i := by
  rw [Encoded.signedWord, toInt_toInt32, toNat_word32, toNat_word16, toNat_word16]
  rfl

variable {code i}

theorem length_of_drop {rest : Bytes} (h : code.drop i = rest) : code.length - i = rest.length := by
  rw [← h, List.length_drop]

theorem drop_eq_cons (h : i < code.length) : code.drop i = code.byteAt i :: code.drop (i + 1) := by
  rw [List.drop_eq_getElem_cons h, byteAt, List.getD_eq_getElem?_getD, List.getElem?_eq_getElem h,
    Option.getD_some]

/-- Four bytes at once, as the words of a switch need them. -/
theorem drop_eq_word (h : i + 4 ≤ code.length) :
    code.drop i = code.byteAt i :: code.byteAt (i + 1) :: code.byteAt (i + 2) :: code.byteAt (i + 3) ::
      code.drop (i + 4) := by
  rw [drop_eq_cons (show i < code.length by omega), drop_eq_cons (show i + 1 < code.length by omega),
    drop_eq_cons (show i + 2 < code.length by omega), drop_eq_cons (show i + 3 < code.length by omega)]

end

end Bytes

/-! ## Opcodes -/

/-- The byte that encodes an opcode. -/
def Opcode.byte : Opcode → UInt8
  | .nop => 0x00 | .aconstNull => 0x01
  | .iconstM1 => 0x02 | .iconst0 => 0x03 | .iconst1 => 0x04 | .iconst2 => 0x05
  | .iconst3 => 0x06 | .iconst4 => 0x07 | .iconst5 => 0x08
  | .bipush => 0x10 | .sipush => 0x11 | .ldc => 0x12 | .ldcW => 0x13
  | .iload => 0x15 | .aload => 0x19
  | .iload0 => 0x1a | .iload1 => 0x1b | .iload2 => 0x1c | .iload3 => 0x1d
  | .aload0 => 0x2a | .aload1 => 0x2b | .aload2 => 0x2c | .aload3 => 0x2d
  | .istore => 0x36 | .astore => 0x3a
  | .istore0 => 0x3b | .istore1 => 0x3c | .istore2 => 0x3d | .istore3 => 0x3e
  | .astore0 => 0x4b | .astore1 => 0x4c | .astore2 => 0x4d | .astore3 => 0x4e
  | .pop => 0x57 | .dup => 0x59 | .swap => 0x5f
  | .iadd => 0x60 | .isub => 0x64 | .imul => 0x68 | .idiv => 0x6c | .irem => 0x70 | .ineg => 0x74
  | .iinc => 0x84
  | .ifeq => 0x99 | .ifne => 0x9a | .iflt => 0x9b | .ifge => 0x9c | .ifgt => 0x9d | .ifle => 0x9e
  | .ifIcmpeq => 0x9f | .ifIcmpne => 0xa0 | .ifIcmplt => 0xa1 | .ifIcmpge => 0xa2
  | .ifIcmpgt => 0xa3 | .ifIcmple => 0xa4 | .goto => 0xa7
  | .ireturn => 0xac | .areturn => 0xb0 | .ret => 0xb1
  | .getstatic => 0xb2 | .invokevirtual => 0xb6 | .invokestatic => 0xb8
  | .ifnull => 0xc6 | .ifnonnull => 0xc7
  | .unknown byte => byte

/-- The opcode is outside the supported set. -/
def Opcode.isUnknown : Opcode → Bool
  | .unknown _ => true
  | _ => false

namespace Format

/-- `op` is the opcode of `byte`: a supported one if there is one with that byte, else the unknown one. -/
def Names (op : Opcode) (byte : UInt8) : Prop :=
  op.byte = byte ∧ (op.isUnknown = true → ∀ other : Opcode, other.byte = byte → other = op)

/-- `op` is the opcode of `inner` after `wide`, which only loads, stores and `iinc` may follow. -/
def WideNames (op : Opcode) (inner : UInt8) : Prop :=
  op.byte = inner ∧
    if inner ∈ [0x15, 0x19, 0x36, 0x3a, 0x84] then op.isUnknown = false else op = .unknown inner

/-- `op` is the opcode of the instruction at `offset`. -/
def Encodes (op : Opcode) (code : Bytes) (offset : Nat) : Prop :=
  if code.byteAt offset = 0xc4 then WideNames op (code.byteAt (offset + 1)) else Names op (code.byteAt offset)

/-- Bytes of the instruction that an opcode byte starts, where it is the same for all of them. The
two switches, `wide` and the undefined bytes have no such length. -/
def fixedLength : List Nat := [
  1, 1, 1, 1, 1, 1, 1, 1, 1, 1, 1, 1, 1, 1, 1, 1,
  2, 3, 2, 3, 3, 2, 2, 2, 2, 2, 1, 1, 1, 1, 1, 1,
  1, 1, 1, 1, 1, 1, 1, 1, 1, 1, 1, 1, 1, 1, 1, 1,
  1, 1, 1, 1, 1, 1, 2, 2, 2, 2, 2, 1, 1, 1, 1, 1,
  1, 1, 1, 1, 1, 1, 1, 1, 1, 1, 1, 1, 1, 1, 1, 1,
  1, 1, 1, 1, 1, 1, 1, 1, 1, 1, 1, 1, 1, 1, 1, 1,
  1, 1, 1, 1, 1, 1, 1, 1, 1, 1, 1, 1, 1, 1, 1, 1,
  1, 1, 1, 1, 1, 1, 1, 1, 1, 1, 1, 1, 1, 1, 1, 1,
  1, 1, 1, 1, 3, 1, 1, 1, 1, 1, 1, 1, 1, 1, 1, 1,
  1, 1, 1, 1, 1, 1, 1, 1, 1, 3, 3, 3, 3, 3, 3, 3,
  3, 3, 3, 3, 3, 3, 3, 3, 3, 2, 0, 0, 1, 1, 1, 1,
  1, 1, 3, 3, 3, 3, 3, 3, 3, 5, 5, 3, 2, 3, 1, 1,
  3, 3, 1, 1, 0, 4, 3, 3, 5, 5]

/-- Whether instructions may start with a byte. -/
def defined (byte : UInt8) : Bool := byte.toNat < 0xca

/-- Bytes between the opcode of a switch at `offset` and the next multiple of four. -/
def padding (offset : Nat) : Nat := 3 - offset % 4

/-- Bytes of the instruction at `offset`. One that starts with an undefined byte counts as that byte. -/
def length (code : Bytes) (offset : Nat) : Nat :=
  match (code.byteAt offset).toNat with
  | 0xc4 => if code.unsigned8 (offset + 1) = 0x84 then 6 else 4
  | 0xaa =>
    let words := offset + 1 + padding offset
    1 + padding offset + 12 + 4 * (code.signed32 (words + 8) - code.signed32 (words + 4) + 1).toNat
  | 0xab =>
    let words := offset + 1 + padding offset
    1 + padding offset + 8 + 8 * (code.signed32 (words + 4)).toNat
  | byte => if byte < 0xca then fixedLength.getD byte 0 else 1

/-! ## Operands -/

/-- The operand of an opcode that has none in the code. -/
def impliedOperand : Opcode → Operand Int
  | .iconstM1 => .int (-1) | .iconst0 => .int 0 | .iconst1 => .int 1 | .iconst2 => .int 2
  | .iconst3 => .int 3 | .iconst4 => .int 4 | .iconst5 => .int 5
  | .iload0 | .aload0 | .istore0 | .astore0 => .slot 0
  | .iload1 | .aload1 | .istore1 | .astore1 => .slot 1
  | .iload2 | .aload2 | .istore2 | .astore2 => .slot 2
  | .iload3 | .aload3 | .istore3 | .astore3 => .slot 3
  | _ => .none

/-- The operand of an opcode, with its bytes from position `i` on. -/
def narrowOperand (op : Opcode) (code : Bytes) (i : Nat) : Operand Int :=
  match op with
  | .bipush => .int (.ofInt (code.signed8 i))
  | .sipush => .int (.ofInt (code.signed16 i))
  | .ldc => .index (.ofNat (code.unsigned8 i))
  | .ldcW | .getstatic | .invokevirtual | .invokestatic => .index (.ofNat (code.unsigned16 i))
  | .iload | .aload | .istore | .astore => .slot (.ofNat (code.unsigned8 i))
  | .iinc => .increment (.ofNat (code.unsigned8 i)) (.ofInt (code.signed8 (i + 1)))
  | .ifeq | .ifne | .iflt | .ifge | .ifgt | .ifle
  | .ifIcmpeq | .ifIcmpne | .ifIcmplt | .ifIcmpge | .ifIcmpgt | .ifIcmple
  | .goto | .ifnull | .ifnonnull => .branch (code.signed16 i)
  | op => impliedOperand op

/-- The operand of an opcode after `wide`, with its bytes from position `i` on. -/
def wideOperand (op : Opcode) (code : Bytes) (i : Nat) : Operand Int :=
  match op with
  | .iload | .aload | .istore | .astore => .slot (.ofNat (code.unsigned16 i))
  | .iinc => .increment (.ofNat (code.unsigned16 i)) (.ofInt (code.signed16 (i + 2)))
  | _ => .none

/-- The opcode after `wide` where the machine has its wide form, and else an unknown one. -/
def wideOpcode (inner : UInt8) : Opcode :=
  match Opcode.ofByte inner with
  | .iload => .iload
  | .aload => .aload
  | .istore => .istore
  | .astore => .astore
  | .iinc => .iinc
  | _ => .unknown inner

/-- The opcode of the instruction at `offset`. -/
def opcode (code : Bytes) (offset : Nat) : Opcode :=
  if code.byteAt offset = 0xc4 then wideOpcode (code.byteAt (offset + 1))
  else .ofByte (code.byteAt offset)

/-- The operand of the instruction at `offset`, of which the opcode is known. That of a branch is a
displacement from `offset`. -/
def operand (op : Opcode) (code : Bytes) (offset : Nat) : Operand Int :=
  if code.byteAt offset = 0xc4 then wideOperand op code (offset + 2)
  else narrowOperand op code (offset + 1)

/-! ## The tables agree -/

theorem forall_byte {p : UInt8 → Prop} (h : ∀ n < 256, p (.ofNat n)) (byte : UInt8) : p byte := by
  have := h byte.toNat byte.toNat_lt
  rwa [UInt8.ofNat_toNat] at this

/-- Every instruction that starts with `byte` has `n` bytes. -/
def Fixed (byte : UInt8) (n : Nat) : Prop :=
  byte ∉ [0xaa, 0xab, 0xc4] ∧ defined byte ∧ fixedLength.getD byte.toNat 0 = n

instance (byte : UInt8) (n : Nat) : Decidable (Fixed byte n) := by
  unfold Fixed
  infer_instance

def indexOpcodes : List Opcode := [.ldcW, .getstatic, .invokevirtual, .invokestatic]

def slotOpcodes : List Opcode := [.iload, .aload, .istore, .astore]

def branchOpcodes : List Opcode := [
  .ifeq, .ifne, .iflt, .ifge, .ifgt, .ifle, .ifIcmpeq, .ifIcmpne, .ifIcmplt, .ifIcmpge, .ifIcmpgt,
  .ifIcmple, .goto, .ifnull, .ifnonnull]

/-- Opcodes with operand bytes that the machine reads. -/
def explicitOpcodes : List Opcode :=
  [.bipush, .sipush, .ldc, .iinc] ++ indexOpcodes ++ slotOpcodes ++ branchOpcodes

/-- What the tables by opcode byte must say of a byte that has the given layout. -/
def Suits (byte : UInt8) : Layout → Prop
  | .implied operand =>
    Fixed byte 1 ∧ .ofByte byte ∉ explicitOpcodes ∧ impliedOperand (.ofByte byte) = operand
  | .byteInt => Fixed byte 2 ∧ .ofByte byte = Opcode.bipush
  | .wordInt => Fixed byte 3 ∧ .ofByte byte = Opcode.sipush
  | .byteIndex => Fixed byte 2 ∧ .ofByte byte = Opcode.ldc
  | .wordIndex => Fixed byte 3 ∧ .ofByte byte ∈ indexOpcodes
  | .byteSlot => Fixed byte 2 ∧ .ofByte byte ∈ slotOpcodes
  | .increment => Fixed byte 3 ∧ .ofByte byte = Opcode.iinc
  | .branch => Fixed byte 3 ∧ .ofByte byte ∈ branchOpcodes
  | .wide => byte = 0xc4
  | .tableSwitch => byte = 0xaa
  | .lookupSwitch => byte = 0xab
  | .skipped count => Fixed byte (count + 1) ∧ .ofByte byte = Opcode.unknown byte
  | .undefined => ¬defined byte ∧ .ofByte byte = Opcode.unknown byte

instance (byte : UInt8) (layout : Layout) : Decidable (Suits byte layout) := by
  cases layout <;> unfold Suits <;> infer_instance

theorem suits_ofByte (byte : UInt8) : Suits byte (Layout.ofByte byte) :=
  forall_byte (p := fun byte => Suits byte (Layout.ofByte byte)) (by decide +kernel) byte

/-- Only the undefined bytes have no layout. -/
theorem undefined_iff (byte : UInt8) : Layout.ofByte byte = .undefined ↔ ¬defined byte :=
  forall_byte (p := fun byte => Layout.ofByte byte = .undefined ↔ ¬defined byte) (by decide +kernel) byte

/-- The byte after `wide` decides by its own layout whether the wide form is supported. -/
theorem wideOpcode_eq (inner : UInt8) :
    wideOpcode inner = match Layout.ofByte inner with
      | .increment | .byteSlot => .ofByte inner
      | _ => .unknown inner :=
  forall_byte (p := fun inner => wideOpcode inner = match Layout.ofByte inner with
      | .increment | .byteSlot => .ofByte inner
      | _ => .unknown inner) (by decide +kernel) inner

theorem increment_iff (byte : UInt8) : Layout.ofByte byte = .increment ↔ byte.toNat = 0x84 :=
  forall_byte (p := fun byte => Layout.ofByte byte = .increment ↔ byte.toNat = 0x84) (by decide +kernel) byte

theorem ofByte_byte (op : Opcode) (h : op.isUnknown = false) : .ofByte op.byte = op := by
  cases op <;> first | rfl | cases h

theorem names_ofByte (byte : UInt8) : Names (.ofByte byte) byte := by
  have hbyte : (Opcode.ofByte byte).byte = byte :=
    forall_byte (p := fun byte => (Opcode.ofByte byte).byte = byte) (by decide +kernel) byte
  refine ⟨hbyte, fun hunknown other hother => ?_⟩
  cases hop : other.isUnknown with
  | false => rw [← ofByte_byte other hop, hother]
  | true =>
    -- Two unknown opcodes with one byte are the same.
    cases h : Opcode.ofByte byte with
    | unknown b => cases other <;> simp_all [Opcode.isUnknown, Opcode.byte]
    | _ => simp [h, Opcode.isUnknown] at hunknown

theorem wideNames_wideOpcode (inner : UInt8) : WideNames (wideOpcode inner) inner :=
  forall_byte (p := fun inner => WideNames (wideOpcode inner) inner)
    (by unfold WideNames; decide +kernel) inner

theorem encodes_opcode (code : Bytes) (offset : Nat) : Encodes (opcode code offset) code offset := by
  unfold Encodes opcode
  split
  · exact wideNames_wideOpcode _
  · exact names_ofByte _

theorem narrowOperand_implied {op : Opcode} (h : op ∉ explicitOpcodes) (code : Bytes) (i : Nat) :
    narrowOperand op code i = impliedOperand op := by
  cases op <;> first | rfl | exact absurd (by decide) h

theorem narrowOperand_index {op : Opcode} (h : op ∈ indexOpcodes) (code : Bytes) (i : Nat) :
    narrowOperand op code i = .index (.ofNat (code.unsigned16 i)) := by
  fin_cases h <;> rfl

theorem narrowOperand_slot {op : Opcode} (h : op ∈ slotOpcodes) (code : Bytes) (i : Nat) :
    narrowOperand op code i = .slot (.ofNat (code.unsigned8 i)) := by
  fin_cases h <;> rfl

theorem narrowOperand_branch {op : Opcode} (h : op ∈ branchOpcodes) (code : Bytes) (i : Nat) :
    narrowOperand op code i = .branch (code.signed16 i) := by
  fin_cases h <;> rfl

/-- Only the operands of branches hold displacements. -/
theorem mem_branchOpcodes {op : Opcode} {code : Bytes} {offset : Nat} {displacement : Int}
    (h : operand op code offset = .branch displacement) : op ∈ branchOpcodes := by
  unfold operand at h
  split at h
  · cases op <;> simp [wideOperand] at h
  · cases op <;> first | decide | simp [narrowOperand, impliedOperand] at h

theorem wideOperand_slot {op : Opcode} (h : op ∈ slotOpcodes) (code : Bytes) (i : Nat) :
    wideOperand op code i = .slot (.ofNat (code.unsigned16 i)) := by
  fin_cases h <;> rfl

section
variable {code : Bytes} {offset n : Nat}

theorem length_of_fixed (h : Fixed (code.byteAt offset) n) : length code offset = n := by
  obtain ⟨hbyte, hdefined, hn⟩ := h
  simp only [List.mem_cons, List.not_mem_nil, or_false, not_or, ← UInt8.toNat_inj] at hbyte
  obtain ⟨htable, hlookup, hwide⟩ := hbyte
  simp only [defined, decide_eq_true_eq] at hdefined
  unfold length
  split
  · exact absurd ‹_› hwide
  · exact absurd ‹_› htable
  · exact absurd ‹_› hlookup
  · rw [if_pos hdefined, hn]

theorem length_pos (code : Bytes) (offset : Nat) : 0 < length code offset := by
  have htable := forall_byte (p := fun byte => byte ∉ [0xaa, 0xab, 0xc4] → defined byte →
    0 < fixedLength.getD byte.toNat 0) (by decide +kernel) (code.byteAt offset)
  unfold length
  split
  · split <;> omega
  · dsimp only
    omega
  · dsimp only
    omega
  · rename_i hwide hswitch hlookup
    split
    · refine htable ?_ (decide_eq_true ‹_›)
      simp only [List.mem_cons, List.not_mem_nil, or_false, not_or, ← UInt8.toNat_inj]
      exact ⟨hswitch, hlookup, hwide⟩
    · omega

theorem length_of_undefined (h : ¬defined (code.byteAt offset)) : length code offset = 1 := by
  simp only [defined, decide_eq_true_eq] at h
  unfold length
  split
  · omega
  · omega
  · omega
  · exact if_neg h

theorem length_tableSwitch (h : code.byteAt offset = 0xaa) :
    length code offset = 1 + padding offset + 12 +
      4 * (code.signed32 (offset + 1 + padding offset + 8) - code.signed32 (offset + 1 + padding offset + 4) + 1).toNat := by
  unfold length
  rw [h]
  rfl

theorem length_lookupSwitch (h : code.byteAt offset = 0xab) :
    length code offset =
      1 + padding offset + 8 + 8 * (code.signed32 (offset + 1 + padding offset + 4)).toNat := by
  unfold length
  rw [h]
  rfl

theorem length_wide (h : code.byteAt offset = 0xc4) :
    length code offset = if Layout.ofByte (code.byteAt (offset + 1)) = .increment then 6 else 4 := by
  unfold length
  rw [h]
  exact if_congr (increment_iff _).symm rfl rfl

theorem ne_wide_of_fixed (h : Fixed (code.byteAt offset) n) : code.byteAt offset ≠ 0xc4 :=
  fun hw => h.1 (by simp [hw])

theorem opcode_of_ne_wide (h : code.byteAt offset ≠ 0xc4) :
    opcode code offset = .ofByte (code.byteAt offset) := if_neg h

theorem opcode_of_undefined (h : ¬defined (code.byteAt offset)) :
    opcode code offset = .unknown (code.byteAt offset) := by
  have hwide : code.byteAt offset ≠ 0xc4 := fun hw => h (by rw [hw]; rfl)
  have hsuits := suits_ofByte (code.byteAt offset)
  rw [(undefined_iff _).2 h] at hsuits
  rw [opcode_of_ne_wide hwide, hsuits.2]

theorem operand_unknown (byte : UInt8) (code : Bytes) (offset : Nat) :
    operand (.unknown byte) code offset = .none := by
  unfold operand
  split <;> rfl

theorem operand_of_ne_wide (op : Opcode) (h : code.byteAt offset ≠ 0xc4) :
    operand op code offset = narrowOperand op code (offset + 1) := if_neg h

end

/-! ## The reader -/

section
variable {code : Bytes} {offset : Nat}

/-- The instruction at `offset`, or nothing if it runs past the end. -/
def instruction? (code : Bytes) (offset : Nat) : Option Encoded :=
  if offset + length code offset ≤ code.length then
    some ⟨opcode code offset, operand (opcode code offset) code offset, length code offset - 1⟩
  else none

theorem instruction?_fixed {n : Nat} (h : Fixed (code.byteAt offset) n) :
    instruction? code offset =
      if offset + n ≤ code.length then
        some ⟨.ofByte (code.byteAt offset), narrowOperand (.ofByte (code.byteAt offset)) code (offset + 1), n - 1⟩
      else none := by
  have hwide := ne_wide_of_fixed h
  rw [instruction?, length_of_fixed h, opcode_of_ne_wide hwide, operand_of_ne_wide _ hwide]

theorem plain?_eq (op : Opcode) (count : Nat) (h : offset < code.length) :
    Encoded.plain? op count (code.drop (offset + 1)) =
      if offset + (count + 1) ≤ code.length then some ⟨op, .none, count⟩ else none := by
  unfold Encoded.plain?
  refine if_congr ?_ rfl rfl
  rw [Bytes.hasAtLeast_iff, List.length_drop]
  omega

theorem padding_eq (offset : Nat) : Encoded.padding offset = padding offset := by
  unfold Encoded.padding padding
  omega

theorem readTableSwitch?_eq (h : offset < code.length) (hbyte : code.byteAt offset = 0xaa) :
    Encoded.readTableSwitch? (.ofByte (code.byteAt offset)) offset (code.drop (offset + 1)) =
      instruction? code offset := by
  have hwide : code.byteAt offset ≠ 0xc4 := by simp [hbyte]
  unfold Encoded.readTableSwitch? instruction?
  rw [List.drop_drop, padding_eq, length_tableSwitch hbyte, opcode_of_ne_wide hwide,
    operand_of_ne_wide _ hwide, hbyte]
  by_cases hlen : offset + 1 + padding offset + 12 ≤ code.length
  · rw [Bytes.drop_eq_word (by omega), Bytes.drop_eq_word (by omega), Bytes.drop_eq_word hlen]
    simp only [Bytes.signedWord_byteAt]
    rw [plain?_eq _ _ h]
    refine if_congr (by omega) (congrArg some ?_) rfl
    exact congrArg (Encoded.mk _ _) (by omega)
  · rw [if_neg (by omega)]
    split
    · rename_i hrest
      have := Bytes.length_of_drop hrest
      simp only [List.length_cons] at this
      omega
    · rfl

theorem readLookupSwitch?_eq (h : offset < code.length) (hbyte : code.byteAt offset = 0xab) :
    Encoded.readLookupSwitch? (.ofByte (code.byteAt offset)) offset (code.drop (offset + 1)) =
      instruction? code offset := by
  have hwide : code.byteAt offset ≠ 0xc4 := by simp [hbyte]
  unfold Encoded.readLookupSwitch? instruction?
  rw [List.drop_drop, padding_eq, length_lookupSwitch hbyte, opcode_of_ne_wide hwide, operand_of_ne_wide _ hwide,
    hbyte]
  by_cases hlen : offset + 1 + padding offset + 8 ≤ code.length
  · rw [Bytes.drop_eq_word (by omega), Bytes.drop_eq_word hlen]
    simp only [Bytes.signedWord_byteAt]
    rw [plain?_eq _ _ h]
    refine if_congr (by omega) (congrArg some ?_) rfl
    exact congrArg (Encoded.mk _ _) (by omega)
  · rw [if_neg (by omega)]
    split
    · rename_i hrest
      have := Bytes.length_of_drop hrest
      simp only [List.length_cons] at this
      omega
    · rfl

theorem readWide?_eq (h : offset < code.length) (hbyte : code.byteAt offset = 0xc4) :
    Encoded.readWide? (code.drop (offset + 1)) = instruction? code offset := by
  have hop : opcode code offset = wideOpcode (code.byteAt (offset + 1)) := if_pos hbyte
  have hoperand : operand (opcode code offset) code offset = wideOperand (opcode code offset) code (offset + 2) :=
    if_pos hbyte
  have hlength := length_wide hbyte
  have hinner := suits_ofByte (code.byteAt (offset + 1))
  rw [instruction?, hoperand, hop, wideOpcode_eq]
  by_cases hlen : offset + 4 ≤ code.length
  · rw [Bytes.drop_eq_cons (show offset + 1 < code.length by omega),
      Bytes.drop_eq_cons (show offset + 2 < code.length by omega), Bytes.drop_eq_cons hlen]
    simp only [Encoded.readWide?]
    cases hlayout : Layout.ofByte (code.byteAt (offset + 1)) with
    | increment =>
      rw [if_pos hlayout] at hlength
      rw [hlayout] at hinner
      simp only [hlength, hinner.2, wideOperand]
      by_cases hsix : offset + 6 ≤ code.length
      · rw [if_pos hsix, Bytes.drop_eq_cons (show offset + 1 + 1 + 1 + 1 < code.length by omega),
          Bytes.drop_eq_cons hsix]
        simp only [Bytes.toInt32_word16_byteAt]
        rfl
      · rw [if_neg hsix]
        split
        · rename_i hrest
          have := Bytes.length_of_drop hrest
          simp only [List.length_cons] at this
          omega
        · rfl
    | byteSlot =>
      rw [if_neg (by simp [hlayout])] at hlength
      rw [hlayout] at hinner
      simp only [hlength, if_pos hlen, wideOperand_slot hinner.2]
      rfl
    | _ =>
      rw [if_neg (by simp [hlayout])] at hlength
      simp only [hlength, if_pos hlen]
      rfl
  · rw [if_neg]
    · unfold Encoded.readWide?
      split
      · rename_i hrest
        have := Bytes.length_of_drop hrest
        simp only [List.length_cons] at this
        omega
      · rfl
    · rw [hlength]
      split <;> omega

/-- A reader that asks for one byte succeeds when the code goes on that far. -/
theorem one_byte {read : Bytes → Option Encoded} (next : UInt8 → Encoded) (hnil : read [] = none)
    (hcons : ∀ a rest, read (a :: rest) = some (next a)) :
    read (code.drop (offset + 1)) =
      if offset + 2 ≤ code.length then some (next (code.byteAt (offset + 1))) else none := by
  by_cases hlen : offset + 2 ≤ code.length
  · rw [if_pos hlen, Bytes.drop_eq_cons hlen, hcons]
  · rw [if_neg hlen, List.drop_eq_nil_of_le (by omega), hnil]

theorem two_bytes {read : Bytes → Option Encoded} (next : UInt8 → UInt8 → Encoded) (hnil : read [] = none)
    (hone : ∀ a, read [a] = none) (hcons : ∀ a b rest, read (a :: b :: rest) = some (next a b)) :
    read (code.drop (offset + 1)) =
      if offset + 3 ≤ code.length then some (next (code.byteAt (offset + 1)) (code.byteAt (offset + 1 + 1)))
      else none := by
  by_cases hlen : offset + 3 ≤ code.length
  · rw [if_pos hlen, Bytes.drop_eq_cons (show offset + 1 < code.length by omega), Bytes.drop_eq_cons hlen, hcons]
  · rw [if_neg hlen]
    by_cases hlast : offset + 2 ≤ code.length
    · rw [Bytes.drop_eq_cons hlast, List.drop_eq_nil_of_le (by omega), hone]
    · rw [List.drop_eq_nil_of_le (by omega), hnil]

/-- **Read.** The reader gives what the format says of the bytes at `offset`. -/
theorem read?_eq (h : offset < code.length) :
    Encoded.read? offset (code.byteAt offset) (code.drop (offset + 1)) = instruction? code offset := by
  have hsuits := suits_ofByte (code.byteAt offset)
  cases hlayout : Layout.ofByte (code.byteAt offset) with
  | implied operand =>
    rw [hlayout] at hsuits
    obtain ⟨hfixed, hop, himplied⟩ := hsuits
    rw [instruction?_fixed hfixed, narrowOperand_implied hop, himplied, if_pos (Nat.succ_le_of_lt h)]
    simp only [Encoded.read?, hlayout]
  | byteInt =>
    rw [hlayout] at hsuits
    obtain ⟨hfixed, hop⟩ := hsuits
    rw [instruction?_fixed hfixed, hop, narrowOperand, ← Bytes.toInt32_byteAt]
    refine one_byte (fun a => ⟨.bipush, .int a.toInt8.toInt32, 1⟩) ?_ ?_
    all_goals intros
    all_goals simp only [Encoded.read?, hlayout, hop]
  | wordInt =>
    rw [hlayout] at hsuits
    obtain ⟨hfixed, hop⟩ := hsuits
    rw [instruction?_fixed hfixed, hop, narrowOperand, ← Bytes.toInt32_word16_byteAt]
    refine two_bytes (fun a b => ⟨.sipush, .int (Bytes.word16 a b).toInt16.toInt32, 2⟩) ?_ ?_ ?_
    all_goals intros
    all_goals simp only [Encoded.read?, hlayout, hop]
  | byteIndex =>
    rw [hlayout] at hsuits
    obtain ⟨hfixed, hop⟩ := hsuits
    rw [instruction?_fixed hfixed, hop, narrowOperand, ← Bytes.toUInt16_byteAt]
    refine one_byte (fun a => ⟨.ldc, .index a.toUInt16, 1⟩) ?_ ?_
    all_goals intros
    all_goals simp only [Encoded.read?, hlayout, hop]
  | wordIndex =>
    rw [hlayout] at hsuits
    obtain ⟨hfixed, hop⟩ := hsuits
    rw [instruction?_fixed hfixed, narrowOperand_index hop, ← Bytes.word16_byteAt]
    refine two_bytes (fun a b => ⟨_, .index (Bytes.word16 a b), 2⟩) ?_ ?_ ?_
    all_goals intros
    all_goals simp only [Encoded.read?, hlayout]
  | byteSlot =>
    rw [hlayout] at hsuits
    obtain ⟨hfixed, hop⟩ := hsuits
    rw [instruction?_fixed hfixed, narrowOperand_slot hop, ← Bytes.toUInt16_byteAt]
    refine one_byte (fun a => ⟨_, .slot a.toUInt16, 1⟩) ?_ ?_
    all_goals intros
    all_goals simp only [Encoded.read?, hlayout]
  | increment =>
    rw [hlayout] at hsuits
    obtain ⟨hfixed, hop⟩ := hsuits
    rw [instruction?_fixed hfixed, hop, narrowOperand, ← Bytes.toUInt16_byteAt, ← Bytes.toInt32_byteAt]
    refine two_bytes (fun a b => ⟨.iinc, .increment a.toUInt16 b.toInt8.toInt32, 2⟩) ?_ ?_ ?_
    all_goals intros
    all_goals simp only [Encoded.read?, hlayout, hop]
  | branch =>
    rw [hlayout] at hsuits
    obtain ⟨hfixed, hop⟩ := hsuits
    rw [instruction?_fixed hfixed, narrowOperand_branch hop, ← Bytes.toInt_word16_byteAt]
    refine two_bytes (fun a b => ⟨_, .branch (Bytes.word16 a b).toInt16.toInt, 2⟩) ?_ ?_ ?_
    all_goals intros
    all_goals simp only [Encoded.read?, hlayout]
  | wide =>
    rw [hlayout] at hsuits
    simp only [Encoded.read?, hlayout]
    exact readWide?_eq h hsuits
  | tableSwitch =>
    rw [hlayout] at hsuits
    simp only [Encoded.read?, hlayout]
    exact readTableSwitch?_eq h hsuits
  | lookupSwitch =>
    rw [hlayout] at hsuits
    simp only [Encoded.read?, hlayout]
    exact readLookupSwitch?_eq h hsuits
  | skipped count =>
    rw [hlayout] at hsuits
    obtain ⟨hfixed, hop⟩ := hsuits
    simp only [Encoded.read?, hlayout]
    rw [instruction?_fixed hfixed, hop]
    exact plain?_eq _ count h
  | undefined =>
    rw [hlayout] at hsuits
    obtain ⟨hundefined, hop⟩ := hsuits
    simp only [Encoded.read?, hlayout]
    rw [instruction?, length_of_undefined hundefined, if_pos (Nat.succ_le_of_lt h),
      opcode_of_undefined hundefined, operand_unknown, hop]

end

end Format

end Jvm
