import Jvm.Proofs.ClassFile.Writer
import Jvm.Proofs.Code.Concatenation

/-!
# Encodings of one instruction

Loads, stores, increments and pushes of constants can be written in more than one way: with the
operand in the opcode, in one byte or in two. `Encoding` lists the ways. Whichever is taken, the
instruction is decoded with the same operand, and its opcode is one of a family of opcodes that all do
the same (`Encoding.decoded`, and `Encoding.decode_eq` for an encoding that stands alone).
-/

namespace Jvm

/-! ## Equivalent instructions -/

namespace Opcode

/-- The loads and the stores: first the opcode with an explicit slot, then those of slots 0 to 3. -/
def slotFamilies : List (List Opcode) := [
  [.iload, .iload0, .iload1, .iload2, .iload3],
  [.aload, .aload0, .aload1, .aload2, .aload3],
  [.istore, .istore0, .istore1, .istore2, .istore3],
  [.astore, .astore0, .astore1, .astore2, .astore3]]

def constantLoads : List Opcode := [.ldc, .ldcW]

def intPushes : List Opcode :=
  [.iconstM1, .iconst0, .iconst1, .iconst2, .iconst3, .iconst4, .iconst5, .bipush, .sipush]

/-- Opcodes that differ only in how their operand is written. -/
def families : List (List Opcode) := constantLoads :: intPushes :: slotFamilies

end Opcode

/-- The same operand, and the same opcode or two of one family. -/
structure Instruction.Equivalent (a b : Instruction Nat) : Prop where
  operand : a.operand = b.operand
  opcode : a.opcode = b.opcode ∨ ∃ family ∈ Opcode.families, a.opcode ∈ family ∧ b.opcode ∈ family

instance : DecidableRel Instruction.Equivalent := fun a b =>
  decidable_of_iff (a.operand = b.operand ∧
    (a.opcode = b.opcode ∨ ∃ family ∈ Opcode.families, a.opcode ∈ family ∧ b.opcode ∈ family))
    ⟨fun h => ⟨h.1, h.2⟩, fun h => ⟨h.operand, h.opcode⟩⟩

/-! ## The ways to write an instruction -/

open Bytes Opcode

/-- `bytes` is a way to write an instruction with this operand and an opcode of this family. -/
inductive Encoding : (family : List Opcode) → Operand Nat → (bytes : Bytes) → Prop
  /-- A slot from 0 to 3 in the opcode. -/
  | short {family : List Opcode} {op : Opcode} {slot : Nat} : family ∈ slotFamilies → family[slot + 1]? = some op →
      Encoding family (.slot (.ofNat slot)) [op.byte]
  | narrow {family : List Opcode} {op : Opcode} (slot : UInt8) : family ∈ slotFamilies → family[0]? = some op →
      Encoding family (.slot slot.toUInt16) [op.byte, slot]
  | wide {family : List Opcode} {op : Opcode} (slot : UInt16) : family ∈ slotFamilies → family[0]? = some op →
      Encoding family (.slot slot) (0xc4 :: op.byte :: ofWord16 slot)
  | increment (slot : UInt8) (delta : Int8) :
      Encoding [.iinc] (.increment slot.toUInt16 delta.toInt32) [0x84, slot, delta.toUInt8]
  | wideIncrement (slot : UInt16) (delta : Int16) :
      Encoding [.iinc] (.increment slot delta.toInt32) (0xc4 :: 0x84 :: (ofWord16 slot ++ ofWord16 delta.toUInt16))
  | ldc (index : UInt8) : Encoding constantLoads (.index index.toUInt16) [0x12, index]
  | ldcW (index : UInt16) : Encoding constantLoads (.index index) (0x13 :: ofWord16 index)
  /-- An integer from -1 to 5 in the opcode. -/
  | iconst {value : Int} : -1 ≤ value → value ≤ 5 →
      Encoding intPushes (.int (.ofInt value)) [.ofNat (value + 3).toNat]
  | bipush (value : Int8) : Encoding intPushes (.int value.toInt32) [0x10, value.toUInt8]
  | sipush (value : Int16) : Encoding intPushes (.int value.toInt32) (0x11 :: ofWord16 value.toUInt16)

/-! ## What the tables say of the opcodes -/

theorem layout_short {family : List Opcode} {op : Opcode} {slot : Nat} (hfamily : family ∈ slotFamilies)
    (hop : family[slot + 1]? = some op) :
    Layout.ofByte op.byte = .implied (.slot (.ofNat slot)) ∧ op.isUnknown = false := by
  have hlength : ∀ family ∈ slotFamilies, family.length = 5 := by decide
  have htable : ∀ family ∈ slotFamilies, ∀ slot < 4, ∀ op ∈ family[slot + 1]?,
      Layout.ofByte op.byte = .implied (.slot (.ofNat slot)) ∧ op.isUnknown = false := by decide
  have hlt := (List.getElem?_eq_some_iff.1 hop).1
  rw [hlength family hfamily] at hlt
  exact htable family hfamily slot (by omega) op hop

theorem layout_explicit {family : List Opcode} {op : Opcode} (hfamily : family ∈ slotFamilies)
    (hop : family[0]? = some op) : Layout.ofByte op.byte = .byteSlot ∧ op.isUnknown = false := by
  have htable : ∀ family ∈ slotFamilies, ∀ op ∈ family[0]?, Layout.ofByte op.byte = .byteSlot ∧ op.isUnknown = false := by
    decide
  exact htable family hfamily op hop

/-- The integers that are in the opcode. -/
theorem layout_iconst {value : Int} (hle : -1 ≤ value) (hge : value ≤ 5) :
    Layout.ofByte (.ofNat (value + 3).toNat) = .implied (.int (.ofInt value)) ∧
      Opcode.ofByte (.ofNat (value + 3).toNat) ∈ intPushes := by
  obtain ⟨n, hn⟩ : ∃ n : Nat, value = n - 1 := ⟨(value + 1).toNat, by omega⟩
  have htable : ∀ n : Nat, n < 7 → Layout.ofByte (.ofNat ((n : Int) - 1 + 3).toNat) = .implied (.int (.ofInt (n - 1))) ∧
      Opcode.ofByte (.ofNat ((n : Int) - 1 + 3).toNat) ∈ intPushes := by decide
  rw [hn]
  exact htable n (by omega)

/-! ## Reading them back -/

/-- The reader takes the instruction `e`, and no more, off anything that starts with these bytes. -/
structure ReadsAs (byte : UInt8) (tail : Bytes) (e : Encoded) : Prop where
  defined : Layout.ofByte byte ≠ .undefined
  length_eq : tail.length = e.tail
  read?_eq : ∀ offset, Encoded.read? offset byte tail = some e

theorem readsAs_of_layout {byte : UInt8} {layout : Layout} {tail : Bytes} {e : Encoded}
    (hlayout : Layout.ofByte byte = layout) (hdef : layout ≠ .undefined) (hlength : tail.length = e.tail)
    (hread : ∀ offset, Encoded.read? offset byte tail = some e) : ReadsAs byte tail e :=
  ⟨hlayout ▸ hdef, hlength, hread⟩

theorem readsAs_implied {byte : UInt8} {operand : Operand Int} (hlayout : Layout.ofByte byte = .implied operand) :
    ReadsAs byte [] ⟨.ofByte byte, operand, 0⟩ :=
  readsAs_of_layout hlayout (by simp) rfl fun _ => by simp only [Encoded.read?, hlayout]

/-- Operands that are not branches are taken over as they are. -/
def Operand.Fixed (operand : Operand Int) (resolved : Operand Nat) : Prop :=
  ∀ aim : Int → Except DecodeError Nat, operand.mapTarget aim = .ok resolved

theorem Operand.Fixed.eq_of_resolves {operand : Operand Int} {resolved resolved' : Operand Nat} {code : Code}
    {offset : Nat} (h : operand.Fixed resolved) (hresolves : Code.Resolves code offset operand resolved') :
    resolved' = resolved := by
  cases operand with
  | branch displacement => cases h fun _ => .error (.truncated offset)
  | _ =>
    obtain rfl := hresolves
    cases h fun _ => .error (.truncated offset)
    rfl

namespace Encoding
variable {family : List Opcode} {operand : Operand Nat} {enc bytes : Bytes} {code : Code} {inst : Instruction Nat}

theorem readsAs (h : Encoding family operand enc) :
    ∃ byte tail e, enc = byte :: tail ∧ ReadsAs byte tail e ∧ e.opcode ∈ family ∧ e.operand.Fixed operand := by
  cases h with
  | @short _ op slot hfamily hop =>
    obtain ⟨hlayout, hknown⟩ := layout_short hfamily hop
    have hmem := List.mem_of_getElem? hop
    rw [← Format.ofByte_byte op hknown] at hmem
    exact ⟨_, _, _, rfl, readsAs_implied hlayout, hmem, fun _ => rfl⟩
  | @narrow _ op slot hfamily hop =>
    obtain ⟨hlayout, hknown⟩ := layout_explicit hfamily hop
    refine ⟨_, _, ⟨op, .slot slot.toUInt16, 1⟩, rfl, readsAs_of_layout hlayout (by simp) rfl fun _ => ?_,
      List.mem_of_getElem? hop, fun _ => rfl⟩
    simp only [Encoded.read?, hlayout, Format.ofByte_byte op hknown]
  | @wide _ op slot hfamily hop =>
    obtain ⟨hlayout, hknown⟩ := layout_explicit hfamily hop
    have hwide : Layout.ofByte 0xc4 = .wide := by decide
    refine ⟨_, _, ⟨op, .slot slot, 3⟩, rfl, readsAs_of_layout hwide (by simp) rfl fun _ => ?_,
      List.mem_of_getElem? hop, fun _ => rfl⟩
    simp only [Encoded.read?, hwide, Encoded.readWide?, ofWord16, hlayout, word16_ofWord16, Format.ofByte_byte op hknown]
  | increment slot delta =>
    have hlayout : Layout.ofByte 0x84 = .increment := by decide
    refine ⟨_, _, ⟨.iinc, .increment slot.toUInt16 delta.toInt32, 2⟩, rfl,
      readsAs_of_layout hlayout (by simp) rfl fun _ => ?_, by simp, fun _ => rfl⟩
    simp only [Encoded.read?, hlayout, Int8.toInt8_toUInt8]
    rfl
  | wideIncrement slot delta =>
    have hwide : Layout.ofByte 0xc4 = .wide := by decide
    have hlayout : Layout.ofByte 0x84 = .increment := by decide
    refine ⟨_, _, ⟨.iinc, .increment slot delta.toInt32, 5⟩, rfl, readsAs_of_layout hwide (by simp) rfl fun _ => ?_,
      by simp, fun _ => rfl⟩
    simp only [Encoded.read?, hwide, Encoded.readWide?, ofWord16, List.cons_append, List.nil_append, hlayout,
      word16_ofWord16, Int16.toInt16_toUInt16]
    rfl
  | ldc index =>
    have hlayout : Layout.ofByte 0x12 = .byteIndex := by decide
    refine ⟨_, _, ⟨.ldc, .index index.toUInt16, 1⟩, rfl, readsAs_of_layout hlayout (by simp) rfl fun _ => ?_,
      by simp [constantLoads], fun _ => rfl⟩
    simp only [Encoded.read?, hlayout]
    rfl
  | ldcW index =>
    have hlayout : Layout.ofByte 0x13 = .wordIndex := by decide
    refine ⟨_, _, ⟨.ldcW, .index index, 2⟩, rfl, readsAs_of_layout hlayout (by simp) rfl fun _ => ?_,
      by simp [constantLoads], fun _ => rfl⟩
    simp only [Encoded.read?, hlayout, ofWord16, word16_ofWord16]
    rfl
  | @iconst value hle hge =>
    obtain ⟨hlayout, hop⟩ := layout_iconst hle hge
    exact ⟨_, _, _, rfl, readsAs_implied hlayout, hop, fun _ => rfl⟩
  | bipush value =>
    have hlayout : Layout.ofByte 0x10 = .byteInt := by decide
    refine ⟨_, _, ⟨.bipush, .int value.toInt32, 1⟩, rfl, readsAs_of_layout hlayout (by simp) rfl fun _ => ?_,
      by simp [intPushes], fun _ => rfl⟩
    simp only [Encoded.read?, hlayout, Int8.toInt8_toUInt8]
    rfl
  | sipush value =>
    have hlayout : Layout.ofByte 0x11 = .wordInt := by decide
    refine ⟨_, _, ⟨.sipush, .int value.toInt32, 2⟩, rfl, readsAs_of_layout hlayout (by simp) rfl fun _ => ?_,
      by simp [intPushes], fun _ => rfl⟩
    simp only [Encoded.read?, hlayout, ofWord16, word16_ofWord16, Int16.toInt16_toUInt16]
    rfl

/-- Where the code goes on with the bytes of the encoding, the format finds its instruction. -/
theorem instruction?_eq (h : Encoding family operand enc) {offset : Nat} (hat : enc <+: bytes.drop offset) :
    ∃ e, Format.instruction? bytes offset = some e ∧ e.opcode ∈ family ∧ e.operand.Fixed operand ∧
      e.size = enc.length ∧ Format.defined (bytes.byteAt offset) := by
  obtain ⟨byte, tail, e, rfl, hreads, hop, hfixed⟩ := h.readsAs
  obtain ⟨more, hmore⟩ := hat
  have hlt : offset < bytes.length := by
    have := length_of_drop hmore.symm
    rw [List.cons_append, List.length_cons] at this
    omega
  have hsplit := hmore.trans (drop_eq_cons hlt)
  rw [List.cons_append] at hsplit
  obtain ⟨hbyte, htail⟩ := List.cons.inj hsplit
  have hread := Format.read?_eq hlt
  rw [← hbyte, ← htail, Encoded.read?_append (hreads.read?_eq offset)] at hread
  refine ⟨e, hread.symm, hop, hfixed, ?_, ?_⟩
  · rw [Encoded.size, ← hreads.length_eq, List.length_cons]
  · by_contra hundefined
    exact hreads.defined (hbyte ▸ (Format.undefined_iff _).2 hundefined)

theorem length_eq (h : Encoding family operand enc) {offset : Nat} (hat : enc <+: bytes.drop offset) :
    Format.length bytes offset = enc.length ∧ Format.defined (bytes.byteAt offset) := by
  obtain ⟨e, he, -, -, hsize, hdef⟩ := h.instruction?_eq hat
  exact ⟨(Format.of_instruction? he).2.trans hsize, hdef⟩

/-- **Decoded.** Where code goes on with an encoding, the operand and the family are decoded. -/
theorem decoded (h : Encoding family operand enc) (hcode : Code.decode bytes = .ok code) (hinst : inst ∈ code)
    (hat : enc <+: bytes.drop inst.offset) : inst.opcode ∈ family ∧ inst.operand = operand := by
  obtain ⟨e, he, hop, hfixed, -⟩ := h.instruction?_eq hat
  obtain ⟨-, hopcode, hresolves⟩ := Code.format_of_decode hcode hinst
  have hformat := (Format.of_instruction? he).1
  obtain ⟨-, hopcode', hoperand'⟩ := Instruction.mk.inj hformat
  rw [hopcode, hoperand'] at hresolves
  exact ⟨hopcode.trans hopcode' ▸ hop, hfixed.eq_of_resolves hresolves⟩

/-- Behind an encoding the scan goes on. -/
theorem scan_append (h : Encoding family operand enc) (after : Bytes) :
    ∃ op displaced, displaced.Fixed operand ∧
      ∀ l, Code.scan enc.length after = .ok l → Code.scan 0 (enc ++ after) = .ok (⟨0, op, displaced⟩ :: l) := by
  obtain ⟨byte, tail, e, rfl, hreads, -, hfixed⟩ := h.readsAs
  refine ⟨e.opcode, e.operand, hfixed, fun l hl => ?_⟩
  rw [List.length_cons] at hl
  have hread : Encoded.read? 0 byte (tail ++ after) = some e := Encoded.read?_append (hreads.read?_eq 0) after
  have hsize : 0 + e.size = tail.length + 1 := by rw [hreads.length_eq, Nat.zero_add, Encoded.size]
  have hdrop : (tail ++ after).drop e.tail = after := by rw [← hreads.length_eq, List.drop_left]
  rw [List.cons_append, Code.scan.eq_2, hread]
  simp only [if_neg hreads.defined, hsize, hdrop, hl]

/-- An encoding that stands alone is decoded. -/
theorem decode_eq (h : Encoding family operand enc) :
    ∃ op ∈ family, Code.decode enc = .ok #[⟨0, op, operand⟩] := by
  have hat : enc <+: enc.drop 0 := List.prefix_refl enc
  obtain ⟨e, he, hop, hfixed, hsize, hdef⟩ := h.instruction?_eq hat
  obtain ⟨hformat, hlength⟩ := Format.of_instruction? he
  have hpos : 0 < enc.length := by
    rw [← hsize]
    exact Nat.succ_pos _
  have hend : 0 + Format.length enc 0 = enc.length := by rw [hlength, hsize, Nat.zero_add]
  have hcut : Code.Cut enc 0 [Format.instruction enc 0] := .next hpos hdef (hend ▸ .done)
  have hscan := Code.scan_of_cut hcut
  rw [List.drop_zero, hformat] at hscan
  refine ⟨e.opcode, hop, ?_⟩
  have hresolve : ∀ l, Code.resolve l ⟨0, e.opcode, e.operand⟩ = .ok ⟨0, e.opcode, operand⟩ :=
    fun _ => congrArg (Except.map _) (hfixed _)
  rw [Code.decode_of_scan_ok hscan, mapM_cons_ok (hresolve _)]
  rfl

/-- The families of encodings are `families`, but for the increment, which has one opcode. -/
theorem family_eq (h : Encoding family operand enc) : family = [.iinc] ∨ family ∈ families := by
  have hslot : ∀ family ∈ slotFamilies, family ∈ families := by decide
  cases h with
  | increment | wideIncrement => exact .inl rfl
  | short hfamily | narrow _ hfamily | wide _ hfamily => exact .inr (hslot _ hfamily)
  | ldc | ldcW | iconst | bipush | sipush => exact .inr (by decide)

theorem opcode_eq_or {op op' : Opcode} (h : Encoding family operand enc) (hop : op ∈ family) (hop' : op' ∈ family) :
    op = op' ∨ ∃ family ∈ families, op ∈ family ∧ op' ∈ family := by
  rcases h.family_eq with rfl | hfamily
  · exact .inl ((List.mem_singleton.1 hop).trans (List.mem_singleton.1 hop').symm)
  · exact .inr ⟨family, hfamily, hop, hop'⟩

/-- Two encodings of one instruction are decoded to equivalent instructions, wherever they stand. -/
theorem equivalent {enc' bytes' : Bytes} {code' : Code} {inst' : Instruction Nat} (h : Encoding family operand enc)
    (h' : Encoding family operand enc') (hcode : Code.decode bytes = .ok code) (hcode' : Code.decode bytes' = .ok code')
    (hinst : inst ∈ code) (hinst' : inst' ∈ code') (hat : enc <+: bytes.drop inst.offset)
    (hat' : enc' <+: bytes'.drop inst'.offset) : inst.Equivalent inst' := by
  obtain ⟨hop, hoperand⟩ := h.decoded hcode hinst hat
  obtain ⟨hop', hoperand'⟩ := h'.decoded hcode' hinst' hat'
  exact ⟨hoperand.trans hoperand'.symm, h.opcode_eq_or hop hop'⟩

end Encoding

end Jvm
