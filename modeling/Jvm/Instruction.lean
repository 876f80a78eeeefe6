import Jvm.Opcode

/-!
# Instructions

An instruction is an opcode with the operand its bytes give, and the byte offset where it stands.
What a branch aims at depends on the view of the code: in the bytes it is a signed displacement,
in a decoded method it is the index of an instruction. The types here take the target type as a
parameter, so that both views share them.
-/

namespace Jvm

/-- The operand of an instruction. Operands that an opcode implies, such as the slot of `iload_1`,
are written out. -/
inductive Operand (τ : Type) where
  | none
  /-- An integer to push. -/
  | int (value : Int32)
  /-- An index into the constant pool. -/
  | index (index : UInt16)
  /-- A local variable slot. -/
  | slot (index : UInt16)
  /-- A local variable slot and what to add to it. -/
  | increment (index : UInt16) (delta : Int32)
  /-- Where a branch goes. -/
  | branch (target : τ)
deriving DecidableEq, Repr, Inhabited

namespace Operand

/-- Replaces the target of a branch by what `f` makes of it, which may fail. -/
def mapTarget {σ τ ε : Type} (f : σ → Except ε τ) : Operand σ → Except ε (Operand τ)
  | .none => .ok .none
  | .int v => .ok (.int v)
  | .index i => .ok (.index i)
  | .slot i => .ok (.slot i)
  | .increment i delta => .ok (.increment i delta)
  | .branch target => (f target).map .branch

/-- The operand as the instruction trace shows it. -/
def describe : Operand Nat → String
  | .none => "None"
  | .int v => "Int(" ++ toString v.toInt ++ ")"
  | .index i => "Index(" ++ toString i.toNat ++ ")"
  | .slot i => "Local(" ++ toString i.toNat ++ ")"
  | .increment i delta =>
    "Increment \x7b index: " ++ toString i.toNat ++ ", delta: " ++ toString delta.toInt ++
      " \x7d"
  | .branch target => "Branch(" ++ toString target ++ ")"

end Operand

/-- An instruction of a method. -/
structure Instruction (τ : Type) where
  /-- Offset of its first byte in the code array. -/
  offset : Nat
  opcode : Opcode
  operand : Operand τ
deriving DecidableEq, Repr, Inhabited

/-- The body of a method: branches hold indices into the very array. -/
abbrev Code := Array (Instruction Nat)

end Jvm
