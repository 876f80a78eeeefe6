import Jvm.Operation
import Jvm.Proofs.Code.Tiling

/-!
# Decoded operands are of the kind that is needed

An operation needs an operand of one kind, or none. In decoded code every instruction has what its
operation needs (`kind_of_decode`), and every branch leads to an instruction of the same code
(`branch_lt_of_decode`).
-/

namespace Jvm

/-- The kinds of operands. -/
inductive Operand.Kind where
  | none | int | index | slot | increment | branch
deriving DecidableEq, Repr

/-- The kind of an operand. -/
def Operand.kind {τ : Type} : Operand τ → Kind
  | .none => .none
  | .int _ => .int
  | .index _ => .index
  | .slot _ => .slot
  | .increment _ _ => .increment
  | .branch _ => .branch

/-- The kind of operand that an operation within a frame needs, if it needs one. -/
def FrameOperation.needs : FrameOperation → Option Operand.Kind
  | .pushInt => some .int
  | .loadConstant => some .index
  | .loadInt | .loadReference | .storeInt | .storeReference => some .slot
  | .increment => some .increment
  | .branchZero _ | .branchCompare _ | .branchNull _ | .goto => some .branch
  | _ => none

/-- The kind of operand that an operation needs, if it needs one. -/
def Operation.needs : Operation → Option Operand.Kind
  | .within op => op.needs
  | .getStatic | .invokeStatic | .invokeVirtual => some .index
  | _ => none

namespace Format

theorem kind_narrowOperand {op : Opcode} {kind : Operand.Kind} (h : op.operation.needs = some kind)
    (code : Bytes) (i : Nat) : (narrowOperand op code i).kind = kind := by
  cases op <;> cases h <;> rfl

/-- After `wide` too: an opcode without a wide form is an unknown one, which needs nothing. -/
theorem kind_wideOperand {inner : UInt8} {kind : Operand.Kind}
    (h : (wideOpcode inner).operation.needs = some kind) (code : Bytes) (i : Nat) :
    (wideOperand (wideOpcode inner) code i).kind = kind := by
  unfold wideOpcode at h ⊢
  split at h <;> cases h <;> rfl

theorem kind_operand {code : Bytes} {offset : Nat} {kind : Operand.Kind}
    (h : (opcode code offset).operation.needs = some kind) :
    (operand (opcode code offset) code offset).kind = kind := by
  by_cases hwide : code.byteAt offset = 0xc4
  · rw [opcode, if_pos hwide] at h ⊢
    rw [operand, if_pos hwide]
    exact kind_wideOperand h _ _
  · rw [operand_of_ne_wide _ hwide]
    exact kind_narrowOperand h _ _

end Format

namespace Code
variable {bytes : Bytes} {code : Code} {inst : Instruction Nat}

/-- Resolving a branch does not change the kind of an operand. -/
theorem Resolves.kind {offset : Nat} {operand : Operand Int} {resolved : Operand Nat}
    (h : Resolves code offset operand resolved) : resolved.kind = operand.kind := by
  cases operand with
  | branch displacement =>
    obtain ⟨index, target, rfl, -, -⟩ := h
    rfl
  | _ =>
    obtain rfl := h
    rfl

theorem kind_of_decode (h : decode bytes = .ok code) (hinst : inst ∈ code) {kind : Operand.Kind}
    (hneeds : inst.opcode.operation.needs = some kind) : inst.operand.kind = kind := by
  obtain ⟨-, hopcode, hresolves⟩ := format_of_decode h hinst
  rw [hopcode] at hneeds hresolves
  rw [hresolves.kind]
  exact Format.kind_operand hneeds

theorem branch_lt_of_decode (h : decode bytes = .ok code) (hinst : inst ∈ code) {target : Nat}
    (hbranch : inst.operand = .branch target) : target < code.size := by
  obtain ⟨-, -, hresolves⟩ := format_of_decode h hinst
  rw [hbranch] at hresolves
  cases hoperand : Format.operand inst.opcode bytes inst.offset with
  | branch displacement =>
    rw [hoperand] at hresolves
    obtain ⟨index, reached, hindex, hget, -⟩ := hresolves
    cases hindex
    exact (Array.getElem?_eq_some_iff.1 hget).1
  | _ =>
    rw [hoperand] at hresolves
    cases hresolves

end Code

end Jvm
