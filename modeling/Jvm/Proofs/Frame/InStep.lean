import Jvm.Frame
import Jvm.Proofs.Code.Operands
import Jvm.Proofs.Monad

/-!
# Frames in step

Two frames can differ in their methods, in their classes and in how they count, and an instruction does
the same to both as long as it finds the same constants, operands and locals. `Parallel` says of a
relation between frames that it leaves room for no other difference. On frames related in such a way
each elementary computation is in step with itself, and so is an instruction that stays within its frame:
`Parallel.perform_of_straight` and, for branches, `Parallel.perform_of_branch`.
-/

namespace Jvm.Frame

/-- Related frames have the same constants, operands and locals, and stay related if operands and locals
are replaced, or the counters by two that belong together. -/
structure Parallel (corr : Nat → Nat → Prop) (rel : Frame → Frame → Prop) : Prop where
  pool {f g : Frame} : rel f g → g.owner.pool = f.owner.pool
  stack {f g : Frame} : rel f g → g.stack = f.stack
  locals {f g : Frame} : rel f g → g.locals = f.locals
  withStack {f g : Frame} : rel f g → ∀ stack, rel { f with stack } { g with stack }
  withLocals {f g : Frame} : rel f g → ∀ locals, rel { f with locals } { g with locals }
  withPc {f g : Frame} : rel f g → ∀ pc pc', corr pc pc' → rel { f with pc } { g with pc := pc' }

section
variable {corr : Nat → Nat → Prop} {rel : Frame → Frame → Prop}

theorem Parallel.push (h : Parallel corr rel) (v : Value) : InStep rel (push v) (push v) := by
  intro f g hfg
  have hend := h.withStack hfg (v :: f.stack)
  show EndInStep rel (.ok () { f with stack := v :: f.stack }) (.ok () { g with stack := v :: g.stack })
  rw [h.stack hfg]
  exact .ok () hend

theorem Parallel.pop (h : Parallel corr rel) : InStep rel pop pop := by
  intro f g hfg
  unfold Frame.pop
  rw [h.stack hfg]
  cases f.stack with
  | nil => exact .error _ hfg
  | cons v rest => exact .ok v (h.withStack hfg rest)

theorem Parallel.popInt (h : Parallel corr rel) : InStep rel popInt popInt := h.pop.bind fun _ => inStep_ofExcept _

theorem Parallel.popReference (h : Parallel corr rel) : InStep rel popReference popReference :=
  h.pop.bind fun _ => inStep_ofExcept _

theorem Parallel.load (h : Parallel corr rel) (index : UInt16) : InStep rel (load index) (load index) := by
  refine InStep.bind_get fun f g hfg => ?_
  rw [h.locals hfg]
  cases f.locals[index.toNat]? with
  | none => exact .error _ hfg
  | some v => exact .ok v hfg

theorem Parallel.store (h : Parallel corr rel) (index : UInt16) (v : Value) :
    InStep rel (store index v) (store index v) := by
  refine InStep.bind_get fun f g hfg => ?_
  rw [h.locals hfg]
  split
  · exact .ok () (h.withLocals hfg _)
  · exact .error _ hfg

theorem Parallel.jump (h : Parallel corr rel) {target target' : Nat} (htarget : corr target target') :
    InStep rel (jump target) (jump target') := fun _ _ hfg => .ok () (h.withPc hfg _ _ htarget)

theorem Parallel.jumpIf (h : Parallel corr rel) (test : Bool) {target target' : Nat} (htarget : corr target target') :
    InStep rel (if test then Frame.jump target else pure ()) (if test then Frame.jump target' else pure ()) := by
  cases test with
  | true => exact h.jump htarget
  | false => exact inStep_pure ()

/-! ## Instructions within a frame -/

/-- An operation that does not branch. -/
theorem Parallel.perform_of_straight (h : Parallel corr rel) {op : FrameOperation} (hop : op.needs ≠ some .branch)
    (inst : Instruction Nat) : InStep rel (perform op inst) (perform op inst) := by
  cases op with
  | nop => exact inStep_pure ()
  | pushNull => exact h.push _
  | pushInt => exact (inStep_ofExcept _).bind fun _ => h.push _
  | loadConstant =>
    refine (inStep_ofExcept _).bind fun index => InStep.bind_get fun f g hfg => ?_
    rw [h.pool hfg]
    exact ((inStep_ofExcept _).bind fun _ => h.push _) f g hfg
  | loadInt =>
    exact (inStep_ofExcept _).bind fun _ => (h.load _).bind fun _ => (inStep_ofExcept _).bind fun _ => h.push _
  | loadReference =>
    exact (inStep_ofExcept _).bind fun _ => (h.load _).bind fun _ => (inStep_ofExcept _).bind fun _ => h.push _
  | storeInt => exact h.popInt.bind fun _ => (inStep_ofExcept _).bind fun _ => h.store _ _
  | storeReference => exact h.popReference.bind fun _ => (inStep_ofExcept _).bind fun _ => h.store _ _
  | pop => exact h.pop.bind fun _ => inStep_pure ()
  | dup =>
    refine InStep.bind_get fun f g hfg => ?_
    rw [h.stack hfg]
    cases f.stack.head? with
    | none => exact .error _ hfg
    | some v => exact h.push v f g hfg
  | swap => exact h.pop.bind fun _ => h.pop.bind fun _ => (h.push _).bind fun _ => h.push _
  | arithmetic op =>
    refine h.popInt.bind fun b => h.popInt.bind fun a => ?_
    cases op.result? a b with
    | none => exact inStep_throw _
    | some v => exact h.push _
  | negate => exact h.popInt.bind fun _ => h.push _
  | increment =>
    exact (inStep_ofExcept _).bind fun _ => (h.load _).bind fun _ => (inStep_ofExcept _).bind fun _ => h.store _ _
  | branchZero | branchCompare | branchNull | goto => exact absurd rfl hop

/-- A branch keeps the counters together if its targets are, and fails alike without one. -/
theorem Parallel.perform_of_branch (h : Parallel corr rel) {op : FrameOperation} (hop : op.needs = some .branch)
    {inst inst' : Instruction Nat} (htarget : Matches corr (branchOperand inst) (branchOperand inst')) :
    InStep rel (perform op inst) (perform op inst') := by
  cases op with
  | branchZero test => exact inStep_bind_ofExcept htarget fun _ _ ht => h.popInt.bind fun _ => h.jumpIf _ ht
  | branchCompare test =>
    exact inStep_bind_ofExcept htarget fun _ _ ht => h.popInt.bind fun _ => h.popInt.bind fun _ => h.jumpIf _ ht
  | branchNull expected =>
    exact inStep_bind_ofExcept htarget fun _ _ ht => h.popReference.bind fun _ => h.jumpIf _ ht
  | goto => exact inStep_bind_ofExcept htarget fun _ _ ht => h.jump ht
  | _ => cases hop

end

end Jvm.Frame
