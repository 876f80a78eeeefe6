import Jvm.Opcode

/-!
# What opcodes do

Many opcodes do the same with an operand that is encoded in another way. `Opcode.operation` maps
each opcode to what it does, apart from its operand.
-/

namespace Jvm

/-- An order relation between integers. -/
inductive Comparison where
  | eq | ne | lt | ge | gt | le
deriving DecidableEq, Repr

namespace Comparison

/-- Whether the relation holds between two signed integers. -/
def holds : Comparison → Int32 → Int32 → Bool
  | .eq, a, b => a == b
  | .ne, a, b => a != b
  | .lt, a, b => a < b
  | .ge, a, b => b ≤ a
  | .gt, a, b => b < a
  | .le, a, b => a ≤ b

end Comparison

/-- An operation on two integers. -/
inductive Arithmetic where
  | add | sub | mul | div | rem
deriving DecidableEq, Repr

namespace Arithmetic

/-- The result modulo the word size; there is none for a division by zero. Division truncates, and
the remainder has the sign of the dividend. -/
def result? : Arithmetic → Int32 → Int32 → Option Int32
  | .add, a, b => some (a + b)
  | .sub, a, b => some (a - b)
  | .mul, a, b => some (a * b)
  | .div, a, b => if b = 0 then none else some (a / b)
  | .rem, a, b => if b = 0 then none else some (a % b)

end Arithmetic

/-- An operation within one frame. -/
inductive FrameOperation where
  | nop
  | pushNull
  | pushInt
  | loadConstant
  | loadInt
  | loadReference
  | storeInt
  | storeReference
  | pop
  | dup
  | swap
  | arithmetic (op : Arithmetic)
  | negate
  | increment
  /-- Branches if the integer on top compares with zero in this way. -/
  | branchZero (test : Comparison)
  /-- Branches if the two integers on top compare in this way. -/
  | branchCompare (test : Comparison)
  /-- Branches if the reference on top is null, or if it is not. -/
  | branchNull (expected : Bool)
  | goto
deriving DecidableEq, Repr

/-- What an instruction does. -/
inductive Operation where
  | within (op : FrameOperation)
  | getStatic
  | invokeStatic
  | invokeVirtual
  | returnVoid
  | returnInt
  | returnReference
  /-- The machine does not execute it. -/
  | unsupported
deriving DecidableEq, Repr

/-- What an opcode does. -/
def Opcode.operation : Opcode → Operation
  | .nop => .within .nop
  | .aconstNull => .within .pushNull
  | .iconstM1 | .iconst0 | .iconst1 | .iconst2 | .iconst3 | .iconst4 | .iconst5
  | .bipush | .sipush => .within .pushInt
  | .ldc | .ldcW => .within .loadConstant
  | .iload | .iload0 | .iload1 | .iload2 | .iload3 => .within .loadInt
  | .aload | .aload0 | .aload1 | .aload2 | .aload3 => .within .loadReference
  | .istore | .istore0 | .istore1 | .istore2 | .istore3 => .within .storeInt
  | .astore | .astore0 | .astore1 | .astore2 | .astore3 => .within .storeReference
  | .pop => .within .pop
  | .dup => .within .dup
  | .swap => .within .swap
  | .iadd => .within (.arithmetic .add)
  | .isub => .within (.arithmetic .sub)
  | .imul => .within (.arithmetic .mul)
  | .idiv => .within (.arithmetic .div)
  | .irem => .within (.arithmetic .rem)
  | .ineg => .within .negate
  | .iinc => .within .increment
  | .ifeq => .within (.branchZero .eq)
  | .ifne => .within (.branchZero .ne)
  | .iflt => .within (.branchZero .lt)
  | .ifge => .within (.branchZero .ge)
  | .ifgt => .within (.branchZero .gt)
  | .ifle => .within (.branchZero .le)
  | .ifIcmpeq => .within (.branchCompare .eq)
  | .ifIcmpne => .within (.branchCompare .ne)
  | .ifIcmplt => .within (.branchCompare .lt)
  | .ifIcmpge => .within (.branchCompare .ge)
  | .ifIcmpgt => .within (.branchCompare .gt)
  | .ifIcmple => .within (.branchCompare .le)
  | .goto => .within .goto
  | .ifnull => .within (.branchNull true)
  | .ifnonnull => .within (.branchNull false)
  | .ireturn => .returnInt
  | .areturn => .returnReference
  | .ret => .returnVoid
  | .getstatic => .getStatic
  | .invokevirtual => .invokeVirtual
  | .invokestatic => .invokeStatic
  | .unknown _ => .unsupported

end Jvm
