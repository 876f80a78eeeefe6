import Jvm.Text.Hex

/-!
# Opcodes

The opcodes that the machine executes, their encoding as one byte and their two spellings. Every
other byte is an opcode too, `unknown`, so that a program may contain it as long as it never runs.
-/

namespace Jvm

/-- An operation code. -/
inductive Opcode where
  | nop | aconstNull | iconstM1 | iconst0 | iconst1 | iconst2 | iconst3 | iconst4 | iconst5
  | bipush | sipush | ldc | ldcW | iload | aload | iload0 | iload1 | iload2 | iload3 | aload0
  | aload1 | aload2 | aload3 | istore | astore | istore0 | istore1 | istore2 | istore3
  | astore0 | astore1 | astore2 | astore3 | pop | dup | swap | iadd | isub | imul | idiv | irem
  | ineg | iinc | ifeq | ifne | iflt | ifge | ifgt | ifle | ifIcmpeq | ifIcmpne | ifIcmplt
  | ifIcmpge | ifIcmpgt | ifIcmple | goto | ireturn | areturn | ret | getstatic | invokevirtual
  | invokestatic | ifnull | ifnonnull
  /-- An opcode outside the supported set. -/
  | unknown (byte : UInt8)
deriving DecidableEq, Repr, Inhabited

namespace Opcode

/-- The opcode that a byte encodes. -/
def ofByte (byte : UInt8) : Opcode :=
  match byte.toNat with
  | 0x00 => .nop
  | 0x01 => .aconstNull
  | 0x02 => .iconstM1
  | 0x03 => .iconst0
  | 0x04 => .iconst1
  | 0x05 => .iconst2
  | 0x06 => .iconst3
  | 0x07 => .iconst4
  | 0x08 => .iconst5
  | 0x10 => .bipush
  | 0x11 => .sipush
  | 0x12 => .ldc
  | 0x13 => .ldcW
  | 0x15 => .iload
  | 0x19 => .aload
  | 0x1a => .iload0
  | 0x1b => .iload1
  | 0x1c => .iload2
  | 0x1d => .iload3
  | 0x2a => .aload0
  | 0x2b => .aload1
  | 0x2c => .aload2
  | 0x2d => .aload3
  | 0x36 => .istore
  | 0x3a => .astore
  | 0x3b => .istore0
  | 0x3c => .istore1
  | 0x3d => .istore2
  | 0x3e => .istore3
  | 0x4b => .astore0
  | 0x4c => .astore1
  | 0x4d => .astore2
  | 0x4e => .astore3
  | 0x57 => .pop
  | 0x59 => .dup
  | 0x5f => .swap
  | 0x60 => .iadd
  | 0x64 => .isub
  | 0x68 => .imul
  | 0x6c => .idiv
  | 0x70 => .irem
  | 0x74 => .ineg
  | 0x84 => .iinc
  | 0x99 => .ifeq
  | 0x9a => .ifne
  | 0x9b => .iflt
  | 0x9c => .ifge
  | 0x9d => .ifgt
  | 0x9e => .ifle
  | 0x9f => .ifIcmpeq
  | 0xa0 => .ifIcmpne
  | 0xa1 => .ifIcmplt
  | 0xa2 => .ifIcmpge
  | 0xa3 => .ifIcmpgt
  | 0xa4 => .ifIcmple
  | 0xa7 => .goto
  | 0xac => .ireturn
  | 0xb0 => .areturn
  | 0xb1 => .ret
  | 0xb2 => .getstatic
  | 0xb6 => .invokevirtual
  | 0xb8 => .invokestatic
  | 0xc6 => .ifnull
  | 0xc7 => .ifnonnull
  | _ => .unknown byte

/-- The opcode's name with its words capitalised; an unknown one is named by its decimal byte. -/
def symbol : Opcode → String
  | .nop => "Nop"
  | .aconstNull => "AconstNull"
  | .iconstM1 => "IconstM1"
  | .iconst0 => "Iconst0"
  | .iconst1 => "Iconst1"
  | .iconst2 => "Iconst2"
  | .iconst3 => "Iconst3"
  | .iconst4 => "Iconst4"
  | .iconst5 => "Iconst5"
  | .bipush => "BiPush"
  | .sipush => "SiPush"
  | .ldc => "Ldc"
  | .ldcW => "LdcW"
  | .iload => "ILoad"
  | .aload => "ALoad"
  | .iload0 => "ILoad0"
  | .iload1 => "ILoad1"
  | .iload2 => "ILoad2"
  | .iload3 => "ILoad3"
  | .aload0 => "ALoad0"
  | .aload1 => "ALoad1"
  | .aload2 => "ALoad2"
  | .aload3 => "ALoad3"
  | .istore => "IStore"
  | .astore => "AStore"
  | .istore0 => "IStore0"
  | .istore1 => "IStore1"
  | .istore2 => "IStore2"
  | .istore3 => "IStore3"
  | .astore0 => "AStore0"
  | .astore1 => "AStore1"
  | .astore2 => "AStore2"
  | .astore3 => "AStore3"
  | .pop => "Pop"
  | .dup => "Dup"
  | .swap => "Swap"
  | .iadd => "IAdd"
  | .isub => "ISub"
  | .imul => "IMul"
  | .idiv => "IDiv"
  | .irem => "IRem"
  | .ineg => "INeg"
  | .iinc => "IInc"
  | .ifeq => "IfEq"
  | .ifne => "IfNe"
  | .iflt => "IfLt"
  | .ifge => "IfGe"
  | .ifgt => "IfGt"
  | .ifle => "IfLe"
  | .ifIcmpeq => "IfICmpEq"
  | .ifIcmpne => "IfICmpNe"
  | .ifIcmplt => "IfICmpLt"
  | .ifIcmpge => "IfICmpGe"
  | .ifIcmpgt => "IfICmpGt"
  | .ifIcmple => "IfICmpLe"
  | .goto => "Goto"
  | .ireturn => "IReturn"
  | .areturn => "AReturn"
  | .ret => "Return"
  | .getstatic => "GetStatic"
  | .invokevirtual => "InvokeVirtual"
  | .invokestatic => "InvokeStatic"
  | .ifnull => "IfNull"
  | .ifnonnull => "IfNonNull"
  | .unknown byte => "Unknown(" ++ toString byte.toNat ++ ")"

/-- The mnemonic of listings and messages: the symbol in lower case, or the hexadecimal byte. -/
def mnemonic : Opcode → String
  | .unknown byte => "opcode " ++ Text.Hex.numeral 2 byte.toNat
  | op => op.symbol.toLower

end Opcode

end Jvm
