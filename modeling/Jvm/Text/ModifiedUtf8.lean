import Jvm.Bytes
import Jvm.Text.Utf16

/-!
# Modified UTF-8

Class files write text as groups of one, two or three bytes, one group per UTF-16 unit: NUL takes
two bytes, and a supplementary character is a surrogate pair of three bytes each. A group may be
longer than its unit needs; a byte `00` or `F0` and above opens no group.
-/

namespace Jvm.Text.ModifiedUtf8

/-- A byte that continues a group. -/
def isContinuation (b : UInt8) : Bool := 0x80 ≤ b.toNat && b.toNat < 0xc0

/-- The six bits that a continuation byte carries. -/
def payload (b : UInt8) : Nat := b.toNat % 64

/-- The unit of a two-byte group. -/
def unit2 (a b : UInt8) : UInt16 := UInt16.ofNat (a.toNat % 32 * 64 + payload b)

/-- The unit of a three-byte group. -/
def unit3 (a b c : UInt8) : UInt16 :=
  UInt16.ofNat ((a.toNat % 16 * 64 + payload b) * 64 + payload c)

/-- The UTF-16 units of the groups that `bytes` splits into, if it does. -/
def units : Bytes → Option (List UInt16)
  | [] => some []
  | a :: rest =>
    if 0x01 ≤ a.toNat && a.toNat ≤ 0x7f then (a.toUInt16 :: ·) <$> units rest
    else if 0xc0 ≤ a.toNat && a.toNat ≤ 0xdf then
      match rest with
      | b :: rest =>
        if isContinuation b then (unit2 a b :: ·) <$> units rest else none
      | [] => none
    else if 0xe0 ≤ a.toNat && a.toNat ≤ 0xef then
      match rest with
      | b :: c :: rest =>
        if isContinuation b && isContinuation c then (unit3 a b c :: ·) <$> units rest else none
      | _ => none
    else none

/-- The text that `bytes` spells. -/
def decode (bytes : Bytes) : Option String :=
  (units bytes >>= Utf16.decode).map String.ofList

end Jvm.Text.ModifiedUtf8
