/-!
# Byte strings and big-endian words

Class files and code arrays are byte strings, and every word in them is written with its most
significant byte first.
-/

namespace Jvm

/-- A finite string of bytes. -/
abbrev Bytes := List UInt8

namespace Bytes

/-- The 16-bit word that two bytes spell. -/
def word16 (hi lo : UInt8) : UInt16 := UInt16.ofNat (hi.toNat * 256 + lo.toNat)

/-- The 32-bit word that two halves spell. -/
def word32 (hi lo : UInt16) : UInt32 := UInt32.ofNat (hi.toNat * 65536 + lo.toNat)

/-- The 64-bit word that two halves spell. -/
def word64 (hi lo : UInt32) : UInt64 := UInt64.ofNat (hi.toNat * 4294967296 + lo.toNat)

/-- Whether `bytes` holds at least `n` bytes; it looks at no more than `n` of them. -/
def hasAtLeast (n : Nat) (bytes : Bytes) : Bool := (bytes.take n).length == n

theorem hasAtLeast_iff {n : Nat} {bytes : Bytes} :
    bytes.hasAtLeast n = true ↔ n ≤ bytes.length := by
  simp only [hasAtLeast, List.length_take, beq_iff_eq]
  omega

end Bytes

end Jvm
