/-!
# Reading UTF-16

A sequence of 16-bit units is text when every high surrogate is followed by a low one and no low
surrogate stands alone. Such a pair is one supplementary character.
-/

namespace Jvm.Text.Utf16

/-- A unit that opens a surrogate pair. -/
def isHighSurrogate (u : UInt16) : Bool := 0xd800 ≤ u.toNat && u.toNat < 0xdc00

/-- A unit that closes a surrogate pair. -/
def isLowSurrogate (u : UInt16) : Bool := 0xdc00 ≤ u.toNat && u.toNat < 0xe000

/-- The supplementary character of a surrogate pair. -/
def pairedChar (high low : UInt16) : Char :=
  Char.ofNat (0x10000 + (high.toNat - 0xd800) * 0x400 + (low.toNat - 0xdc00))

/-- The characters that the units spell, unless a surrogate is unpaired. -/
def decode : List UInt16 → Option (List Char)
  | [] => some []
  | [u] =>
    if isHighSurrogate u || isLowSurrogate u then none else some [Char.ofNat u.toNat]
  | u :: v :: rest =>
    if isHighSurrogate u then
      if isLowSurrogate v then (pairedChar u v :: ·) <$> decode rest else none
    else if isLowSurrogate u then none
    else (Char.ofNat u.toNat :: ·) <$> decode (v :: rest)

end Jvm.Text.Utf16
