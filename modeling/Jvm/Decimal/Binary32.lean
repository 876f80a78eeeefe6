import Jvm.Decimal.Shortest

/-!
# The text of a 32-bit floating point number

A finite number is written with the fewest digits that read back as the same 32 bits. Positional
notation serves from a ten-thousandth up to ten to the sixteenth and has a digit after the point;
beyond, one digit stands before the point and a decimal exponent follows.
-/

namespace Jvm.Decimal.Binary32

/-- The biased exponent field. -/
def exponentField (bits : UInt32) : Nat := bits.toNat / 0x800000 % 256

/-- The fraction field. -/
def fractionField (bits : UInt32) : Nat := bits.toNat % 0x800000

/-- Whether the sign bit is set. -/
def isNegative (bits : UInt32) : Bool := 0x80000000 ≤ bits.toNat

/-- The significand, with the implied leading bit of a normal number. -/
def significand (bits : UInt32) : Nat :=
  if exponentField bits = 0 then fractionField bits else fractionField bits + 0x800000

/-- The reals that round to the magnitude of a finite number. They are measured in quarters of
the last place, since below a power of two the neighbour is half as far away. -/
def interval (bits : UInt32) : Interval :=
  let m := significand bits
  let below := if fractionField bits = 0 ∧ 1 < exponentField bits then 1 else 2
  let closed := m % 2 == 0
  let power := max (exponentField bits) 1
  if 152 ≤ power then
    let scale := Nat.pow 2 (power - 152)
    ⟨(4 * m - below) * scale, 4 * m * scale, (4 * m + 2) * scale, 1, closed⟩
  else ⟨4 * m - below, 4 * m, 4 * m + 2, Nat.pow 2 (152 - power), closed⟩

/-- The shortest decimal of a number that is finite and not zero. Ten to the power 39 is above
every such number, and a step of ten to the power -60 is finer than any interval. -/
def shortest (bits : UInt32) : Scaled := (search (interval bits) 100 39).getD ⟨0, 0⟩

/-- `digits` with the point after the first `place` of them, in positional notation. -/
def positional (digits : String) (place : Int) : String :=
  if place ≤ 0 then "0." ++ String.ofList (List.replicate (-place).toNat '0') ++ digits
  else
    let whole := digits.toList.take place.toNat
    let fraction := digits.toList.drop place.toNat
    String.ofList (whole ++ List.replicate (place.toNat - whole.length) '0') ++ "." ++
      (if fraction.isEmpty then "0" else String.ofList fraction)

/-- `digits` with the point after the first of them and the exponent that puts it at `place`. -/
def scientific (digits : String) (place : Int) : String :=
  let head := String.ofList (digits.toList.take 1)
  let fraction := digits.toList.drop 1
  head ++ (if fraction.isEmpty then "" else "." ++ String.ofList fraction) ++ "e" ++
    toString (place - 1)

/-- The text of a number that is finite and not zero, without its sign. -/
def magnitude (bits : UInt32) : String :=
  let s := shortest bits
  let digits := toString s.digits
  let place := digits.length + s.exponent
  if -3 ≤ place ∧ place ≤ 16 then positional digits place else scientific digits place

/-- The text of the number with the given bits. -/
def text (bits : UInt32) : String :=
  let sign := if isNegative bits then "-" else ""
  if exponentField bits = 255 then
    if fractionField bits = 0 then sign ++ "inf" else "NaN"
  else if significand bits = 0 then sign ++ "0.0"
  else sign ++ magnitude bits

end Jvm.Decimal.Binary32
