/-!
# Hexadecimal numerals of a fixed width
-/

namespace Jvm.Text.Hex

/-- The lower-case hexadecimal digit of a number below sixteen. -/
def digit (n : Nat) : Char := Nat.digitChar (n % 16)

/-- The last `width` hexadecimal digits of `n`, most significant first. -/
def digits : (width : Nat) → (n : Nat) → List Char
  | 0, _ => []
  | width + 1, n => digits width (n / 16) ++ [digit n]

/-- A numeral of exactly `width` digits with the mark `0x` in front. -/
def numeral (width n : Nat) : String := "0x" ++ String.ofList (digits width n)

end Jvm.Text.Hex
