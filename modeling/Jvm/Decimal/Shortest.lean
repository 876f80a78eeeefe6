/-!
# The shortest decimal that reads back

A binary floating point number stands for every real that rounds to it, an interval around its
value. `search` goes from coarse decimal grids to fine ones, so the first decimal that it finds in
the interval has the fewest digits, and of those it is the nearest to the value. All arithmetic is
on exact fractions of natural numbers.
-/

namespace Jvm.Decimal

/-- The numbers that round to a value: `value`, `low` and `high` are numerators over `unit`, and
the ends belong to the interval when `closed` holds. -/
structure Interval where
  low : Nat
  value : Nat
  high : Nat
  unit : Nat
  closed : Bool

namespace Interval

/-- Whether the fraction `num / den` lies in the interval. -/
def holds (i : Interval) (num den : Nat) : Bool :=
  let place := num * i.unit
  if i.closed then i.low * den ≤ place && place ≤ i.high * den
  else i.low * den < place && place < i.high * den

end Interval

/-- The decimal `digits * 10 ^ exponent`. -/
structure Scaled where
  digits : Nat
  exponent : Int
deriving DecidableEq, Repr

/-- Numerator and denominator of ten to the power `e`. -/
def powerOfTen (e : Int) : Nat × Nat :=
  if 0 ≤ e then (Nat.pow 10 e.toNat, 1) else (1, Nat.pow 10 (-e).toNat)

/-- The multiple of ten to the power `e` in the interval that is nearest to its value, if there is
one. Of two multiples at the same distance it is the upper one. -/
def onGrid (i : Interval) (e : Int) : Option Scaled :=
  let (num, den) := powerOfTen e
  let below := i.value * den / (i.unit * num)
  let above := below + 1
  let belowFits := i.holds (below * num) den
  let aboveFits := i.holds (above * num) den
  let belowNearer := 2 * (i.value * den) < (below + above) * num * i.unit
  if belowFits && (belowNearer || !aboveFits) then some ⟨below, e⟩
  else if aboveFits then some ⟨above, e⟩
  else none

/-- The first grid that meets the interval, from ten to the power `e` down, in `fuel` trials. -/
def search (i : Interval) : (fuel : Nat) → (e : Int) → Option Scaled
  | 0, _ => none
  | fuel + 1, e =>
    match onGrid i e with
    | some s => some s
    | none => search i fuel (e - 1)

end Jvm.Decimal
