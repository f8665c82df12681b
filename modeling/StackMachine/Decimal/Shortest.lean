import StackMachine.Decimal.Binary64

/-!
The fewest digits that read back.

Every double stands for an interval of reals, those that round to it. `shortest` looks at the decimals with one
digit, with two, and so on: the first grid with a point in the interval wins, and of its points the one nearest to
the double is taken. All is done on integers, after scaling by a power of ten that makes every grid in question whole.
-/

namespace StackMachine.Decimal

/-- The number `coefficient · 10 ^ exponent`. -/
structure Scaled where
  coefficient : Nat
  exponent : Int
  deriving DecidableEq, Repr

/-- A value and the ends of the interval around it, all three over one denominator. -/
structure Neighbourhood where
  low : Nat
  value : Nat
  high : Nat
  denominator : Nat
  /-- Whether the ends belong to the interval. -/
  closed : Bool

namespace Neighbourhood

/-- The smallest double is above `10 ^ -324`, and seventeen digits tell any two doubles apart. -/
def scale : Nat :=
  340

/-- The neighbourhood of `mantissa · 2 ^ exponent`, scaled up by `10 ^ scale`. The gap below a power of two is half
the gap above it, except at the bottom of the range. -/
def ofParts (mantissa : Nat) (exponent : Int) : Neighbourhood :=
  let gapBelow := if mantissa = Nat.pow 2 52 ∧ leastExponent < exponent then 1 else 2
  let factor := Nat.pow 2 (exponent - 2).toNat * Nat.pow 10 scale
  { low := (4 * mantissa - gapBelow) * factor
    value := 4 * mantissa * factor
    high := (4 * mantissa + 2) * factor
    denominator := Nat.pow 2 (2 - exponent).toNat
    closed := mantissa % 2 == 0 }

/-- Whether `point`, over the same denominator, lies in the interval. -/
def contains (n : Neighbourhood) (point : Nat) : Bool :=
  if n.closed then decide (n.low ≤ point) && decide (point ≤ n.high)
  else decide (n.low < point) && decide (point < n.high)

/-- The point of the grid of multiples of `10 ^ power` that lies in the interval: of two the nearer one, halfway the
upper. -/
def gridPoint? (n : Neighbourhood) (power : Nat) : Option Scaled :=
  let unit := Nat.pow 10 power * n.denominator
  let below := n.value / unit
  let above := below + 1
  let chosen :=
    match n.contains (below * unit), n.contains (above * unit) with
    | true, true => some (if 2 * (n.value - below * unit) < unit then below else above)
    | true, false => some below
    | false, true => some above
    | false, false => none
  chosen.map fun c => ⟨c, power - scale⟩

end Neighbourhood

/-- How many decimal digits a positive number has. Its binary length gives this up to one: `0.301029` is just below the
decimal logarithm of two. -/
def decimalLength (n : Nat) : Nat :=
  let fewest := n.log2 * 301029 / 1000000 + 1
  if n < Nat.pow 10 fewest then fewest else fewest + 1

/-- Moves the zeros that end a coefficient into the exponent, at most `fuel` of them. -/
def Scaled.stripZeros : Nat → Scaled → Scaled
  | 0, d => d
  | fuel + 1, d =>
    if d.coefficient % 10 = 0 then stripZeros fuel ⟨d.coefficient / 10, d.exponent + 1⟩ else d

/-- The shortest decimal for the positive double `mantissa · 2 ^ exponent`. Seventeen digits always suffice. -/
def shortest (mantissa : Nat) (exponent : Int) : Scaled :=
  let n := Neighbourhood.ofParts mantissa exponent
  let whole := n.value / n.denominator
  let places := decimalLength whole
  let found := (List.range' 1 17).findSome? fun digits => n.gridPoint? (places - digits)
  (found.getD ⟨whole, -Neighbourhood.scale⟩).stripZeros 17

end StackMachine.Decimal
