import StackMachine.Decimal.Shortest

/-!
How floating-point numbers are written.

There are two forms. The printed form writes a whole number exactly, with one zero behind the point, and any other
number with its shortest digits and no exponent. The literal form always takes the shortest digits, and has an exponent
for numbers below `10 ^ -4` and from `10 ^ 16` on.
-/

namespace StackMachine.Decimal

def zeros (n : Nat) : String :=
  "".pushn '0' n

/-- The decimal written out around its point, with at least one digit on either side. -/
def Scaled.positional (d : Scaled) : String :=
  let digits := toString d.coefficient
  let fraction := (-d.exponent).toNat
  if fraction = 0 then digits ++ zeros d.exponent.toNat ++ ".0"
  else
    let padded := (zeros (fraction + 1 - digits.length) ++ digits).toList
    let whole := padded.length - fraction
    String.ofList (padded.take whole) ++ "." ++ String.ofList (padded.drop whole)

/-- The power of ten of the first digit. -/
def Scaled.magnitude (d : Scaled) : Int :=
  d.exponent + ((toString d.coefficient).length - 1 : Nat)

/-- One digit, the others behind a point, and the power of ten. -/
def Scaled.scientific (d : Scaled) : String :=
  let digits := (toString d.coefficient).toList
  let mantissa := match digits with
    | first :: second :: rest => first :: '.' :: second :: rest
    | digits => digits
  String.ofList mantissa ++ "e" ++ toString d.magnitude

/-- The literal form has no exponent for first digits from `10 ^ -4` to `10 ^ 15`. -/
def Scaled.literal (d : Scaled) : String :=
  if -4 ≤ d.magnitude ∧ d.magnitude < 16 then d.positional else d.scientific

def signText (negative : Bool) : String :=
  if negative then "-" else ""

/-- The whole number `mantissa · 2 ^ exponent`, if it is one. -/
def whole? (mantissa : Nat) (exponent : Int) : Option Nat :=
  let denominator := Nat.pow 2 (-exponent).toNat
  if mantissa % denominator = 0 then some (mantissa / denominator * Nat.pow 2 exponent.toNat) else none

/-- The text of a double, given how a finite magnitude is written. -/
def render (finite : Nat → Int → String) (x : Float) : String :=
  match Binary64.ofFloat x with
  | .nan => "NaN"
  | .infinite negative => signText negative ++ "inf"
  | .finite negative mantissa exponent => signText negative ++ finite mantissa exponent

/-- The text that a program prints for a double. -/
def printed : Float → String :=
  render fun mantissa exponent =>
    match whole? mantissa exponent with
    | some n => toString n ++ ".0"
    | none => (shortest mantissa exponent).positional

/-- The text that stands for a double in generated code. -/
def literal : Float → String :=
  render fun mantissa exponent =>
    if mantissa = 0 then "0.0" else (shortest mantissa exponent).literal

end StackMachine.Decimal
