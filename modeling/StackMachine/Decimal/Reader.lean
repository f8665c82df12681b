import StackMachine.Text.Numeral

/-!
Reading floating-point numbers.

A number is digits with an optional point among, before or behind them and an optional power of ten; `inf`,
`infinity` and `nan` are numbers too, in any mix of cases. A sign may stand in front of either. The result is the
nearest double.
-/

namespace StackMachine.Decimal

open Text

/-- The number that the digits of an exponent spell. Digits count only until it has reached 65536: by then the
power of ten is far beyond every double. -/
def exponentValue (digits : List Char) : Nat :=
  digits.foldl (fun n c => if n < 65536 then 10 * n + (digit? c).getD 0 else n) 0

/-- What follows the digits: nothing, or a mark and a signed run of digits. -/
def powerOfTen? : List Char → Option Int
  | [] => some 0
  | mark :: rest =>
    if mark = 'e' ∨ mark = 'E' then
      let digits := match rest with
        | '-' :: digits => digits
        | '+' :: digits => digits
        | digits => digits
      if digits.isEmpty || !digits.all isDigit then none
      else if rest.head? = some '-' then some (-(exponentValue digits : Int))
      else some (exponentValue digits)
    else none

/-- The double nearest to `coefficient · 10 ^ exponent`, found with whole numbers only. -/
def nearest (coefficient : Nat) (exponent : Int) : Float :=
  Float.ofModel (Float.Model.ofScientific coefficient exponent)

/-- A number without sign. -/
def magnitude? (text : List Char) : Option Float :=
  let whole := text.takeWhile isDigit
  let rest := text.dropWhile isDigit
  let fraction := match rest with
    | '.' :: rest => rest.takeWhile isDigit
    | _ => []
  let rest := match rest with
    | '.' :: rest => rest.dropWhile isDigit
    | rest => rest
  if whole.isEmpty && fraction.isEmpty then none
  else (powerOfTen? rest).map fun power => nearest (digitsValue (whole ++ fraction)) (power - fraction.length)

/-- The names of the values that no digits spell. -/
def named? (text : List Char) : Option Float :=
  match String.ofList (text.map Char.toLower) with
  | "inf" | "infinity" => some (1.0 / 0.0)
  | "nan" => some (0.0 / 0.0)
  | _ => none

def read? (text : List Char) : Option Float :=
  match text with
  | '-' :: rest => (magnitude? rest <|> named? rest).map fun x => -x
  | '+' :: rest => magnitude? rest <|> named? rest
  | rest => magnitude? rest <|> named? rest

end StackMachine.Decimal
