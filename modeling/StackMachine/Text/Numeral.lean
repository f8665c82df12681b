/-!
Integer numerals.

A natural number is one or more decimal digits. A signed number may start with either sign, a count only with a plus.
Both are read in full and then held to their 64 bits.
-/

namespace StackMachine.Text

def digit? (c : Char) : Option Nat :=
  if '0' ≤ c ∧ c ≤ '9' then some (c.toNat - '0'.toNat) else none

def isDigit (c : Char) : Bool :=
  (digit? c).isSome

/-- The number that a run of digits spells, the first digit weighing most. -/
def digitsValue (digits : List Char) : Nat :=
  digits.foldl (fun n c => 10 * n + (digit? c).getD 0) 0

/-- One or more digits and nothing else. -/
def natural? (text : List Char) : Option Nat :=
  if !text.isEmpty && text.all isDigit then some (digitsValue text) else none

def signed? : List Char → Option Int
  | '-' :: rest => (natural? rest).map fun n : Nat => -(n : Int)
  | '+' :: rest => (natural? rest).map fun n : Nat => (n : Int)
  | text => (natural? text).map fun n : Nat => (n : Int)

/-- A signed numeral between `-2^63` and `2^63 - 1`. -/
def int64? (text : List Char) : Option Int64 :=
  (signed? text).bind fun n =>
    if Int64.minValue.toInt ≤ n ∧ n ≤ Int64.maxValue.toInt then some (Int64.ofInt n) else none

/-- A numeral without minus sign, below `2^64`. -/
def count? (text : List Char) : Option Nat :=
  let digits := match text with
    | '+' :: rest => rest
    | text => text
  (natural? digits).filter fun n => decide (n < UInt64.size)

end StackMachine.Text
