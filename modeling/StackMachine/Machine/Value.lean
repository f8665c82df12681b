import StackMachine.Code.Kind
import StackMachine.Decimal.Layout
import StackMachine.Decimal.Reader
import StackMachine.Text.Blank
import StackMachine.Text.Quoted

/-!
Values, their text and how they are read.
-/

namespace StackMachine

/-- The data of the values of a kind. -/
@[reducible] def Kind.Carrier : Kind → Type
  | .int => Int64
  | .float => Float
  | .string => String
  | .bool => Bool

inductive Value where
  | int (n : Int64)
  | float (x : Float)
  | string (s : String)
  | bool (b : Bool)
  deriving DecidableEq, Inhabited

namespace Value

def kind : Value → Kind
  | .int _ => .int
  | .float _ => .float
  | .string _ => .string
  | .bool _ => .bool

/-- The value of a kind with the given data. -/
def of : (kind : Kind) → kind.Carrier → Value
  | .int, n => .int n
  | .float, x => .float x
  | .string, s => .string s
  | .bool, b => .bool b

/-- The data of a value, if it is of the kind asked for. -/
def as? : (kind : Kind) → Value → Option kind.Carrier
  | .int, .int n => some n
  | .float, .float x => some x
  | .string, .string s => some s
  | .bool, .bool b => some b
  | _, _ => none

@[simp] theorem kind_of (kind : Kind) (data : kind.Carrier) : (of kind data).kind = kind := by
  cases kind <;> rfl

@[simp] theorem as?_of (kind : Kind) (data : kind.Carrier) : (of kind data).as? kind = some data := by
  cases kind <;> rfl

theorem as?_eq_some_iff {kind : Kind} {v : Value} {data : kind.Carrier} :
    v.as? kind = some data ↔ v = of kind data := by
  constructor
  · intro h
    cases kind <;> cases v <;> simp_all [as?, of]
  · rintro rfl
    exact as?_of kind data

theorem as?_eq_none_iff {kind : Kind} {v : Value} : v.as? kind = none ↔ v.kind ≠ kind := by
  cases kind <;> cases v <;> simp [as?, Value.kind]

/-- What a program prints for a value. -/
def text : Value → String
  | .int n => toString n.toInt
  | .float x => Decimal.printed x
  | .string s => s
  | .bool b => toString b

/-- Whether a value counts as true; a string counts as neither. A number does when its whole part is not zero, and so
does NaN. -/
def truthy? : Value → Option Bool
  | .int n => some (n != 0)
  | .float x => some (!decide (x.abs < 1.0))
  | .string _ => none
  | .bool b => some b

/-- The value of a literal in instruction text. -/
def ofLiteral? (kind : Kind) (literal : String) : Option Value :=
  match kind with
  | .int => (Text.int64? literal.toList).map .int
  | .float => (Decimal.read? literal.toList).map .float
  | .string => (Text.unquote? literal).map .string
  | .bool =>
    if literal = "true" then some (.bool true)
    else if literal = "false" then some (.bool false)
    else none

/-- The value of an input line. A string takes the line as it is, the others without the blanks around. -/
def ofLine? (kind : Kind) (line : String) : Option Value :=
  let trimmed := Text.trim line.toList
  match kind with
  | .int => (Text.int64? trimmed).map .int
  | .float => (Decimal.read? trimmed).map .float
  | .string => some (.string line)
  | .bool =>
    let word := String.ofList (trimmed.map Char.toLower)
    if word = "true" then some (.bool true)
    else if word = "false" then some (.bool false)
    else none

end Value

end StackMachine
