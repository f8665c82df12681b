import StackMachine.Source.Ty

/-!
The operators and the type that each gives to its operands.
-/

namespace StackMachine

inductive BinaryOp where
  | add
  | sub
  | mul
  | div
  | mod
  | concat
  | eq
  | ne
  | lt
  | le
  | gt
  | ge
  deriving DecidableEq, Repr

inductive UnaryOp where
  | neg
  | not
  deriving DecidableEq, Repr

/-- The connectives. Both sides of one are always evaluated. -/
inductive LogicalOp where
  | and
  | or
  deriving DecidableEq, Repr

/-- Any operator, as messages name them. -/
inductive Operator where
  | binary (op : BinaryOp)
  | unary (op : UnaryOp)
  | logical (op : LogicalOp)
  deriving DecidableEq, Repr

namespace BinaryOp

def all : List BinaryOp :=
  [.add, .sub, .mul, .div, .mod, .concat, .eq, .ne, .lt, .le, .gt, .ge]

def symbol : BinaryOp → String
  | .add => "+"
  | .sub => "-"
  | .mul => "*"
  | .div => "/"
  | .mod => "%"
  | .concat => "."
  | .eq => "=="
  | .ne => "!="
  | .lt => "<"
  | .le => "<="
  | .gt => ">"
  | .ge => ">="

def ofSymbol? (symbol : String) : Option BinaryOp :=
  all.find? fun op => op.symbol = symbol

/-- The common type of two numbers: `float` as soon as one of them is. -/
def numericResult? (left right : Ty) : Option Ty :=
  if left.isNumeric && right.isNumeric then
    some (if left = .float || right = .float then .float else .int)
  else none

def result? (op : BinaryOp) (left right : Ty) : Option Ty :=
  match op with
  | .add | .sub | .mul | .div => numericResult? left right
  | .mod => if left = .int && right = .int then some .int else none
  | .concat => if left = .string && right = .string then some .string else none
  | .eq | .ne =>
    if left.isNumeric && right.isNumeric || left = right && left.isPrimitive then some .bool else none
  | .lt | .le | .gt | .ge => if left.isNumeric && right.isNumeric then some .bool else none

end BinaryOp

namespace UnaryOp

def all : List UnaryOp :=
  [.neg, .not]

def symbol : UnaryOp → String
  | .neg => "-"
  | .not => "!"

def ofSymbol? (symbol : String) : Option UnaryOp :=
  all.find? fun op => op.symbol = symbol

def result? (op : UnaryOp) (operand : Ty) : Option Ty :=
  match op with
  | .neg => if operand.isNumeric then some operand else none
  | .not => if operand = .bool then some .bool else none

end UnaryOp

namespace LogicalOp

def all : List LogicalOp :=
  [.and, .or]

def symbol : LogicalOp → String
  | .and => "&&"
  | .or => "||"

def ofSymbol? (symbol : String) : Option LogicalOp :=
  all.find? fun op => op.symbol = symbol

def result? (left right : Ty) : Option Ty :=
  if left = .bool && right = .bool then some .bool else none

end LogicalOp

def Operator.symbol : Operator → String
  | .binary op => op.symbol
  | .unary op => op.symbol
  | .logical op => op.symbol

instance : ToString Operator :=
  ⟨Operator.symbol⟩

end StackMachine
