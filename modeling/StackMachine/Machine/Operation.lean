import StackMachine.Machine.Fault
import StackMachine.Machine.Value
import StackMachine.Source.Operator

/-!
Operations: what an instruction asks of the machine once its kind and operand are understood.

An operation that computes takes its operands in one kind and gives its result in one kind, and its meaning is a
function on the data of these kinds. So an operation cannot go wrong on the values it was given the right to; what is
left are division by zero and the resources of the machine.
-/

namespace StackMachine

/-- The kinds that arithmetic and order know. -/
inductive Numeric where
  | int
  | float
  deriving DecidableEq, Repr

@[reducible] def Numeric.kind : Numeric → Kind
  | .int => .int
  | .float => .float

def Kind.numeric? : Kind → Option Numeric
  | .int => some .int
  | .float => some .float
  | _ => none

inductive Arithmetic where
  | add
  | sub
  | mul
  | div
  deriving DecidableEq, Repr

namespace Arithmetic

/-- Integers wrap around at 64 bits, and division goes toward zero. -/
def onInt : Arithmetic → Int64 → Int64 → Except Fault Int64
  | .add, a, b => .ok (a + b)
  | .sub, a, b => .ok (a - b)
  | .mul, a, b => .ok (a * b)
  | .div, a, b => if b = 0 then .error .divisionByZero else .ok (a / b)

def onFloat : Arithmetic → Float → Float → Except Fault Float
  | .add, a, b => .ok (a + b)
  | .sub, a, b => .ok (a - b)
  | .mul, a, b => .ok (a * b)
  | .div, a, b => if Float.beq b 0.0 then .error .divisionByZero else .ok (a / b)

def apply (op : Arithmetic) : (kind : Numeric) → kind.kind.Carrier → kind.kind.Carrier → Except Fault kind.kind.Carrier
  | .int => op.onInt
  | .float => op.onFloat

end Arithmetic

inductive Relation where
  | gt
  | lt
  | ge
  | le
  deriving DecidableEq, Repr

namespace Relation

/-- NaN stands in no relation to anything. -/
def holds : Relation → (kind : Numeric) → kind.kind.Carrier → kind.kind.Carrier → Bool
  | .gt, .int, a, b => decide (b < a)
  | .lt, .int, a, b => decide (a < b)
  | .ge, .int, a, b => decide (b ≤ a)
  | .le, .int, a, b => decide (a ≤ b)
  | .gt, .float, a, b => decide (b < a)
  | .lt, .float, a, b => decide (a < b)
  | .ge, .float, a, b => decide (b ≤ a)
  | .le, .float, a, b => decide (a ≤ b)

end Relation

/-- Equality of data of one kind. The two zeros among the floats are equal, and NaN is not equal to itself. -/
def Kind.equal : (kind : Kind) → kind.Carrier → kind.Carrier → Bool
  | .int, a, b => decide (a = b)
  | .float, a, b => Float.beq a b
  | .string, a, b => decide (a = b)
  | .bool, a, b => decide (a = b)

/-- The operations on two operands of one kind. -/
inductive Binary where
  | arithmetic (op : Arithmetic) (kind : Numeric)
  | mod
  | concat
  | logical (op : LogicalOp)
  | compare (relation : Relation) (kind : Numeric)
  | equal (kind : Kind)
  deriving DecidableEq, Repr

namespace Binary

@[reducible] def operand : Binary → Kind
  | .arithmetic _ kind => kind.kind
  | .mod => .int
  | .concat => .string
  | .logical _ => .bool
  | .compare _ kind => kind.kind
  | .equal kind => kind

@[reducible] def result : Binary → Kind
  | .arithmetic _ kind => kind.kind
  | .mod => .int
  | .concat => .string
  | .logical _ => .bool
  | .compare _ _ => .bool
  | .equal _ => .bool

def opcode : Binary → Opcode
  | .arithmetic .add _ => .add
  | .arithmetic .sub _ => .sub
  | .arithmetic .mul _ => .mul
  | .arithmetic .div _ => .div
  | .mod => .mod
  | .concat => .concat
  | .logical .and => .and
  | .logical .or => .or
  | .compare .gt _ => .gt
  | .compare .lt _ => .lt
  | .compare .ge _ => .ge
  | .compare .le _ => .le
  | .equal _ => .eq

/-- The first argument is the operand that was pushed first. -/
def apply : (op : Binary) → op.operand.Carrier → op.operand.Carrier → Except Fault op.result.Carrier
  | .arithmetic op kind => op.apply kind
  | .mod => fun (a b : Int64) => if b = 0 then .error .divisionByZero else .ok (a % b)
  | .concat => fun (a b : String) => .ok (a ++ b)
  | .logical .and => fun (a b : Bool) => .ok (a && b)
  | .logical .or => fun (a b : Bool) => .ok (a || b)
  | .compare relation kind => fun a b => .ok (relation.holds kind a b)
  | .equal kind => fun a b => .ok (kind.equal a b)

end Binary

/-- The operations on one operand. -/
inductive Unary where
  | neg (kind : Numeric)
  | not
  | widen
  deriving DecidableEq, Repr

namespace Unary

@[reducible] def operand : Unary → Kind
  | .neg kind => kind.kind
  | .not => .bool
  | .widen => .int

@[reducible] def result : Unary → Kind
  | .neg kind => kind.kind
  | .not => .bool
  | .widen => .float

def opcode : Unary → Opcode
  | .neg _ => .uminus
  | .not => .not
  | .widen => .itof

def apply : (op : Unary) → op.operand.Carrier → op.result.Carrier
  | .neg .int => fun (a : Int64) => -a
  | .neg .float => fun (a : Float) => -a
  | .not => fun (a : Bool) => !a
  | .widen => fun (a : Int64) => a.toFloat

end Unary

inductive Operation where
  | binary (op : Binary)
  | unary (op : Unary)
  | push (v : Value)
  | pop
  | load (kind : Kind) (name : String)
  | save (kind : Kind) (name : String)
  /-- A place to jump to; nothing happens there. -/
  | label
  | jump (target : Nat)
  /-- Jumps when the value on top counts as false. -/
  | branch (target : Nat)
  | print (count : Nat)
  | read (kind : Kind)
  deriving DecidableEq

end StackMachine
