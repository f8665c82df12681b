import StackMachine.Typing.SymbolTable

/-!
The types of expressions.

`Expr.infer` gives the type that the code of an expression leaves behind, as far as the types of its variables tell;
it takes an assignment at its word. `Expr.check` holds each assigned value to its target as well.
-/

namespace StackMachine

def BinaryOp.typing (op : BinaryOp) (left right : Ty) (span : Span) : Except TypeError Ty :=
  match op.result? left right with
  | some ty => .ok ty
  | none => .error (.invalidOperands (.binary op) left right span)

def UnaryOp.typing (op : UnaryOp) (operand : Ty) (span : Span) : Except TypeError Ty :=
  match op.result? operand with
  | some ty => .ok ty
  | none => .error (.invalidOperand (.unary op) operand span)

def LogicalOp.typing (op : LogicalOp) (left right : Ty) (span : Span) : Except TypeError Ty :=
  match LogicalOp.result? left right with
  | some ty => .ok ty
  | none => .error (.invalidOperands (.logical op) left right span)

namespace Expr

def infer (scope : Scope) : Expr → Except TypeError Ty
  | .int _ _ => .ok .int
  | .float _ _ => .ok .float
  | .string _ _ => .ok .string
  | .bool _ _ => .ok .bool
  | .var name span => scope name span
  | .binary op left right span => do
    let leftType ← left.infer scope
    let rightType ← right.infer scope
    op.typing leftType rightType span
  | .unary op operand span => do
    let operandType ← operand.infer scope
    op.typing operandType span
  | .logical op left right span => do
    let leftType ← left.infer scope
    let rightType ← right.infer scope
    op.typing leftType rightType span
  | .group inner _ => inner.infer scope
  | .assign target _ span => scope target span

def check (scope : Scope) : Expr → Except TypeError Ty
  | .int _ _ => .ok .int
  | .float _ _ => .ok .float
  | .string _ _ => .ok .string
  | .bool _ _ => .ok .bool
  | .var name span => scope name span
  | .binary op left right span => do
    let leftType ← left.check scope
    let rightType ← right.check scope
    op.typing leftType rightType span
  | .unary op operand span => do
    let operandType ← operand.check scope
    op.typing operandType span
  | .logical op left right span => do
    let leftType ← left.check scope
    let rightType ← right.check scope
    op.typing leftType rightType span
  | .group inner _ => inner.check scope
  | .assign target value span => do
    let targetType ← scope target span
    let valueType ← value.check scope
    if valueType.assignableTo targetType then .ok targetType
    else .error (.mismatch target targetType valueType span)

end Expr

end StackMachine
