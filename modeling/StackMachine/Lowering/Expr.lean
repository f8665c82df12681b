import StackMachine.Code.Assembly
import StackMachine.Decimal.Layout
import StackMachine.Lowering.Error
import StackMachine.Text.Quoted
import StackMachine.Typing.Oracle

/-!
The code of expressions.

The code of an expression pushes one value. Where an integer meets a float, or is assigned to one, it is widened right
after its own code. Saving takes a value off the stack, so an assignment loads its target again; in a chain of
assignments the value goes from the innermost target outward, each time by loading the target saved last.
-/

namespace StackMachine

/-- Instructions with the source line of each. -/
abbrev Emitted :=
  List (Instruction × Nat)

/-- The code of an expression. -/
structure Lowered where
  code : Emitted
  /-- The type of the value that the code leaves. -/
  ty : Ty
  /-- For the inner part of a chain of assignments: the variable that has the value, instead of the stack. -/
  saved : Option (String × Kind)

/-- How a binary operator is computed: the kind that both operands are brought to, what then follows, and the type of
the result. -/
structure BinaryPlan where
  operand : Kind
  instructions : List Instruction
  result : Ty

namespace BinaryOp

/-- The kind in which two numbers are computed with. -/
def numericKind? (left right : Ty) : Option Kind :=
  (numericResult? left right).bind Kind.ofTy?

/-- The kind in which two values are compared for equality. -/
def commonKind? (left right : Ty) : Option Kind :=
  match numericKind? left right with
  | some kind => some kind
  | none => if left = right then Kind.ofTy? left else none

def plan? (op : BinaryOp) (left right : Ty) : Option BinaryPlan :=
  match op with
  | .add | .sub | .mul | .div =>
    (numericKind? left right).map fun kind => ⟨kind, [.typed op.opcode kind], kind.toTy⟩
  | .lt | .le | .gt | .ge =>
    (numericKind? left right).map fun kind => ⟨kind, [.typed op.opcode kind], .bool⟩
  | .mod => if left = .int ∧ right = .int then some ⟨.int, [.plain .mod], .int⟩ else none
  | .concat => if left = .string ∧ right = .string then some ⟨.string, [.plain .concat], .string⟩ else none
  | .eq => (commonKind? left right).map fun kind => ⟨kind, [.typed .eq kind], .bool⟩
  | .ne => (commonKind? left right).map fun kind => ⟨kind, [.typed .eq kind, .plain .not], .bool⟩

end BinaryOp

namespace UnaryOp

def instruction? (op : UnaryOp) (operand : Ty) : Option Instruction :=
  match op, operand with
  | .neg, .int => some (.typed .uminus .int)
  | .neg, .float => some (.typed .uminus .float)
  | .not, .bool => some (.plain .not)
  | _, _ => none

end UnaryOp

namespace Lowering

/-- The answer to a question for a type. -/
def ask (answer : Except TypeError Ty) : Except LoweringError Ty :=
  answer.mapError LoweringError.ofTypeError

def kindOf (ty : Ty) (span : Span) : Except LoweringError Kind :=
  match Kind.ofTy? ty with
  | some kind => .ok kind
  | none => .error (.unsupportedType ty span)

/-- What brings an operand to the kind it is computed in. -/
def widening (ty : Ty) (kind : Kind) (line : Nat) : Emitted :=
  if ty = .int ∧ kind = .float then [(.plain .itof, line)] else []

/-- What brings a value to the type of the variable it is assigned to. -/
def coercion (source target : Ty) (name : String) (span : Span) : Except LoweringError Emitted :=
  if source = target then .ok []
  else if source = .int ∧ target = .float then .ok [(.plain .itof, span.line)]
  else .error (.typeMismatch name target source span)

/-- Loads the variable that an inner assignment saved. -/
def reload (saved : Option (String × Kind)) (line : Nat) : Emitted :=
  match saved with
  | some (name, kind) => [(.load kind name, line)]
  | none => []

end Lowering

namespace Expr

open Lowering

/-- The code of an expression. `chain` is the span of the outermost assignment, if the expression is what an
assignment assigns. -/
def lowerIn (oracle : Oracle) (chain : Option Span) : Expr → Except LoweringError Lowered
  | .int n span => .ok ⟨[(.push .int (toString n.toInt), span.line)], .int, none⟩
  | .float x span => .ok ⟨[(.push .float (Decimal.literal x), span.line)], .float, none⟩
  | .string s span => .ok ⟨[(.push .string (Text.quote s), span.line)], .string, none⟩
  | .bool b span => .ok ⟨[(.push .bool (toString b), span.line)], .bool, none⟩
  | .var name span => do
    let ty ← ask (oracle.declaredType name span)
    let kind ← kindOf ty span
    pure ⟨[(.load kind name, span.line)], ty, none⟩
  | .binary op left right span => do
    let leftType ← ask (oracle.typeOf left)
    let rightType ← ask (oracle.typeOf right)
    match op.plan? leftType rightType with
    | none => throw (.unsupportedOperator (.binary op) [leftType, rightType] span)
    | some plan =>
      let l ← left.lowerIn oracle none
      let r ← right.lowerIn oracle none
      let operands :=
        l.code ++ widening leftType plan.operand left.line ++ (r.code ++ widening rightType plan.operand right.line)
      pure ⟨operands ++ plan.instructions.map fun i => (i, span.line), plan.result, none⟩
  | .unary op operand span => do
    let e ← operand.lowerIn oracle none
    match op.instruction? e.ty with
    | none => throw (.unsupportedOperator (.unary op) [e.ty] span)
    | some i => pure ⟨e.code ++ [(i, span.line)], e.ty, none⟩
  | .logical op left right span => do
    let l ← left.lowerIn oracle none
    let r ← right.lowerIn oracle none
    if l.ty = .bool ∧ r.ty = .bool then
      pure ⟨l.code ++ r.code ++ [(.plain op.opcode, span.line)], .bool, none⟩
    else throw (.unsupportedOperator (.logical op) [l.ty, r.ty] span)
  | .group inner _ => inner.lowerIn oracle none
  | .assign target value span => do
    let place := chain.getD span
    let source ← value.lowerIn oracle (some place)
    let targetType ← ask (oracle.declaredType target place)
    let kind ← kindOf targetType place
    let coerced ← coercion source.ty targetType target place
    let code := source.code ++ reload source.saved place.line ++ coerced ++ [(.save kind target, place.line)]
    match chain with
    | some _ => pure ⟨code, targetType, some (target, kind)⟩
    | none => pure ⟨code ++ [(.load kind target, place.line)], targetType, none⟩

def lower (oracle : Oracle) (e : Expr) : Except LoweringError Lowered :=
  e.lowerIn oracle none

end Expr

end StackMachine
