import StackMachine.Typing.Error

/-!
Why a program has no code.
-/

namespace StackMachine

inductive LoweringError where
  | undeclared (name : String) (span : Span)
  | typeMismatch (name : String) (expected found : Ty) (span : Span)
  | unsupportedOperator (operator : Operator) (operands : List Ty) (span : Span)
  | unknownType (keyword : String) (span : Span)
  | unsupportedType (ty : Ty) (span : Span)
  | invalidClause (clause : Clause) (span : Span)
  /-- Any other answer to the question for a type. -/
  | typing (error : TypeError)
  deriving DecidableEq, Repr

namespace LoweringError

def ofTypeError : TypeError → LoweringError
  | .undeclared name span => .undeclared name span
  | .unknownType keyword span => .unknownType keyword span
  | .mismatch name expected found span => .typeMismatch name expected found span
  | error => .typing error

def span : LoweringError → Span
  | .undeclared _ span | .typeMismatch _ _ _ span | .unsupportedOperator _ _ span | .unknownType _ span
  | .unsupportedType _ span | .invalidClause _ span => span
  | .typing error => error.span

def message : LoweringError → String
  | .undeclared name span => s!"variable '{name}' not declared at {span}"
  | .typeMismatch name expected found span => s!"cannot assign {found} to '{name}' of type {expected} at {span}"
  | .unsupportedOperator operator operands span =>
    let types := ", ".intercalate (operands.map Ty.keyword)
    s!"operator '{operator}' is not defined for {types} at {span}"
  | .unknownType keyword span => s!"unknown type '{keyword}' at {span}"
  | .unsupportedType ty span => s!"type {ty} has no runtime representation at {span}"
  | .invalidClause clause span => s!"{clause} of a for loop must be an assignment at {span}"
  | .typing error => s!"type oracle rejected expression: {error.message}"

end LoweringError

end StackMachine
