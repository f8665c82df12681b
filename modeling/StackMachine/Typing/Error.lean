import StackMachine.Source.Stmt

/-!
What can be wrong with the types of a program, and how it is said.
-/

namespace StackMachine

/-- The faults that concern one place and need no name of their own. -/
inductive Complaint where
  | notReadable (name : String) (ty : Ty)
  | notWritable (ty : Ty)
  | conditionNotBool (place : Conditional) (ty : Ty)
  | notAssignment (clause : Clause)
  /-- A reason that someone else worded. -/
  | stated (text : String)
  deriving DecidableEq, Repr

inductive TypeError where
  | alreadyDeclared (name : String) (span previous : Span)
  | undeclared (name : String) (span : Span)
  | unknownType (keyword : String) (span : Span)
  | mismatch (name : String) (expected found : Ty) (span : Span)
  | invalidOperands (operator : Operator) (left right : Ty) (span : Span)
  | invalidOperand (operator : Operator) (operand : Ty) (span : Span)
  | general (complaint : Complaint) (span : Span)
  deriving DecidableEq, Repr

namespace Complaint

def message : Complaint → String
  | .notReadable name ty => s!"variable '{name}' has unsupported type for read: {ty}"
  | .notWritable ty => s!"cannot write a value of type {ty}"
  | .conditionNotBool place ty => s!"condition in {place} must be bool, got {ty}"
  | .notAssignment clause => s!"{clause} of a for loop must be an assignment"
  | .stated text => text

end Complaint

namespace TypeError

def span : TypeError → Span
  | .alreadyDeclared _ span _ | .undeclared _ span | .unknownType _ span | .mismatch _ _ _ span
  | .invalidOperands _ _ _ span | .invalidOperand _ _ span | .general _ span => span

def message : TypeError → String
  | .alreadyDeclared name span previous => s!"variable '{name}' at {span} already declared at {previous}"
  | .undeclared name span => s!"variable '{name}' not declared at {span}"
  | .unknownType keyword span => s!"unknown type '{keyword}' at {span}"
  | .mismatch name expected found span =>
    s!"variable '{name}' type is {expected}, but the assigned value is {found} at {span}"
  | .invalidOperands operator left right span =>
    s!"invalid operands for '{operator}': {left}, {right} at {span}"
  | .invalidOperand operator operand span => s!"invalid operand for '{operator}': {operand} at {span}"
  | .general complaint span => s!"{complaint.message} at {span}"

end TypeError

end StackMachine
