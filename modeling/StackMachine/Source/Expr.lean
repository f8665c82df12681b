import StackMachine.Source.Operator
import StackMachine.Source.Span

/-!
Expressions. Every node carries the span that its errors and its code refer to.
-/

namespace StackMachine

inductive Expr where
  | int (value : Int64) (span : Span)
  | float (value : Float) (span : Span)
  | string (value : String) (span : Span)
  | bool (value : Bool) (span : Span)
  | var (name : String) (span : Span)
  | binary (op : BinaryOp) (left right : Expr) (span : Span)
  | unary (op : UnaryOp) (operand : Expr) (span : Span)
  | logical (op : LogicalOp) (left right : Expr) (span : Span)
  | group (inner : Expr) (span : Span)
  | assign (target : String) (value : Expr) (span : Span)
  deriving DecidableEq, Inhabited

namespace Expr

def span : Expr → Span
  | .int _ span | .float _ span | .string _ span | .bool _ span | .var _ span | .binary _ _ _ span
  | .unary _ _ span | .logical _ _ _ span | .group _ span | .assign _ _ span => span

def line (e : Expr) : Nat :=
  e.span.line

def isAssign : Expr → Bool
  | .assign .. => true
  | _ => false

end Expr

end StackMachine
