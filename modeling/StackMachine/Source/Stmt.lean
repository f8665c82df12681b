import StackMachine.Source.Expr

/-!
Statements. An `if` without `else` branch has the empty statement there.
-/

namespace StackMachine

/-- The type of a declaration, as it is written. -/
structure TypeName where
  keyword : String
  span : Span
  deriving DecidableEq, Repr, Inhabited

/-- The two parts of a `for` head that must be assignments. -/
inductive Clause where
  | initializer
  | update
  deriving DecidableEq, Repr

/-- The statements that have a condition. -/
inductive Conditional where
  | ifStatement
  | whileLoop
  | forLoop
  deriving DecidableEq, Repr

/-- How many expressions one `write` can list: their number fits a machine word. -/
def maxListed : Nat :=
  UInt64.size

inductive Stmt where
  | declare (type : TypeName) (names : List String) (span : Span)
  | expr (e : Expr) (span : Span)
  | block (body : List Stmt) (span : Span)
  | ifElse (condition : Expr) (yes no : Stmt) (span : Span)
  | whileLoop (condition : Expr) (body : Stmt) (span : Span)
  | forLoop (init condition update : Option Expr) (body : Stmt) (span : Span)
  | read (names : List String) (span : Span)
  | write (exprs : List Expr) (fits : exprs.length < maxListed) (span : Span)
  | empty (span : Span)
  deriving Inhabited

abbrev Program :=
  List Stmt

namespace Clause

def name : Clause → String
  | .initializer => "initializer"
  | .update => "update"

end Clause

instance : ToString Clause :=
  ⟨Clause.name⟩

namespace Conditional

def name : Conditional → String
  | .ifStatement => "if statement"
  | .whileLoop => "while loop"
  | .forLoop => "for loop"

end Conditional

instance : ToString Conditional :=
  ⟨Conditional.name⟩

namespace Stmt

def span : Stmt → Span
  | .declare _ _ span | .expr _ span | .block _ span | .ifElse _ _ _ span | .whileLoop _ _ span
  | .forLoop _ _ _ _ span | .read _ span | .write _ _ span | .empty span => span

def line (s : Stmt) : Nat :=
  s.span.line

end Stmt

end StackMachine
