import StackMachine.Machine.Operation
import StackMachine.Machine.World
import StackMachine.Typing.SymbolTable

/-!
The meaning of programs, read off their text without any code.

Expressions are evaluated from left to right and always come to an end. Statements may loop, so their evaluation is
given a bound on how deeply it may go, and has no result if that does not suffice. An integer becomes a float exactly
where the other operand, or the variable that it is assigned to, is one.
-/

namespace StackMachine

namespace Value

def widen : Value → Value
  | .int n => .float n.toFloat
  | v => v

/-- Two values as an operator sees them: of an integer and a float, the integer is widened. -/
def align : Value → Value → Value × Value
  | .int a, .float b => (.float a.toFloat, .float b)
  | .float a, .int b => (.float a, .float b.toFloat)
  | a, b => (a, b)

/-- Equality of values that an operator sees. Values of different kinds cannot be compared. -/
def equal? : Value → Value → Option Bool
  | .int a, .int b => some (Kind.equal .int a b)
  | .float a, .float b => some (Kind.equal .float a b)
  | .string a, .string b => some (Kind.equal .string a b)
  | .bool a, .bool b => some (Kind.equal .bool a b)
  | _, _ => none

/-- The value that a variable of the given type starts with. -/
def default? : Ty → Option Value
  | .int => some (.int 0)
  | .float => some (.float 0.0)
  | .bool => some (.bool false)
  | .string => some (.string "")
  | .file => none

/-- What a variable of the given type holds when a value is assigned to it. -/
def convert (v : Value) : Ty → Value
  | .float => v.widen
  | _ => v

end Value

/-- The result of an operator on operands that it knows, and none on others. -/
abbrev Applied :=
  Option (Except Fault Value)

def Arithmetic.evaluate (op : Arithmetic) : Value × Value → Applied
  | (.int a, .int b) => some ((op.onInt a b).map .int)
  | (.float a, .float b) => some ((op.onFloat a b).map .float)
  | _ => none

def Relation.evaluate (relation : Relation) : Value × Value → Applied
  | (.int a, .int b) => some (.ok (.bool (relation.holds .int a b)))
  | (.float a, .float b) => some (.ok (.bool (relation.holds .float a b)))
  | _ => none

namespace BinaryOp

def evaluate (op : BinaryOp) (a b : Value) : Applied :=
  match op with
  | .add => Arithmetic.add.evaluate (a.align b)
  | .sub => Arithmetic.sub.evaluate (a.align b)
  | .mul => Arithmetic.mul.evaluate (a.align b)
  | .div => Arithmetic.div.evaluate (a.align b)
  | .mod =>
    match a, b with
    | .int a, .int b => some (if b = 0 then .error .divisionByZero else .ok (.int (a % b)))
    | _, _ => none
  | .concat =>
    match a, b with
    | .string a, .string b => some (.ok (.string (a ++ b)))
    | _, _ => none
  | .eq => ((a.align b).1.equal? (a.align b).2).map fun same => .ok (.bool same)
  | .ne => ((a.align b).1.equal? (a.align b).2).map fun same => .ok (.bool !same)
  | .lt => Relation.lt.evaluate (a.align b)
  | .le => Relation.le.evaluate (a.align b)
  | .gt => Relation.gt.evaluate (a.align b)
  | .ge => Relation.ge.evaluate (a.align b)

end BinaryOp

namespace UnaryOp

def evaluate : UnaryOp → Value → Applied
  | .neg, .int n => some (.ok (.int (-n)))
  | .neg, .float x => some (.ok (.float (-x)))
  | .not, .bool b => some (.ok (.bool !b))
  | _, _ => none

end UnaryOp

namespace LogicalOp

def evaluate : LogicalOp → Value → Value → Applied
  | .and, .bool a, .bool b => some (.ok (.bool (a && b)))
  | .or, .bool a, .bool b => some (.ok (.bool (a || b)))
  | _, _, _ => none

end LogicalOp

namespace Expr

/-- Takes the result of an operator. A program with its types in order never asks for one that is not there. -/
def result (opcode : Opcode) (operand : Value) : Applied → Act Value
  | some (.ok v) => pure v
  | some (.error fault) => throw fault
  | none => throw (.unsupportedOperand opcode operand.kind)

/-- The value of an expression, together with what its evaluation does. Both sides of a connective are evaluated. -/
def eval (scope : Scope) : Expr → Act Value
  | .int n _ => pure (.int n)
  | .float x _ => pure (.float x)
  | .string s _ => pure (.string s)
  | .bool b _ => pure (.bool b)
  | .var name _ => World.fetch name
  | .binary op left right _ => do
    let a ← left.eval scope
    let b ← right.eval scope
    result op.opcode b (op.evaluate a b)
  | .unary op operand _ => do
    let a ← operand.eval scope
    result op.opcode a (op.evaluate a)
  | .logical op left right _ => do
    let a ← left.eval scope
    let b ← right.eval scope
    result op.opcode b (op.evaluate a b)
  | .group inner _ => inner.eval scope
  | .assign target value span => do
    let v ← value.eval scope
    let held := match scope target span with
      | .ok ty => v.convert ty
      | .error _ => v
    World.save target held
    pure held

/-- Whether a condition holds. -/
def holds (scope : Scope) (condition : Expr) : Act Bool := do
  let v ← condition.eval scope
  match v.truthy? with
  | some b => pure b
  | none => throw (.unsupportedOperand .fjmp v.kind)

def evalAll (scope : Scope) : List Expr → Act (List Value)
  | [] => pure []
  | e :: rest => do
    let v ← e.eval scope
    let values ← evalAll scope rest
    pure (v :: values)

def evalOption (scope : Scope) : Option Expr → Act Unit
  | none => pure ()
  | some e => do
    let _ ← e.eval scope

end Expr

namespace World

def saveAll (v : Value) : List String → Act Unit
  | [] => pure ()
  | name :: names => do
    save name v
    saveAll v names

/-- Reads one line for each name, in the kind of its type. -/
def readAll (scope : Scope) (span : Span) : List String → Act Unit
  | [] => pure ()
  | name :: names => do
    match scope name span with
    | .ok ty =>
      match Kind.ofTy? ty with
      | some kind => save name (← read kind)
      | none => pure ()
    | .error _ => pure ()
    readAll scope span names

end World

/-- The end of an evaluation, if it has one. -/
abbrev Evaluated :=
  Option (EStateM.Result Fault World Unit)

/-- Goes on after an evaluation that did not fault. -/
def Evaluated.andThen (first : Evaluated) (next : World → Evaluated) : Evaluated :=
  match first with
  | some (.ok () w) => next w
  | other => other

/-- Goes on with the result of an action that did not fault. -/
def Act.andThen {α : Type} (action : Act α) (w : World) (next : α → World → Evaluated) : Evaluated :=
  match action w with
  | .ok a w => next a w
  | .error fault w => some (.error fault w)

namespace Stmt

mutual

/-- What a statement does to the world. -/
def eval? (scope : Scope) : (fuel : Nat) → Stmt → World → Evaluated
  | 0, _, _ => none
  | fuel + 1, s, w =>
    match s with
    | .declare type names _ =>
      match (Ty.ofKeyword? type.keyword).bind Value.default? with
      | some v => some (World.saveAll v names w)
      | none => some (.ok () w)
    | .expr e _ => some (Expr.evalOption scope (some e) w)
    | .block body _ => evalAll? scope fuel body w
    | .ifElse condition yes no _ =>
      Act.andThen (condition.holds scope) w fun b w =>
        if b then yes.eval? scope fuel w else no.eval? scope fuel w
    | .whileLoop condition body span =>
      Act.andThen (condition.holds scope) w fun b w =>
        if b then
          Evaluated.andThen (body.eval? scope fuel w) (eval? scope fuel (.whileLoop condition body span))
        else some (.ok () w)
    | .forLoop init condition update body span =>
      Act.andThen (Expr.evalOption scope init) w fun () w =>
        Act.andThen (condition.elim (pure true) (Expr.holds scope)) w fun b w =>
          if b then
            Evaluated.andThen (body.eval? scope fuel w) fun w =>
              eval? scope fuel (.forLoop update condition update body span) w
          else some (.ok () w)
    | .read names span => some (World.readAll scope span names w)
    | .write exprs _ _ =>
      Act.andThen (Expr.evalAll scope exprs) w fun values w => some (World.print values w)
    | .empty _ => some (.ok () w)

def evalAll? (scope : Scope) : (fuel : Nat) → List Stmt → World → Evaluated
  | 0, _, _ => none
  | _ + 1, [], w => some (.ok () w)
  | fuel + 1, s :: rest, w => Evaluated.andThen (s.eval? scope fuel w) (evalAll? scope fuel rest)

end

end Stmt

namespace Program

def eval? (program : Program) (scope : Scope) (fuel : Nat) (w : World) : Evaluated :=
  Stmt.evalAll? scope fuel program w

end Program

end StackMachine
