import StackMachine.Lowering.Expr

/-!
The code of statements and programs.

The code of a statement leaves the stack as it found it. Labels are numbered through the whole program, two for each
`if` and each loop.
-/

namespace StackMachine

namespace Lowering

def labelName (number : Nat) : String :=
  "L" ++ toString number

/-- The code that gives each of some variables its first value. -/
def defaults (kind : Kind) (literal : String) (line : Nat) (names : List String) : Emitted :=
  names.flatMap fun name => [(.push kind literal, line), (.save kind name, line)]

/-- An expression whose value is not needed. -/
def discard (oracle : Oracle) (e : Expr) : Except LoweringError Emitted := do
  let lowered ← e.lower oracle
  pure (lowered.code ++ [(.plain .pop, e.line)])

def clauseCode (oracle : Oracle) (clause : Clause) : Option Expr → Except LoweringError Emitted
  | none => .ok []
  | some e => if e.isAssign then discard oracle e else .error (.invalidClause clause e.span)

/-- Jumps to a label unless a condition holds. -/
def exitUnless (oracle : Oracle) (condition : Expr) (label : String) (line : Nat) : Except LoweringError Emitted := do
  let lowered ← condition.lower oracle
  pure (lowered.code ++ [(.fjmp label, line)])

def reads (oracle : Oracle) (span : Span) : List String → Except LoweringError Emitted
  | [] => .ok []
  | name :: names => do
    let ty ← ask (oracle.declaredType name span)
    let kind ← kindOf ty span
    let rest ← reads oracle span names
    pure ((.read kind, span.line) :: (.save kind name, span.line) :: rest)

def values (oracle : Oracle) : List Expr → Except LoweringError Emitted
  | [] => .ok []
  | e :: exprs => do
    let lowered ← e.lower oracle
    let rest ← values oracle exprs
    pure (lowered.code ++ rest)

end Lowering

namespace Stmt

open Lowering

mutual

/-- The code of a statement whose labels start at a number, and the number after the last one it uses. -/
def lower (oracle : Oracle) : Stmt → Nat → Except LoweringError (Emitted × Nat)
  | .declare type names span, labels =>
    match Ty.ofKeyword? type.keyword with
    | none => .error (.unknownType type.keyword type.span)
    | some ty =>
      match Kind.ofTy? ty, ty.defaultLiteral? with
      | some kind, some literal => .ok (defaults kind literal span.line names, labels)
      | _, _ => .error (.unsupportedType ty span)
  | .expr e _, labels => do
    let code ← discard oracle e
    pure (code, labels)
  | .block body _, labels => lowerAll oracle body labels
  | .ifElse condition yes no span, labels => do
    let toElse := labelName labels
    let toEnd := labelName (labels + 1)
    let test ← exitUnless oracle condition toElse span.line
    let (yesCode, labels) ← yes.lower oracle (labels + 2)
    let (noCode, labels) ← no.lower oracle labels
    let code :=
      test ++ yesCode ++ [(.jmp toEnd, span.line), (.label toElse, span.line)] ++ noCode ++ [(.label toEnd, span.line)]
    pure (code, labels)
  | .whileLoop condition body span, labels => do
    let toStart := labelName labels
    let toEnd := labelName (labels + 1)
    let test ← exitUnless oracle condition toEnd span.line
    let (bodyCode, labels) ← body.lower oracle (labels + 2)
    let code :=
      [(.label toStart, span.line)] ++ test ++ bodyCode ++ [(.jmp toStart, span.line), (.label toEnd, span.line)]
    pure (code, labels)
  | .forLoop init condition update body span, labels => do
    let toStart := labelName labels
    let toEnd := labelName (labels + 1)
    let initCode ← clauseCode oracle .initializer init
    let test ← match condition with
      | none => pure []
      | some condition => exitUnless oracle condition toEnd span.line
    let (bodyCode, labels) ← body.lower oracle (labels + 2)
    let updateCode ← clauseCode oracle .update update
    let code :=
      initCode ++ [(.label toStart, span.line)] ++ test ++ bodyCode ++ updateCode
        ++ [(.jmp toStart, span.line), (.label toEnd, span.line)]
    pure (code, labels)
  | .read names span, labels => do
    let code ← reads oracle span names
    pure (code, labels)
  | .write exprs _ span, labels => do
    let code ← values oracle exprs
    pure (code ++ [(.print exprs.length, span.line)], labels)
  | .empty _, labels => .ok ([], labels)

def lowerAll (oracle : Oracle) : List Stmt → Nat → Except LoweringError (Emitted × Nat)
  | [], labels => .ok ([], labels)
  | s :: rest, labels => do
    let (code, labels) ← s.lower oracle labels
    let (restCode, labels) ← lowerAll oracle rest labels
    pure (code ++ restCode, labels)

end

end Stmt

namespace Program

/-- The code of a program, with the types that an oracle gives. -/
def lower (program : Program) (oracle : Oracle) : Except LoweringError Code := do
  let (code, _) ← Stmt.lowerAll oracle program 0
  pure (Code.ofPairs code)

end Program

end StackMachine
