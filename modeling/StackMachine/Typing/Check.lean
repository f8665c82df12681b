import StackMachine.Typing.Infer

/-!
Checking statements.

A check reads a program from left to right, enters declarations into the symbol table and collects errors in the order
in which they are met. An error in one statement does not keep the others from being checked.
-/

namespace StackMachine

/-- What the check of a piece of program leaves: the table after it, and its errors. -/
abbrev Checked :=
  SymbolTable × List TypeError

/-- The errors of typing one expression: none, or the one that was found. -/
def typingErrors : Except TypeError Ty → List TypeError
  | .ok _ => []
  | .error e => [e]

namespace SymbolTable

/-- Declares names one after the other. A name that is already there is an error and changes nothing. -/
def declareAll (ty : Ty) (span : Span) : List String → SymbolTable → Checked
  | [], table => (table, [])
  | name :: names, table =>
    match table.declare name ty span with
    | .ok table => declareAll ty span names table
    | .error e =>
      let (table, errors) := declareAll ty span names table
      (table, e :: errors)

/-- A variable that is to be read into must exist and hold a value. -/
def readErrors (table : SymbolTable) (span : Span) (name : String) : List TypeError :=
  match table.typeOf name span with
  | .error e => [e]
  | .ok ty => if ty.isPrimitive then [] else [.general (.notReadable name ty) span]

end SymbolTable

namespace Expr

def writeErrors (table : SymbolTable) (e : Expr) : List TypeError :=
  match e.check table.typeOf with
  | .error error => [error]
  | .ok ty => if ty.isPrimitive then [] else [.general (.notWritable ty) e.span]

def conditionErrors (table : SymbolTable) (place : Conditional) (e : Expr) : List TypeError :=
  match e.check table.typeOf with
  | .error error => [error]
  | .ok ty => if ty = .bool then [] else [.general (.conditionNotBool place ty) e.span]

/-- A clause that is no assignment is not looked into. -/
def clauseErrors (table : SymbolTable) (clause : Clause) (e : Expr) : List TypeError :=
  if e.isAssign then typingErrors (e.check table.typeOf)
  else [.general (.notAssignment clause) e.span]

end Expr

def optionErrors (errors : Expr → List TypeError) : Option Expr → List TypeError
  | none => []
  | some e => errors e

namespace Stmt

mutual

def check : Stmt → SymbolTable → Checked
  | .declare type names span, table =>
    match Ty.ofKeyword? type.keyword with
    | some ty => table.declareAll ty span names
    | none => (table, [.unknownType type.keyword type.span])
  | .expr e _, table => (table, typingErrors (e.check table.typeOf))
  | .block body _, table => checkAll body table
  | .ifElse condition yes no _, table =>
    let (yesTable, yesErrors) := yes.check table
    let (noTable, noErrors) := no.check yesTable
    (noTable, condition.conditionErrors table .ifStatement ++ yesErrors ++ noErrors)
  | .whileLoop condition body _, table =>
    let (bodyTable, bodyErrors) := body.check table
    (bodyTable, condition.conditionErrors table .whileLoop ++ bodyErrors)
  | .forLoop init condition update body _, table =>
    let head :=
      optionErrors (Expr.clauseErrors table .initializer) init
        ++ optionErrors (Expr.conditionErrors table .forLoop) condition
        ++ optionErrors (Expr.clauseErrors table .update) update
    let (bodyTable, bodyErrors) := body.check table
    (bodyTable, head ++ bodyErrors)
  | .read names span, table => (table, names.flatMap (table.readErrors span))
  | .write exprs _ _, table => (table, exprs.flatMap (Expr.writeErrors table))
  | .empty _, table => (table, [])

def checkAll : List Stmt → SymbolTable → Checked
  | [], table => (table, [])
  | s :: rest, table =>
    let (table, errors) := s.check table
    let (table, restErrors) := checkAll rest table
    (table, errors ++ restErrors)

end

end Stmt

namespace Program

/-- Checks a program against what is declared already. -/
def check (program : Program) (table : SymbolTable) : Checked :=
  Stmt.checkAll program table

/-- The symbol table of a program without errors, or all its errors. -/
def symbols (program : Program) : Except (List TypeError) SymbolTable :=
  match check program .empty with
  | (table, []) => .ok table
  | (_, errors) => .error errors

end Program

end StackMachine
