import StackMachine.Typing.Error

/-!
The symbol table: every declared variable with its type, in the order of declaration. There are no nested scopes, and
the first declaration of a name is the one that counts.
-/

namespace StackMachine

structure Symbol where
  name : String
  ty : Ty
  declaredAt : Span
  deriving DecidableEq, Repr, Inhabited

structure SymbolTable where
  symbols : List Symbol
  deriving DecidableEq, Repr, Inhabited

/-- Answers what the type of a variable is, or why it has none, at a place where it is used. -/
abbrev Scope :=
  String → Span → Except TypeError Ty

namespace SymbolTable

def empty : SymbolTable :=
  ⟨[]⟩

def size (table : SymbolTable) : Nat :=
  table.symbols.length

def isEmpty (table : SymbolTable) : Bool :=
  table.symbols.isEmpty

def find? (table : SymbolTable) (name : String) : Option Symbol :=
  table.symbols.find? fun symbol => symbol.name = name

def typeOf (table : SymbolTable) : Scope := fun name span =>
  match table.find? name with
  | some symbol => .ok symbol.ty
  | none => .error (.undeclared name span)

def declare (table : SymbolTable) (name : String) (ty : Ty) (span : Span) : Except TypeError SymbolTable :=
  match table.find? name with
  | some symbol => .error (.alreadyDeclared name span symbol.declaredAt)
  | none => .ok ⟨table.symbols ++ [⟨name, ty, span⟩]⟩

/-- One line for each variable: its name, its type and the literal it starts with. -/
def text (table : SymbolTable) : String :=
  String.join <| table.symbols.map fun symbol =>
    symbol.name ++ " : " ++ symbol.ty.keyword ++ " = " ++ symbol.ty.defaultLiteral?.getD "-" ++ "\n"

end SymbolTable

end StackMachine
