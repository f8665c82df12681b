import StackMachine.Source.Ty

/-!
The kinds of run-time values. Each static type but `file` has one.
-/

namespace StackMachine

inductive Kind where
  | int
  | float
  | string
  | bool
  deriving DecidableEq, Repr, Inhabited

namespace Kind

def all : List Kind :=
  [.int, .float, .string, .bool]

/-- The kinds that arithmetic and order know. -/
def numeric : List Kind :=
  [.int, .float]

/-- How instruction text names a kind. -/
def suffix : Kind → String
  | .int => "i"
  | .float => "f"
  | .string => "s"
  | .bool => "b"

def ofSuffix? (suffix : String) : Option Kind :=
  all.find? fun kind => kind.suffix = suffix

def toTy : Kind → Ty
  | .int => .int
  | .float => .float
  | .string => .string
  | .bool => .bool

def ofTy? : Ty → Option Kind
  | .int => some .int
  | .float => some .float
  | .string => some .string
  | .bool => some .bool
  | .file => none

/-- How messages name a kind. -/
def typeName (kind : Kind) : String :=
  kind.toTy.keyword

end Kind

end StackMachine
