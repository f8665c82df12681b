/-!
The static types. An `int` may stand where a `float` is asked for, and there is no other conversion. A `file` can be
declared, but it is no value: nothing computes with one.
-/

namespace StackMachine

inductive Ty where
  | int
  | float
  | bool
  | string
  | file
  deriving DecidableEq, Repr, Inhabited

namespace Ty

def all : List Ty :=
  [.int, .float, .bool, .string, .file]

def keyword : Ty → String
  | .int => "int"
  | .float => "float"
  | .bool => "bool"
  | .string => "string"
  | .file => "file"

def ofKeyword? (keyword : String) : Option Ty :=
  all.find? fun ty => ty.keyword = keyword

def isNumeric : Ty → Bool
  | .int | .float => true
  | _ => false

/-- Whether values of the type exist at run time. -/
def isPrimitive : Ty → Bool
  | .file => false
  | _ => true

def assignableTo (source target : Ty) : Bool :=
  source = target || (source = .int && target = .float)

/-- The literal that a declared variable starts with. -/
def defaultLiteral? : Ty → Option String
  | .int => some "0"
  | .float => some "0.0"
  | .bool => some "false"
  | .string => some "\"\""
  | .file => none

end Ty

instance : ToString Ty :=
  ⟨Ty.keyword⟩

end StackMachine
