import StackMachine.Code.Kind
import StackMachine.Source.Operator

/-!
The operations of the machine, with what each takes in instruction text: a kind or none, and an operand of some shape.
-/

namespace StackMachine

inductive Opcode where
  | add
  | sub
  | mul
  | div
  | mod
  | uminus
  | concat
  | and
  | or
  | not
  | gt
  | lt
  | ge
  | le
  | eq
  | itof
  | push
  | pop
  | load
  | save
  | label
  | jmp
  | fjmp
  | print
  | read
  deriving DecidableEq, Repr, Inhabited

/-- What the operand of an instruction is. -/
inductive Shape where
  | absent
  | literal
  | variable
  | label
  | count
  deriving DecidableEq, Repr, Inhabited

namespace Shape

def description : Shape → String
  | .absent => "nothing"
  | .literal => "literal"
  | .variable => "variable name"
  | .label => "label"
  | .count => "value count"

end Shape

namespace Opcode

def all : List Opcode :=
  [.add, .sub, .mul, .div, .mod, .uminus, .concat, .and, .or, .not, .gt, .lt, .ge, .le, .eq, .itof, .push, .pop,
    .load, .save, .label, .jmp, .fjmp, .print, .read]

def name : Opcode → String
  | .add => "add"
  | .sub => "sub"
  | .mul => "mul"
  | .div => "div"
  | .mod => "mod"
  | .uminus => "uminus"
  | .concat => "concat"
  | .and => "and"
  | .or => "or"
  | .not => "not"
  | .gt => "gt"
  | .lt => "lt"
  | .ge => "ge"
  | .le => "le"
  | .eq => "eq"
  | .itof => "itof"
  | .push => "push"
  | .pop => "pop"
  | .load => "load"
  | .save => "save"
  | .label => "label"
  | .jmp => "jmp"
  | .fjmp => "fjmp"
  | .print => "print"
  | .read => "read"

def ofName? (name : String) : Option Opcode :=
  all.find? fun opcode => opcode.name = name

/-- The kinds that may stand behind the opcode. With none, no kind stands there at all. -/
def kinds : Opcode → List Kind
  | .add | .sub | .mul | .div | .uminus | .gt | .lt | .ge | .le => Kind.numeric
  | .eq | .push | .load | .save | .read => Kind.all
  | _ => []

def shape : Opcode → Shape
  | .push => .literal
  | .load | .save => .variable
  | .label | .jmp | .fjmp => .label
  | .print => .count
  | _ => .absent

def isJump : Opcode → Bool
  | .jmp | .fjmp => true
  | _ => false

end Opcode

/-- The opcode that computes an operator; for `!=` its result is still to be negated. -/
def BinaryOp.opcode : BinaryOp → Opcode
  | .add => .add
  | .sub => .sub
  | .mul => .mul
  | .div => .div
  | .mod => .mod
  | .concat => .concat
  | .eq | .ne => .eq
  | .lt => .lt
  | .le => .le
  | .gt => .gt
  | .ge => .ge

def UnaryOp.opcode : UnaryOp → Opcode
  | .neg => .uminus
  | .not => .not

def LogicalOp.opcode : LogicalOp → Opcode
  | .and => .and
  | .or => .or

instance : ToString Opcode :=
  ⟨Opcode.name⟩

end StackMachine
