import StackMachine.Machine.Operation
import StackMachine.Machine.Stack
import StackMachine.Machine.World

/-!
One operation at work on the machine.

The machine adds a bounded operand stack to the world. A fault leaves it as far as the operation had come: operands that
were taken off the stack are gone.
-/

namespace StackMachine

structure Machine where
  stack : Stack
  world : World
  /-- How many values the stack may hold. -/
  limit : Nat
  deriving Inhabited

/-- How many values a stack may hold if nothing else is asked for. -/
def defaultLimit : Nat :=
  65536

/-- Steps of the machine that may fault. -/
abbrev Exec :=
  EStateM Fault Machine

/-- Where execution goes on. -/
inductive Flow where
  | next
  | goto (index : Nat)
  deriving DecidableEq, Repr

namespace Exec

def lift {α : Type} : Except Fault α → Exec α
  | .ok a => pure a
  | .error fault => throw fault

/-- An action on the world leaves the stack alone. -/
def act {α : Type} (action : Act α) : Exec α := fun ⟨stack, world, limit⟩ =>
  match action world with
  | .ok a world => .ok a ⟨stack, world, limit⟩
  | .error fault world => .error fault ⟨stack, world, limit⟩

def push (v : Value) : Exec Unit := fun m =>
  if m.stack.size < m.limit then .ok () { m with stack := m.stack.push v }
  else .error (.stackOverflow m.limit) m

def pop (opcode : Opcode) : Exec Value := fun m =>
  match m.stack.pop? with
  | some (v, rest) => .ok v { m with stack := rest }
  | none => .error (.stackUnderflow opcode) m

/-- Pops a value that must be of the given kind. -/
def popAs (opcode : Opcode) (kind : Kind) : Exec kind.Carrier := do
  let v ← pop opcode
  match v.as? kind with
  | some data => pure data
  | none => throw (.typeMismatch opcode kind v.kind)

/-- Takes the topmost `count` values off the stack, in the order in which they were pushed. If there are fewer, all
stay. -/
def take (opcode : Opcode) (count : Nat) : Exec (List Value) := fun m =>
  if count ≤ m.stack.size then .ok (m.stack.top count) { m with stack := m.stack.drop count }
  else .error (.stackUnderflow opcode) m

def perform : Operation → Exec Flow
  | .binary op => do
    let b ← popAs op.opcode op.operand
    let a ← popAs op.opcode op.operand
    let result ← lift (op.apply a b)
    push (.of op.result result)
    pure .next
  | .unary op => do
    let a ← popAs op.opcode op.operand
    push (.of op.result (op.apply a))
    pure .next
  | .push v => do
    push v
    pure .next
  | .pop => do
    let _ ← pop .pop
    pure .next
  | .load kind name => do
    let v ← act (World.fetch name)
    if v.kind = kind then push v else throw (.typeMismatch .load kind v.kind)
    pure .next
  | .save kind name => do
    let data ← popAs .save kind
    act (World.save name (.of kind data))
    pure .next
  | .label => pure .next
  | .jump target => pure (.goto target)
  | .branch target => do
    let v ← pop .fjmp
    match v.truthy? with
    | some true => pure .next
    | some false => pure (.goto target)
    | none => throw (.unsupportedOperand .fjmp v.kind)
  | .print count => do
    let values ← take .print count
    act (World.print values)
    pure .next
  | .read kind => do
    let v ← act (World.read kind)
    push v
    pure .next

end Exec

end StackMachine
