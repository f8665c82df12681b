import StackMachine.Code.Instruction
import StackMachine.Machine.Operation

/-!
From instructions to operations.

Before anything runs, every jump is given the index of its label. Then each instruction is decoded by itself. One that
cannot be decoded is no obstacle to the others: its fault is raised when it is reached.
-/

namespace StackMachine

/-- The labels met so far, with their indices. -/
abbrev Labels :=
  List (String × Nat)

/-- The operations of a list of instructions, each at the index of its instruction. -/
structure Image where
  operations : Array (Except Fault Operation)

namespace Instruction

def needKind (i : Instruction) : Except Fault Kind :=
  match i.kind with
  | some kind => .ok kind
  | none => .error (.missingOperand i.opcode)

def needNumeric (i : Instruction) : Except Fault Numeric := do
  let kind ← i.needKind
  match kind.numeric? with
  | some numeric => pure numeric
  | none => throw (.unsupportedOperand i.opcode kind)

def needOperand (i : Instruction) : Except Fault String :=
  match i.operand with
  | some operand => .ok operand
  | none => .error (.missingOperand i.opcode)

/-- The operation of an instruction. `target` is the index of the label that a jump names. -/
def decode (i : Instruction) (target : Option Nat) : Except Fault Operation :=
  match i.opcode with
  | .add => arithmetic .add
  | .sub => arithmetic .sub
  | .mul => arithmetic .mul
  | .div => arithmetic .div
  | .mod => .ok (.binary .mod)
  | .uminus => do return .unary (.neg (← i.needNumeric))
  | .concat => .ok (.binary .concat)
  | .and => .ok (.binary (.logical .and))
  | .or => .ok (.binary (.logical .or))
  | .not => .ok (.unary .not)
  | .gt => compare .gt
  | .lt => compare .lt
  | .ge => compare .ge
  | .le => compare .le
  | .eq => do return .binary (.equal (← i.needKind))
  | .itof => .ok (.unary .widen)
  | .push => do
    let kind ← i.needKind
    let literal ← i.needOperand
    match Value.ofLiteral? kind literal with
    | some v => pure (.push v)
    | none => throw (.invalidLiteral kind literal)
  | .pop => .ok .pop
  | .load => do
    let kind ← i.needKind
    let name ← i.needOperand
    pure (.load kind name)
  | .save => do
    let kind ← i.needKind
    let name ← i.needOperand
    pure (.save kind name)
  | .label => .ok .label
  | .jmp => jump .jump
  | .fjmp => jump .branch
  | .print => do
    let literal ← i.needOperand
    match Text.count? literal.toList with
    | some count => pure (.print count)
    | none => throw (.invalidCount literal)
  | .read => do return .read (← i.needKind)
where
  arithmetic (op : Arithmetic) : Except Fault Operation := do
    return .binary (.arithmetic op (← i.needNumeric))
  compare (relation : Relation) : Except Fault Operation := do
    return .binary (.compare relation (← i.needNumeric))
  jump (operation : Nat → Operation) : Except Fault Operation :=
    match target with
    | some index => .ok (operation index)
    | none => .error (.missingOperand i.opcode)

end Instruction

namespace Labels

/-- Collects the labels of instructions that start at `index`, given those before. A label must have a name that is
not taken yet. -/
def collect (labels : Labels) (index : Nat) : List Instruction → Except Fault Labels
  | [] => .ok labels
  | i :: rest =>
    if i.opcode = .label then
      match i.operand with
      | none => .error (.missingOperand .label)
      | some name =>
        match labels.lookup name with
        | some first => .error (.duplicateLabel name first index)
        | none => collect ((name, index) :: labels) (index + 1) rest
    else collect labels (index + 1) rest

/-- Where an instruction jumps to; nowhere, if it is no jump. -/
def target (labels : Labels) (i : Instruction) : Except Fault (Option Nat) :=
  if i.opcode.isJump then
    match i.operand with
    | none => .error (.missingOperand i.opcode)
    | some name =>
      match labels.lookup name with
      | some index => .ok (some index)
      | none => .error (.undefinedLabel name)
  else .ok none

/-- Where each of some instructions jumps to, or why the first bad one cannot. -/
def targets (labels : Labels) : List Instruction → Except Fault (List (Option Nat))
  | [] => .ok []
  | i :: rest => do
    let index ← labels.target i
    let others ← labels.targets rest
    pure (index :: others)

end Labels

/-- The jump table of a list of instructions: for each jump, the index of its label. All labels are looked at before
the first jump is. -/
def jumpTable (instructions : List Instruction) : Except Fault (List (Option Nat)) := do
  let labels ← Labels.collect [] 0 instructions
  labels.targets instructions

/-- Whether all labels and jumps are in order. -/
def checkLabels (instructions : List Instruction) : Except Fault Unit := do
  let _ ← jumpTable instructions

def Image.link (instructions : List Instruction) : Except Fault Image := do
  let table ← jumpTable instructions
  pure ⟨(instructions.zipWith Instruction.decode table).toArray⟩

end StackMachine
