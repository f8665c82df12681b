import StackMachine.Code.Opcode
import StackMachine.Text.Blank
import StackMachine.Text.Numeral

/-!
Instructions and their text.

An instruction is an opcode with at most a kind and an operand. Nothing here forces the two to fit the opcode: the
machine says what it does with one that does not fit, and `Instruction.parse` reads only those that do.
-/

namespace StackMachine

structure Instruction where
  opcode : Opcode
  kind : Option Kind
  operand : Option String
  deriving DecidableEq, Repr, Inhabited

/-- Why a text is no instruction. -/
inductive InstructionError where
  | unknownOpcode (found : String)
  | missingKind (opcode : Opcode)
  | missingOperand (opcode : Opcode)
  | unexpectedOperand (opcode : Opcode) (found : String)
  | invalidKind (opcode : Opcode) (found : String)
  | invalidCount (found : String)
  deriving DecidableEq, Repr

namespace InstructionError

def message : InstructionError → String
  | .unknownOpcode found => s!"unknown instruction '{found}'"
  | .missingKind opcode => s!"'{opcode}' is missing its type suffix"
  | .missingOperand opcode => s!"'{opcode}' is missing its {opcode.shape.description}"
  | .unexpectedOperand opcode found => s!"'{opcode}' takes no operand, found '{found}'"
  | .invalidKind opcode found => s!"invalid type suffix '{found}' for '{opcode}'"
  | .invalidCount found => s!"invalid value count '{found}' for print"

end InstructionError

namespace Instruction

def plain (opcode : Opcode) : Instruction :=
  ⟨opcode, none, none⟩

def typed (opcode : Opcode) (kind : Kind) : Instruction :=
  ⟨opcode, some kind, none⟩

def push (kind : Kind) (literal : String) : Instruction :=
  ⟨.push, some kind, some literal⟩

def load (kind : Kind) (name : String) : Instruction :=
  ⟨.load, some kind, some name⟩

def save (kind : Kind) (name : String) : Instruction :=
  ⟨.save, some kind, some name⟩

def label (name : String) : Instruction :=
  ⟨.label, none, some name⟩

def jmp (label : String) : Instruction :=
  ⟨.jmp, none, some label⟩

def fjmp (label : String) : Instruction :=
  ⟨.fjmp, none, some label⟩

def print (count : Nat) : Instruction :=
  ⟨.print, none, some (toString count)⟩

def read (kind : Kind) : Instruction :=
  ⟨.read, some kind, none⟩

/-- The opcode, the kind and the operand, as far as they are there, with single spaces between them. -/
def text (i : Instruction) : String :=
  let kind := match i.kind with
    | some kind => " " ++ kind.suffix
    | none => ""
  let operand := match i.operand with
    | some operand => " " ++ operand
    | none => ""
  i.opcode.name ++ kind ++ operand

open Text

/-- Reads the kind behind an opcode that takes one; the second part is what stands behind it. -/
def parseKind (opcode : Opcode) (text : List Char) : Except InstructionError (Option Kind × List Char) :=
  if opcode.kinds.isEmpty then .ok (none, text)
  else
    let suffix := String.ofList (firstToken text)
    if suffix.isEmpty then .error (.missingKind opcode)
    else
      match (Kind.ofSuffix? suffix).filter opcode.kinds.contains with
      | some kind => .ok (some kind, afterToken text)
      | none => .error (.invalidKind opcode suffix)

/-- Reads an operand from trimmed text. A literal may hold blanks, any other operand is a single token. -/
def parseOperand (opcode : Opcode) (text : List Char) : Except InstructionError (Option String) :=
  let found := String.ofList text
  match opcode.shape with
  | .absent => if text.isEmpty then .ok none else .error (.unexpectedOperand opcode found)
  | .literal => if text.isEmpty then .error (.missingOperand opcode) else .ok (some found)
  | .variable | .label => token
  | .count => do
    let operand ← token
    if (count? (firstToken text)).isSome then pure operand
    else throw (.invalidCount (String.ofList (firstToken text)))
where
  token : Except InstructionError (Option String) :=
    let extra := trim (afterToken text)
    if text.isEmpty then .error (.missingOperand opcode)
    else if extra.isEmpty then .ok (some (String.ofList (firstToken text)))
    else .error (.unexpectedOperand opcode (String.ofList extra))

def parseChars (text : List Char) : Except InstructionError Instruction :=
  let name := String.ofList (firstToken text)
  match Opcode.ofName? name with
  | none => .error (.unknownOpcode name)
  | some opcode => do
    let (kind, rest) ← parseKind opcode (afterToken text)
    let operand ← parseOperand opcode (trim rest)
    pure ⟨opcode, kind, operand⟩

def parse (text : String) : Except InstructionError Instruction :=
  parseChars text.toList

end Instruction

end StackMachine
