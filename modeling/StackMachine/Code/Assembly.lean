import StackMachine.Code.Instruction

/-!
Code, and how a text is assembled into it.

Code is a list of instructions with the source line of each. Assembling takes one instruction from every line of a
text that is neither blank nor a comment.
-/

namespace StackMachine

structure Code where
  instructions : List Instruction
  /-- The source line of each instruction, in the same order. -/
  lines : List Nat
  deriving DecidableEq, Repr, Inhabited

/-- A line of text that is no instruction. -/
structure AssemblyError where
  line : Nat
  cause : InstructionError
  deriving DecidableEq, Repr

def AssemblyError.message (e : AssemblyError) : String :=
  s!"line {e.line}: {e.cause.message}"

namespace Code

def empty : Code :=
  ⟨[], []⟩

/-- Instructions that come from no line. -/
def ofInstructions (instructions : List Instruction) : Code :=
  ⟨instructions, instructions.map fun _ => 0⟩

def ofPairs (pairs : List (Instruction × Nat)) : Code :=
  ⟨pairs.map Prod.fst, pairs.map Prod.snd⟩

def push (code : Code) (i : Instruction) (line : Nat) : Code :=
  ⟨code.instructions ++ [i], code.lines ++ [line]⟩

def size (code : Code) : Nat :=
  code.instructions.length

def isEmpty (code : Code) : Bool :=
  code.instructions.isEmpty

/-- The source line of the instruction at an offset, and 0 where none is recorded. -/
def lineAt (code : Code) (offset : Nat) : Nat :=
  code.lines[offset]?.getD 0

/-- One line of text for each instruction. -/
def text (code : Code) : String :=
  String.join (code.instructions.map fun i => i.text ++ "\n")

/-- Whether a line holds no instruction: it is blank, or its first character that is not blank is `#`. -/
def isSkipped (line : List Char) : Bool :=
  match Text.trim line with
  | [] => true
  | c :: _ => c = '#'

/-- Reads the instruction of each line, where `number` is the number of the first one. -/
def assembleLines (number : Nat) : List (List Char) → Except AssemblyError (List (Instruction × Nat))
  | [] => .ok []
  | line :: rest =>
    if isSkipped line then assembleLines (number + 1) rest
    else
      match Instruction.parseChars (Text.trim line) with
      | .error cause => .error ⟨number, cause⟩
      | .ok i => (assembleLines (number + 1) rest).map ((i, number) :: ·)

def assemble (text : String) : Except AssemblyError Code :=
  (assembleLines 1 (Text.lines text.toList)).map ofPairs

end Code

end StackMachine
