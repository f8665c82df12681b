import StackMachine.Code.Assembly

/-!
The listing of code: one row for each instruction, with its offset, its source line and, for a jump, where it goes.
Columns are counted in characters, and text that is too wide for its column stays whole.
-/

namespace StackMachine

namespace Text

def padLeft (width : Nat) (fill : Char) (text : String) : String :=
  String.ofList (text.toList.leftpad width fill)

def padRight (width : Nat) (fill : Char) (text : String) : String :=
  String.ofList (text.toList.rightpad width fill)

end Text

open Text (padLeft padRight)

/-- An offset as listings write it, with at least four digits. -/
def offsetText (offset : Nat) : String :=
  padLeft 4 '0' (toString offset)

namespace Code

/-- The labels of a list of instructions with their offsets, the last one first. -/
def labelOffsets (instructions : List Instruction) : List (String × Nat) :=
  (instructions.zipIdx.filterMap fun (i, offset) =>
    if i.opcode = .label then i.operand.map fun name => (name, offset) else none).reverse

/-- The source line of an offset, or a bar where it is that of the row above. -/
def lineColumn (code : Code) (offset : Nat) : String :=
  if 0 < offset ∧ code.lineAt offset = code.lineAt (offset - 1) then "   |"
  else padLeft 4 ' ' (toString (code.lineAt offset))

/-- The target of a jump, as far as the labels tell. -/
def targetText (labels : List (String × Nat)) (i : Instruction) : String :=
  match i.operand.bind fun name => labels.lookup name with
  | some offset => offsetText offset
  | none => "????"

def instructionColumn (labels : List (String × Nat)) (i : Instruction) : String :=
  if i.opcode.isJump then padRight 20 ' ' i.text ++ " -> " ++ targetText labels i else i.text

def row (code : Code) (labels : List (String × Nat)) (i : Instruction) (offset : Nat) : String :=
  offsetText offset ++ " " ++ code.lineColumn offset ++ " " ++ instructionColumn labels i ++ "\n"

def rows (code : Code) : List String :=
  let labels := labelOffsets code.instructions
  code.instructions.zipIdx.map fun (i, offset) => code.row labels i offset

def listing (code : Code) (title : String) : String :=
  "== " ++ title ++ " ==\n" ++ String.join code.rows

end Code

end StackMachine
