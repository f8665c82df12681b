import StackMachine.Code.Listing
import StackMachine.Lowering.Stmt
import StackMachine.Machine.Run
import StackMachine.Typing.Check

/-!
From a program or a text to its output.
-/

namespace StackMachine

/-- Why a program or a text did not run to its end. -/
inductive Failure where
  | typing (errors : List TypeError)
  | lowering (error : LoweringError)
  | assembly (error : AssemblyError)
  | fault (cause : Fault)
  | io (error : IoError)
  deriving DecidableEq, Repr

def Failure.message : Failure → String
  | .typing errors => "Type errors:\n" ++ "\n".intercalate (errors.map TypeError.message)
  | .lowering error => "Compile error: " ++ error.message
  | .assembly error => "Assemble error: " ++ error.message
  | .fault cause => "Runtime error: " ++ cause.message
  | .io error => "IO error: " ++ error.message

structure RunOptions where
  /-- Whether the listing of the code is written before its output. -/
  list : Bool
  /-- How many values the stack may hold. -/
  limit : Nat
  deriving DecidableEq, Repr

/-- What is left when a program or a text has been run, or could not be. -/
structure Finished where
  outcome : Except Failure Unit
  sink : Sink
  input : Input

/-- The title of a listing that belongs to no file. -/
def defaultTitle : String :=
  "program"

namespace Program

/-- The code of a program whose types are in order. -/
def compile (program : Program) : Except Failure Code := do
  let table ← (symbols program).mapError Failure.typing
  (lower program table.typeOf).mapError Failure.lowering

end Program

namespace Code

/-- Writes the listing and the line that ends it. -/
def writeListing (code : Code) (title : String) : EStateM IoError Sink Unit := do
  Sink.write (code.listing title)
  Sink.write "---\n"

/-- Runs code on a new machine. -/
def execute? (code : Code) (fuel : Nat) (input : Input) (sink : Sink) (limit : Nat) : Option Finished :=
  ((Machine.new input sink limit).run? fuel code.instructions).map fun halt =>
    ⟨halt.outcome.mapError Failure.fault, halt.machine.world.sink, halt.machine.world.input⟩

/-- Runs code on a new machine, after writing its listing if that is asked for. -/
def run? (code : Code) (fuel : Nat) (input : Input) (sink : Sink) (options : RunOptions) : Option Finished :=
  if options.list then
    match code.writeListing defaultTitle sink with
    | .ok () sink => code.execute? fuel input sink options.limit
    | .error e sink => some ⟨.error (.io e), sink, input⟩
  else code.execute? fuel input sink options.limit

end Code

/-- Compiles and runs a program. -/
def runProgram? (program : Program) (fuel : Nat) (input : Input) (sink : Sink) (options : RunOptions) :
    Option Finished :=
  match program.compile with
  | .ok code => code.run? fuel input sink options
  | .error failure => some ⟨.error failure, sink, input⟩

/-- Assembles and runs a text. -/
def runText? (text : String) (fuel : Nat) (input : Input) (sink : Sink) (options : RunOptions) : Option Finished :=
  match Code.assemble text with
  | .ok code => code.run? fuel input sink options
  | .error e => some ⟨.error (.assembly e), sink, input⟩

end StackMachine
