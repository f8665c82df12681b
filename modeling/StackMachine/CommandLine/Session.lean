import StackMachine.CommandLine.Files
import StackMachine.CommandLine.Options
import StackMachine.Toolchain

/-!
One call of the command line: from its arguments, the files and the standard input to what it writes and the exit code.
-/

namespace StackMachine.CommandLine

/-- What a call leaves behind. -/
structure Report where
  exitCode : Nat
  stdout : ByteArray
  stderr : String

def exitCode : Failure → Nat
  | .typing _ | .lowering _ | .assembly _ => 65
  | .fault _ => 70
  | .io _ => 74

/-- The text of the program file. -/
def readText (files : Files) (file : String) : Except Failure String :=
  match files file with
  | .error e => .error (.io e)
  | .ok bytes =>
    match String.fromUTF8? bytes with
    | some text => .ok text
    | none => .error (.io .notUtf8)

/-- The code of the program file. -/
def loadCode (files : Files) (file : String) : Except Failure Code := do
  let text ← readText files file
  (Code.assemble text).mapError Failure.assembly

/-- Where a call stands when the program file has been loaded: it is over, or there is code to run. -/
inductive Stage where
  | over (outcome : Except Failure Unit) (sink : Sink)
  | ready (code : Code) (sink : Sink)

/-- Everything before the run: loading, the listing, and the check if that is all that was asked for. -/
def prepare (options : Options) (files : Files) (sink : Sink) : Stage :=
  match loadCode files options.file with
  | .error failure => .over (.error failure) sink
  | .ok code =>
    let listed := if options.list then code.writeListing options.file sink else .ok () sink
    match listed with
    | .error e sink => .over (.error (.io e)) sink
    | .ok () sink =>
      if options.checkOnly then .over ((checkLabels code.instructions).mapError Failure.fault) sink
      else .ready code sink

/-- What a call with valid options does to its output. -/
def session? (options : Options) (files : Files) (stdin : Input) (fuel : Nat) : Option (Except Failure Unit × Sink) :=
  match prepare options files .unbounded with
  | .over outcome sink => some (outcome, sink)
  | .ready code sink =>
    (code.execute? fuel stdin sink options.limit).map fun finished => (finished.outcome, finished.sink)

/-- The words for a failure. -/
def complaint (file : String) (failure : Failure) : String :=
  file ++ ": " ++ failure.message ++ "\n"

def report (file : String) (outcome : Except Failure Unit) (sink : Sink) : Report :=
  match outcome with
  | .ok () => ⟨0, sink.written, ""⟩
  | .error failure => ⟨exitCode failure, sink.written, complaint file failure⟩

/-- A whole call, if it ends within `fuel` steps. -/
def main? (arguments : List String) (files : Files) (stdin : Input) (fuel : Nat) : Option Report :=
  match Options.parse arguments with
  | .error refusal => some ⟨refusal.exitCode, ByteArray.empty, refusal.message⟩
  | .ok options =>
    (session? options files stdin fuel).map fun (outcome, sink) => report options.file outcome sink

end StackMachine.CommandLine
