import StackMachine.CommandLine.Session

/-!
The program. It reads the file and the standard input, and prints while the machine runs; what to do and what to say is
decided by `CommandLine`.
-/

namespace StackMachine.CommandLine

/-- The operating system's words for the reasons why a file cannot be read. Its number may come with either sign. -/
def systemError (code : UInt32) (otherwise : IO.Error) : IoError :=
  match if code < 0x80000000 then code.toNat else (0 - code).toNat with
  | 2 => notFound
  | 13 => .refused "Permission denied" 13
  | 20 => notDirectory
  | 21 => isDirectory
  | _ => .stated (toString otherwise)

def readFile (file : String) : IO (Except IoError ByteArray) := do
  try
    return .ok (← IO.FS.readBinFile file)
  catch e =>
    match e with
    | .noFileOrDirectory _ code _ | .permissionDenied _ code _ | .inappropriateType _ code _ =>
      return .error (systemError code e)
    | _ => return .error (.stated (toString e))

/-- The bytes up to and with the next newline, or up to the end. -/
partial def readLineBytes (stdin : IO.FS.Stream) (line : ByteArray) : IO ByteArray := do
  let byte ← stdin.read 1
  if byte.isEmpty then return line
  let line := line ++ byte
  if byte[0]? = some newline then return line else readLineBytes stdin line

/-- Passes on what the sink has taken so far. -/
def passOn (stdout : IO.FS.Stream) (m : Machine) : IO Machine := do
  let sink := m.world.sink
  if sink.written.isEmpty then return m
  stdout.write sink.written
  stdout.flush
  return { m with world := { m.world with sink := { sink with written := ByteArray.empty } } }

def readsNext (image : Image) (index : Nat) : Bool :=
  match image.operations[index]? with
  | some (.ok (.read _)) => true
  | _ => false

/-- Runs an image, with input fetched when it is asked for and output passed on as it comes. -/
partial def drive (stdin stdout : IO.FS.Stream) (image : Image) (index : Nat) (m : Machine) : IO Halt := do
  let m ←
    if m.world.input.isEmpty && readsNext image index then
      let line ← readLineBytes stdin ByteArray.empty
      pure { m with world := { m.world with input := line.toList } }
    else pure m
  match image.step index m with
  | .running index m => drive stdin stdout image index (← passOn stdout m)
  | .finished m => return (← passOn stdout m).finish
  | .faulted fault m => return (← passOn stdout m).abort fault

def runCode (stdin stdout : IO.FS.Stream) (code : Code) (limit : Nat) : IO (Except Failure Unit) := do
  match Image.link code.instructions with
  | .error fault => return .error (.fault fault)
  | .ok image =>
    let halt ← drive stdin stdout image 0 (Machine.new [] .unbounded limit)
    return halt.outcome.mapError Failure.fault

end StackMachine.CommandLine

open StackMachine.CommandLine

def main (arguments : List String) : IO UInt32 := do
  let stdout ← IO.getStdout
  let stderr ← IO.getStderr
  match Options.parse arguments with
  | .error refusal =>
    stderr.putStr refusal.message
    return refusal.exitCode.toUInt32
  | .ok options =>
    let content ← readFile options.file
    let outcome ← match prepare options (fun _ => content) .unbounded with
      | .over outcome sink =>
        stdout.write sink.written
        pure outcome
      | .ready code sink =>
        stdout.write sink.written
        runCode (← IO.getStdin) stdout code options.limit
    stdout.flush
    let ended := report options.file outcome .unbounded
    stderr.putStr ended.stderr
    return ended.exitCode.toUInt32
