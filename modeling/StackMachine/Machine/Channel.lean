import StackMachine.Machine.Fault

/-!
Input and output.

Input is the bytes not yet read, and is taken line by line. Output goes to a sink that may be bounded: a text that does
not fit is cut where the room ends, and then the write fails.
-/

namespace StackMachine

/-- The bytes that are still to be read. -/
abbrev Input :=
  List UInt8

def newline : UInt8 :=
  10

def carriageReturn : UInt8 :=
  13

namespace Input

/-- The bytes of the first line, without what ends it: a newline, and a carriage return before the newline. -/
def firstLine (input : Input) : List UInt8 :=
  let line := input.takeWhile (· != newline)
  if input.contains newline && line.getLast? = some carriageReturn then line.dropLast else line

/-- What follows the first line. -/
def afterLine (input : Input) : Input :=
  (input.dropWhile (· != newline)).drop 1

/-- The text of bytes that are UTF-8. -/
def decode? (bytes : List UInt8) : Option String :=
  String.fromUTF8? ⟨bytes.toArray⟩

end Input

structure Sink where
  written : ByteArray
  /-- How many more bytes the sink takes; unbounded if nothing is said. -/
  room : Option Nat
  /-- What every flush fails with, if it does. -/
  flushError : Option IoError
  /-- How often the sink was flushed, failures included. -/
  flushes : Nat

namespace Sink

/-- A sink that takes everything. -/
def unbounded : Sink :=
  ⟨ByteArray.empty, none, none, 0⟩

instance : Inhabited Sink :=
  ⟨unbounded⟩

def write (text : String) : EStateM IoError Sink Unit := fun ⟨written, room, flushError, flushes⟩ =>
  let bytes := text.toUTF8
  match room with
  | none => .ok () ⟨written ++ bytes, none, flushError, flushes⟩
  | some room =>
    if bytes.size ≤ room then .ok () ⟨written ++ bytes, some (room - bytes.size), flushError, flushes⟩
    else .error .sinkFull ⟨written ++ bytes.extract 0 room, some 0, flushError, flushes⟩

def flush : EStateM IoError Sink Unit := fun sink =>
  let flushed := { sink with flushes := sink.flushes + 1 }
  match sink.flushError with
  | none => .ok () flushed
  | some error => .error error flushed

end Sink

end StackMachine
