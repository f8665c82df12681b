import StackMachine.Machine.Channel
import StackMachine.Machine.Store

/-!
What a running program acts on: its variables, its input and its output.

A fault leaves the world as far as the action had come: a line that was read is used up, and of a text that did not fit
the sink has the part that did.
-/

namespace StackMachine

structure World where
  store : Store
  input : Input
  sink : Sink
  deriving Inhabited

/-- Actions on the world that may fault. -/
abbrev Act :=
  EStateM Fault World

namespace World

/-- The world before a run: no variable has a value. -/
def new (input : Input) (sink : Sink) : World :=
  ⟨.empty, input, sink⟩

/-- The value that was saved last under a name. -/
def fetch (name : String) : Act Value := fun w =>
  match w.store.get? name with
  | some v => .ok v w
  | none => .error (.undefinedVariable name) w

def save (name : String) (v : Value) : Act Unit := fun w =>
  .ok () { w with store := w.store.insert name v }

def write (text : String) : Act Unit := fun ⟨store, input, sink⟩ =>
  match Sink.write text sink with
  | .ok () sink => .ok () ⟨store, input, sink⟩
  | .error e sink => .error (.io e) ⟨store, input, sink⟩

/-- Writes values side by side on one line. -/
def print (values : List Value) : Act Unit :=
  write (String.join (values.map Value.text) ++ "\n")

/-- Takes one line. It is used up even if it is no text. -/
def readLine : Act String := fun w =>
  if w.input.isEmpty then .error .endOfInput w
  else
    let rest := { w with input := w.input.afterLine }
    match Input.decode? w.input.firstLine with
    | some line => .ok line rest
    | none => .error (.io .notUtf8) rest

/-- Reads a value of the given kind from one line. -/
def read (kind : Kind) : Act Value := do
  let line ← readLine
  match Value.ofLine? kind line with
  | some v => pure v
  | none => throw (.invalidInput kind line)

end World

end StackMachine
