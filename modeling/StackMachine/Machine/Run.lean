import StackMachine.Machine.Exec
import StackMachine.Machine.Image

/-!
Running an image.

A run goes from operation to operation until it leaves the code or faults. It may go on forever, so it is given a
number of steps, and has no result if they do not suffice. Its result does not depend on their number otherwise.
-/

namespace StackMachine

/-- What one step leads to. -/
inductive Progress where
  | running (index : Nat) (m : Machine)
  | finished (m : Machine)
  | faulted (fault : Fault) (m : Machine)

/-- How a run ended, and the machine it left. -/
structure Halt where
  outcome : Except Fault Unit
  machine : Machine

namespace World

/-- The end of a run without fault. The sink is flushed, which may fail. -/
def finish : Act Unit := fun ⟨store, input, sink⟩ =>
  match Sink.flush sink with
  | .ok () sink => .ok () ⟨store, input, sink⟩
  | .error e sink => .error (.io e) ⟨store, input, sink⟩

end World

namespace Machine

/-- A machine with nothing on its stack and nothing in its store. -/
def new (input : Input) (sink : Sink) (limit : Nat) : Machine :=
  ⟨.empty, .new input sink, limit⟩

/-- The machine that a run starts with: it keeps only its channels and its bound. -/
def reset (m : Machine) : Machine :=
  new m.world.input m.world.sink m.limit

/-- The end of a run without fault. -/
def finish (m : Machine) : Halt :=
  match Exec.act World.finish m with
  | .ok () m => ⟨.ok (), m⟩
  | .error fault m => ⟨.error fault, m⟩

/-- The end of a run by a fault, which stands even if the sink cannot be flushed. -/
def abort (m : Machine) (fault : Fault) : Halt :=
  ⟨.error fault, m.finish.machine⟩

end Machine

namespace Image

def step (image : Image) (index : Nat) (m : Machine) : Progress :=
  match image.operations[index]? with
  | none => .finished m
  | some (.error fault) => .faulted fault m
  | some (.ok operation) =>
    match Exec.perform operation m with
    | .ok .next m => .running (index + 1) m
    | .ok (.goto target) m => .running target m
    | .error fault m => .faulted fault m

/-- Runs from an index for at most `fuel` steps. -/
def run? (image : Image) : (fuel : Nat) → Nat → Machine → Option Halt
  | 0, _, _ => none
  | fuel + 1, index, m =>
    match image.step index m with
    | .running index m => image.run? fuel index m
    | .finished m => some m.finish
    | .faulted fault m => some (m.abort fault)

end Image

namespace Machine

/-- Runs instructions from the first one on. If their labels are not in order, nothing happens but the reset. -/
def run? (m : Machine) (fuel : Nat) (instructions : List Instruction) : Option Halt :=
  match Image.link instructions with
  | .error fault => some ⟨.error fault, m.reset⟩
  | .ok image => image.run? fuel 0 m.reset

end Machine

end StackMachine
