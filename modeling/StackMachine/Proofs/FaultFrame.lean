import StackMachine.Proofs.LineInput

/-! What a fault leaves behind.

An operation that faults has saved nothing and pushed nothing, so of the stack only some of its operands can be missing
(`Machine.Cleared`). What it did to the channels before it faulted stays: a line that was read is used up, and a sink
keeps what it had room for. The run ends there. Main statement: `Machine.fault_frame`. -/

namespace StackMachine

/-- What a fault leaves of a machine, if the instruction has this opcode and takes so many values off the stack. -/
structure Frame (opcode : Opcode) (pops : Nat) (fault : Fault) (m left : Machine) : Prop where
  store_eq : left.world.store = m.world.store
  stack_suffix : left.stack.values <:+ m.stack.values
  size_le : m.stack.size ≤ left.stack.size + pops
  sink : left.world.sink = m.world.sink ∨
    opcode = .print ∧ (∃ e, fault = .io e) ∧ m.world.sink.Continues left.world.sink
  input : left.world.input = m.world.input ∨ opcode = .read

/-! ### Values that are gone -/

namespace Machine

/-- `left` is `m` without some of the topmost values, `count` at most. -/
def Cleared (count : Nat) (m left : Machine) : Prop :=
  ∃ k ≤ count, left = { m with stack := m.stack.drop k }

variable {m m₁ left : Machine} {count count' : Nat} {opcode : Opcode} {fault : Fault}

theorem Cleared.refl (m : Machine) : m.Cleared 0 m := by
  refine ⟨0, Nat.le_refl 0, ?_⟩
  simp [Stack.drop]

theorem Cleared.trans (h : m.Cleared count m₁) (h' : m₁.Cleared count' left) : m.Cleared (count + count') left := by
  obtain ⟨k, hk, rfl⟩ := h
  obtain ⟨k', hk', rfl⟩ := h'
  refine ⟨k + k', Nat.add_le_add hk hk', ?_⟩
  have hdrop : (m.stack.drop k).drop k' = m.stack.drop (k + k') := by
    ext1
    simp
  simp [hdrop]

theorem Cleared.mono (h : m.Cleared count left) (hle : count ≤ count') : m.Cleared count' left := by
  obtain ⟨k, hk, rfl⟩ := h
  exact ⟨k, Nat.le_trans hk hle, rfl⟩

theorem Cleared.frame (h : m.Cleared count left) : Frame opcode count fault m left := by
  obtain ⟨k, hk, rfl⟩ := h
  refine ⟨rfl, List.drop_suffix k m.stack.values, ?_, .inl rfl, .inl rfl⟩
  simp only [Stack.drop]
  omega

end Machine

/-! ### Operations that fault -/

theorem World.store_read (kind : Kind) (w : World) : (stateAfter (read kind w)).store = w.store := by
  by_cases hne : w.input = []
  · rw [read_of_nil kind hne, stateAfter]
  · rw [stateAfter_read kind hne]

namespace Exec

open Machine

variable {α β : Type} {x : Exec α} {f : α → Exec β} {count count' : Nat} {m left : Machine} {kind : Kind} {fault : Fault}

/-- An action that only takes values off the stack, whether it faults or not. -/
def Clears (count : Nat) (x : Exec α) : Prop :=
  ∀ m : Machine, m.Cleared count (stateAfter (x m))

/-- An action that has done no more than take values off the stack when it faults. -/
def FaultClears (count : Nat) (x : Exec α) : Prop :=
  ∀ (m : Machine) fault left, x m = .error fault left → m.Cleared count left

theorem Clears.onFault (h : Clears count x) : FaultClears count x := by
  intro m fault left hx
  have hm := h m
  rwa [hx] at hm

theorem Clears.bind (hx : Clears count x) (hf : ∀ a, FaultClears count' (f a)) :
    FaultClears (count + count') (x >>= f) := by
  intro m fault left h
  have hm := hx m
  rcases Action.bind_eq_error.mp h with h | ⟨a, m₁, hxm, h⟩
  · rw [h] at hm
    exact hm.mono (Nat.le_add_right count count')
  · rw [hxm] at hm
    exact hm.trans (hf a m₁ fault left h)

/-- What follows the last action that may fault does not matter. -/
theorem FaultClears.thenPure {b : β} (h : FaultClears count x) : FaultClears count (x >>= fun _ => pure b) := by
  intro m fault left hx
  rcases Action.bind_eq_error.mp hx with hx | ⟨a, m₁, -, hpure⟩
  · exact h m fault left hx
  · cases hpure

theorem clears_pure (a : α) : Clears 0 (pure a : Exec α) :=
  Cleared.refl

theorem clears_throw (fault : Fault) : Clears 0 (throw fault : Exec α) :=
  Cleared.refl

theorem clears_lift (result : Except Fault α) : Clears 0 (lift result) := by
  cases result with
  | ok a => exact clears_pure a
  | error fault => exact clears_throw fault

theorem clears_pop (opcode : Opcode) : Clears 1 (pop opcode) := by
  intro m
  cases h : pop opcode m with
  | ok v m₁ =>
    obtain ⟨htop, hrest⟩ := pop_eq_ok h
    have hdrop : m₁.stack = m.stack.drop 1 := by
      ext1
      simp [htop]
    exact ⟨1, Nat.le_refl 1, hdrop ▸ hrest⟩
  | error fault m₁ =>
    obtain ⟨-, -, rfl⟩ := pop_eq_error h
    exact (Cleared.refl m₁).mono (Nat.zero_le 1)

theorem clears_fetch (name : String) : Clears 0 (act (World.fetch name)) := by
  intro m
  rw [stateAfter_act]
  have hfetch : stateAfter (World.fetch name m.world) = m.world := by
    unfold World.fetch
    split <;> rfl
  rw [hfetch]
  exact Cleared.refl m

/-- A value of the wrong kind is gone as well. -/
theorem clears_popAs (opcode : Opcode) (kind : Kind) : Clears 1 (popAs opcode kind) := by
  intro m
  refine stateAfter_bind (P := m.Cleared 1) (clears_pop opcode m) fun v m₁ h => ?_
  cases v.as? kind <;> exact h

theorem faultClears_push (v : Value) : FaultClears 0 (push v) := by
  intro m fault left h
  obtain ⟨-, -, rfl⟩ := push_eq_error h
  exact Cleared.refl left

theorem faultClears_save (name : String) (v : Value) : FaultClears 0 (act (World.save name v)) := by
  intro m fault left h
  obtain ⟨w, hw, -⟩ := act_eq_error h
  cases hw

/-- An operation that uses no channel has taken no more than its operands when it faults. -/
theorem faultClears_perform {operation : Operation} (hprint : ∀ n, operation ≠ .print n)
    (hread : ∀ kind, operation ≠ .read kind) : FaultClears operation.pops (perform operation) := by
  cases operation with
  | binary op =>
    rw [Operation.pops_binary]
    exact (clears_popAs _ _).bind fun b => (clears_popAs _ _).bind fun a => (clears_lift _).bind fun result =>
      (faultClears_push _).thenPure
  | unary op =>
    rw [Operation.pops_unary]
    exact (clears_popAs _ _).bind fun a => (faultClears_push _).thenPure
  | push v => exact (faultClears_push v).thenPure
  | pop => exact (clears_pop _).onFault.thenPure
  | load kind name =>
    show FaultClears (0 + 0) _
    refine (clears_fetch name).bind fun v => ?_
    split
    · exact (faultClears_push v).thenPure
    · exact (clears_throw _).onFault.thenPure
  | save kind name =>
    -- Once there is a value to save, saving it cannot fail.
    exact (clears_popAs _ _).bind fun data => (faultClears_save _ _).thenPure
  | label => exact (clears_pure _).onFault
  | jump target => exact (clears_pure _).onFault
  | branch target =>
    show FaultClears (1 + 0) _
    refine (clears_pop _).bind fun v => ?_
    rcases v.truthy? with _ | (_ | _)
    · exact (clears_throw _).onFault
    · exact (clears_pure _).onFault
    · exact (clears_pure _).onFault
  | print n => exact absurd rfl (hprint n)
  | read kind => exact absurd rfl (hread kind)

/-- A `print` that finds too few values leaves them all. One that cannot write has taken its values. -/
theorem frame_of_print {n : Nat} (h : perform (.print n) m = .error fault left) : Frame .print n fault m left := by
  rcases Action.bind_eq_error.mp h with h | ⟨values, m₁, htake, h⟩
  · obtain ⟨-, -, rfl⟩ := take_eq_error h
    exact ((Cleared.refl left).mono (Nat.zero_le n)).frame
  obtain ⟨-, rfl⟩ := take_eq_ok htake
  rcases Action.bind_eq_error.mp h with h | ⟨u, m₂, -, hpure⟩
  · obtain ⟨w, hw, rfl⟩ := act_eq_error h
    have hframe : Frame .print n fault m { m with stack := m.stack.drop n } := Cleared.frame ⟨n, Nat.le_refl n, rfl⟩
    have hafter : stateAfter (World.print values m.world) = w := by
      rw [hw]
      rfl
    have hsink := World.continues_print values m.world
    rw [hafter] at hsink
    rw [World.print, World.stateAfter_write] at hafter
    subst hafter
    exact ⟨rfl, hframe.stack_suffix, hframe.size_le, .inr ⟨rfl, World.fault_of_print hw, hsink⟩, .inl rfl⟩
  · cases hpure

/-- A `read` takes nothing off the stack, and keeps what it read to itself when it faults. -/
theorem frame_of_read (h : perform (.read kind) m = .error fault left) : Frame .read 0 fault m left := by
  have hleft : left = { m with world := stateAfter (World.read kind m.world) } := by
    rcases Action.bind_eq_error.mp h with h | ⟨v, m₁, hread, h⟩
    · obtain ⟨w, hw, rfl⟩ := act_eq_error h
      rw [hw]
      rfl
    · obtain ⟨w, hw, rfl⟩ := act_eq_ok hread
      rw [hw]
      rcases Action.bind_eq_error.mp h with h | ⟨u, m₂, -, hpure⟩
      · obtain ⟨-, -, rfl⟩ := push_eq_error h
        rfl
      · cases hpure
  subst hleft
  exact ⟨World.store_read kind m.world, List.suffix_refl _, Nat.le_refl _, .inl (World.sink_read kind m.world), .inr rfl⟩

theorem frame_of_perform {operation : Operation} (h : perform operation m = .error fault left) :
    Frame operation.opcode operation.pops fault m left := by
  cases operation with
  | print n => exact frame_of_print h
  | read kind => exact frame_of_read h
  | _ =>
    refine (faultClears_perform ?_ ?_ m fault left h).frame
    · exact nofun
    · exact nofun

end Exec

/-! ### Steps that fault -/

namespace Image

variable {image : Image} {instructions : List Instruction} {n i j : Nat} {m m₁ left : Machine} {fault : Fault}

/-- A fault of decoding leaves the machine as it is, and one of the operation leaves a frame. -/
theorem frame_of_step (hlink : link instructions = .ok image) (h : image.step j m = .faulted fault left)
    {instruction : Instruction} (hi : instructions[j]? = some instruction) :
    Frame instruction.opcode instruction.pops fault m left := by
  rcases step_eq_faulted h with ⟨-, rfl⟩ | ⟨operation, hop, hperform⟩
  · exact ((Machine.Cleared.refl left).mono (Nat.zero_le _)).frame
  · obtain ⟨other, target, hother, -, hdecode⟩ := exists_of_operation hlink hop
    obtain rfl : other = instruction := Option.some.inj (hother.symm.trans hi)
    rw [← Instruction.opcode_of_decode hdecode, ← Instruction.pops_of_decode hdecode]
    exact Exec.frame_of_perform hperform

theorem Leads.run?_eq_none (h : image.Leads n i m j m₁) {fuel : Nat} (hle : fuel ≤ n) : image.run? fuel i m = none := by
  cases hrun : image.run? fuel i m with
  | none => rfl
  | some halt =>
    obtain ⟨rest, rfl, hrest⟩ := h.run?_rest hrun
    obtain rfl : rest = 0 := by omega
    cases hrest

theorem Leads.executed_add (h : image.Leads n i m j m₁) (fuel : Nat) :
    image.executed instructions (n + fuel) i m =
      image.executed instructions n i m ++ image.executed instructions fuel j m₁ := by
  induction h with
  | refl => simp [executed]
  | step first _ ih =>
    rw [Nat.add_right_comm, executed, executed, first]
    dsimp only
    rw [ih, List.append_assoc]

end Image

namespace Machine

variable {m m' left : Machine} {instructions : List Instruction} {image : Image} {n j : Nat} {fault : Fault}

/-- A fault leaves a clean frame. The instruction that faults leaves the variables as they were, and of the stack a part
from the bottom, without more values missing than it takes. The sink is left as it was unless it refused a `print`, and
the input unless the instruction is a `read`. The run ends there with this fault: nothing is executed after that
instruction, and nothing happens but that the sink is flushed. -/
theorem fault_frame (hlink : Image.link instructions = .ok image) (hreaches : m.Reaches instructions n j m')
    (hstep : image.step j m' = .faulted fault left) :
    ∃ i, instructions[j]? = some i ∧ Frame i.opcode i.pops fault m' left ∧ ∀ fuel,
      (fuel ≤ n → m.run? fuel instructions = none) ∧
      (n < fuel → m.executed fuel instructions = m.executed n instructions ++ [i] ∧
        ∃ halt, m.run? fuel instructions = some halt ∧ halt.outcome = .error fault ∧
          halt.machine.stack = left.stack ∧ halt.machine.world.store = left.world.store ∧
          halt.machine.world.input = left.world.input ∧
          halt.machine.world.sink = { left.world.sink with flushes := left.world.sink.flushes + 1 }) := by
  obtain ⟨i, hi, -⟩ := Image.raises_of_step hlink hstep
  obtain ⟨image', hlink', hleads⟩ := hreaches
  obtain rfl : image' = image := Except.ok.inj (hlink'.symm.trans hlink)
  refine ⟨i, hi, Image.frame_of_step hlink hstep hi, fun fuel => ⟨fun hle => ?_, fun hlt => ?_⟩⟩
  · rw [run?, hlink]
    exact hleads.run?_eq_none hle
  · obtain ⟨more, rfl⟩ : ∃ more, fuel = n + (more + 1) := ⟨fuel - n - 1, by omega⟩
    have hlast : image'.executed instructions (more + 1) j m' = [i] := by
      rw [Image.executed, hstep, hi]
      rfl
    refine ⟨?_, left.abort fault, ?_, rfl, ?_⟩
    · simp only [executed, hlink]
      rw [hleads.executed_add, hlast]
    · simp only [run?, hlink]
      rw [hleads.run?_add, Image.run?_of_faulted hstep]
    · rw [abort, left.machine_finish]
      exact ⟨rfl, rfl, rfl, rfl⟩

/-- Code that adds a number to a text. -/
def clashing : List Instruction :=
  [.push .bool "true", .push .string "\"x\"", .push .int "1", .typed .add .int]

/-- The number was of the right kind and the text was not. Both are gone, and what was below them is still there. -/
theorem fault_frame_clashing :
    ∃ image m' left, Image.link clashing = .ok image ∧ (new [] .unbounded 3).Reaches clashing 3 3 m' ∧
      image.step 3 m' = .faulted (.typeMismatch .add .int .string) left ∧
      left.stack.values = [.bool true] ∧ left.stack.values <:+ m'.stack.values ∧
      left.world.store = m'.world.store ∧
      ∃ halt, (new [] .unbounded 3).run? 4 clashing = some halt ∧
        halt.outcome = .error (.typeMismatch .add .int .string) ∧ halt.machine.stack = left.stack := by
  obtain ⟨image, hlink, m', hleads, left, hstep, hvalues⟩ : ∃ image, Image.link clashing = .ok image ∧
      ∃ m', image.Leads 3 0 (new [] .unbounded 3).reset 3 m' ∧
        ∃ left, image.step 3 m' = .faulted (.typeMismatch .add .int .string) left ∧
          left.stack.values = [.bool true] :=
    ⟨_, rfl, _, .step rfl (.step rfl (.step rfl (.refl _ _))), _, rfl, rfl⟩
  have hreaches : (new [] .unbounded 3).Reaches clashing 3 3 m' := ⟨image, hlink, hleads⟩
  obtain ⟨i, -, hframe, hrun⟩ := fault_frame hlink hreaches hstep
  obtain ⟨-, halt, hhalt, houtcome, hstack, -⟩ := (hrun 4).2 (by decide)
  exact ⟨image, m', left, hlink, hreaches, hstep, hvalues, hframe.stack_suffix, hframe.store_eq, halt, hhalt, houtcome,
    hstack⟩

end Machine

end StackMachine
