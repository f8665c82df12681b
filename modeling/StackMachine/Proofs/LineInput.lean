import StackMachine.Proofs.Comparison

/-! Input line by line.

A machine takes whole lines and looks at nothing behind the line it takes. If the input ends where a line ends, a run
that does not come to the end of the input is the same with more input behind, which it leaves (`Machine.run?_feed`). It
has taken as many lines as it executed instructions that read one (`Machine.takes_of_run?`). Main statement:
`Machine.input_by_lines`. -/

namespace StackMachine

/-! ### Lines -/

namespace Input

variable {input rest more : Input} {line : List UInt8} {count count' : Nat}

/-- Input that ends where a line ends. -/
def Complete (input : Input) : Prop :=
  input = [] ∨ input.getLast? = some newline

theorem Complete.of_append {before : List UInt8} (h : Complete (before ++ input)) : input.Complete := by
  by_cases hne : input = []
  · exact .inl hne
  · rcases h with h | h
    · exact .inl (List.append_eq_nil_iff.mp h).2
    · have hlast := List.getLast?_eq_some_getLast hne
      rw [List.getLast?_append, hlast, Option.some_or] at h
      exact .inr (hlast.trans h)

theorem Complete.exists_line (h : input.Complete) (hne : input ≠ []) :
    ∃ line rest, newline ∉ line ∧ input = line ++ newline :: rest := by
  rcases h with h | h
  · exact absurd h hne
  · obtain ⟨line, rest, hinput, hline⟩ := List.eq_append_cons_of_mem (List.mem_of_getLast? h)
    exact ⟨line, rest, hline, hinput⟩

theorem all_ne_newline (h : newline ∉ line) : ∀ byte ∈ line, (byte != newline) = true := by
  intro byte hbyte
  exact bne_iff_ne.mpr fun heq => h (heq ▸ hbyte)

theorem afterLine_append (h : newline ∉ line) (rest : Input) : afterLine (line ++ newline :: rest) = rest := by
  rw [afterLine, List.dropWhile_append_of_pos (all_ne_newline h)]
  simp

/-- The first line does not depend on what follows its newline. -/
theorem firstLine_append (h : newline ∉ line) (rest : Input) :
    firstLine (line ++ newline :: rest) = firstLine (line ++ [newline]) := by
  have htake : ∀ rest : Input, (line ++ newline :: rest).takeWhile (· != newline) = line := by
    intro rest
    rw [List.takeWhile_append_of_pos (all_ne_newline h)]
    simp
  have hcontains : ∀ rest : Input, (line ++ newline :: rest).contains newline = true := by
    intro rest
    simp
  rw [firstLine, firstLine, htake, htake, hcontains, hcontains]

/-- From some input, a number of lines was taken, each with its newline, and the rest was left. -/
def Takes (count : Nat) (input rest : Input) : Prop :=
  ∃ lines : List (List UInt8), lines.length = count ∧ (∀ line ∈ lines, newline ∉ line) ∧
    input = lines.flatMap (· ++ [newline]) ++ rest

theorem takes_zero (input : Input) : Takes 0 input input :=
  ⟨[], rfl, nofun, rfl⟩

theorem takes_one (h : newline ∉ line) (rest : Input) : Takes 1 (line ++ newline :: rest) rest :=
  ⟨[line], rfl, by simpa using h, by simp⟩

theorem Takes.trans (h : Takes count input rest) (h' : Takes count' rest more) : Takes (count + count') input more := by
  obtain ⟨lines, rfl, hlines, rfl⟩ := h
  obtain ⟨lines', rfl, hlines', rfl⟩ := h'
  refine ⟨lines ++ lines', List.length_append, fun line hline => ?_, by rw [List.flatMap_append, List.append_assoc]⟩
  exact (List.mem_append.mp hline).elim (hlines line) (hlines' line)

theorem Takes.complete (h : Takes count input rest) (hcomplete : input.Complete) : rest.Complete := by
  obtain ⟨lines, -, -, rfl⟩ := h
  exact hcomplete.of_append

end Input

/-! ### More input -/

/-- The same world with more input behind. -/
def World.feed (more : Input) (w : World) : World :=
  { w with input := w.input ++ more }

/-- The same machine with more input behind. -/
def Machine.feed (more : Input) (m : Machine) : Machine :=
  { m with world := m.world.feed more }

/-- A world whose input is complete beside the same with more input, until the first comes to the end of its input. -/
def WorldComparison.untilEnd (more : Input) : WorldComparison where
  alike w w' := w' = w.feed more ∧ w.input.Complete
  cut fault _ _ := fault = .endOfInput
  store_eq h := h.1 ▸ rfl
  later h _ := h

theorem WorldComparison.lawful_untilEnd (more : Input) : (untilEnd more).Lawful where
  save := by
    rintro name v w _ ⟨rfl, h⟩
    exact .ok ⟨rfl, h⟩
  print := by
    rintro values ⟨store, input, sink⟩ _ ⟨rfl, h⟩
    rw [World.print, World.feed, World.write, World.write]
    cases Sink.write (String.join (values.map Value.text) ++ "\n") sink with
    | ok a sink => exact .ok ⟨rfl, h⟩
    | error e sink => exact .error ⟨rfl, h⟩
  read := by
    rintro kind ⟨store, input, sink⟩ _ ⟨rfl, h⟩
    by_cases hne : input = []
    · rw [World.read_of_nil kind hne]
      exact .cut rfl
    · obtain ⟨line, rest, hline, rfl⟩ := h.exists_line hne
      have hrest : Input.Complete rest := (Input.takes_one hline rest).complete h
      have hfeed : World.feed more ⟨store, line ++ newline :: rest, sink⟩ =
          ⟨store, line ++ newline :: (rest ++ more), sink⟩ := by
        simp [World.feed]
      have hfirst := Input.firstLine_append hline rest
      have hfirst' := Input.firstLine_append hline (rest ++ more)
      rw [hfeed]
      rcases World.read_of_ne_nil kind (Input.firstLine (line ++ [newline])) with ⟨v, hread⟩ | ⟨fault, hread⟩
      · rw [hread _ hne hfirst, hread _ (by simp) hfirst', Input.afterLine_append hline, Input.afterLine_append hline]
        exact .ok ⟨rfl, hrest⟩
      · rw [hread _ hne hfirst, hread _ (by simp) hfirst', Input.afterLine_append hline, Input.afterLine_append hline]
        exact .error ⟨rfl, hrest⟩
  finish := by
    rintro ⟨store, input, sink⟩ _ ⟨rfl, h⟩
    rw [World.feed, World.finish, World.finish]
    cases Sink.flush sink with
    | ok a sink => exact .ok ⟨rfl, h⟩
    | error e sink => exact .error ⟨rfl, h⟩

namespace Machine

variable {m : Machine} {instructions : List Instruction} {fuel : Nat} {halt : Halt}

/-- A run that does not come to the end of its input is the same with more input behind. -/
theorem run?_feed (hinput : m.world.input.Complete) (h : m.run? fuel instructions = some halt)
    (hend : halt.outcome ≠ .error .endOfInput) (more : Input) :
    (m.feed more).run? fuel instructions = some ⟨halt.outcome, halt.machine.feed more⟩ := by
  have hlawful := (WorldComparison.lawful_untilEnd more).machines_eq
  have halike : ((WorldComparison.untilEnd more).machines Eq).alike m.reset (m.feed more).reset :=
    ⟨rfl, rfl, rfl, hinput⟩
  rcases hlawful.run?_cases halike h with ⟨⟨outcome, stack, world, limit⟩, hrun', houtcome, hstack, hlimit, hworld, -⟩ |
    ⟨fault, left, m₁', rfl, hcut, -⟩
  · cases houtcome
    cases hstack
    cases hlimit
    cases hworld
    exact hrun'
  · cases hcut
    exact absurd rfl hend

end Machine

/-! ### The lines that were taken -/

/-- The instructions that a run of their image executes within some steps, one that faults included. -/
def Image.executed (image : Image) (instructions : List Instruction) : (fuel : Nat) → Nat → Machine → List Instruction
  | 0, _, _ => []
  | fuel + 1, index, m =>
    instructions[index]?.toList ++
      match image.step index m with
      | .running next m => image.executed instructions fuel next m
      | .finished _ | .faulted _ _ => []

/-- The instructions that a run executes within some steps. -/
def Machine.executed (m : Machine) (fuel : Nat) (instructions : List Instruction) : List Instruction :=
  match Image.link instructions with
  | .error _ => []
  | .ok image => image.executed instructions fuel 0 m.reset

/-- An instruction to read a value of some kind. -/
def Instruction.readsLine (i : Instruction) : Bool :=
  i.opcode = .read && i.kind.isSome

namespace Instruction

variable {i : Instruction} {target : Option Nat}

theorem readsLine_of_decode {operation : Operation} (h : i.decode target = .ok operation) :
    i.readsLine = decide (operation.opcode = .read) := by
  rw [opcode_of_decode h, readsLine]
  by_cases hop : i.opcode = .read
  · unfold decode at h
    rw [hop] at h
    obtain ⟨kind, hkind, -⟩ := Except.bind_eq_ok.mp h
    simp [hop, needKind_eq_ok hkind]
  · simp [hop]

theorem readsLine_of_decode_error {fault : Fault} (h : i.decode target = .error fault) : i.readsLine = false := by
  rw [readsLine]
  by_cases hop : i.opcode = .read
  · unfold decode at h
    rw [hop] at h
    cases hkind : i.kind with
    | none => simp
    | some kind =>
      rw [needKind, hkind] at h
      cases h
  · simp [hop]

end Instruction

theorem Operation.eq_read_of_opcode {operation : Operation} (h : operation.opcode = .read) :
    ∃ kind, operation = .read kind := by
  have hpops : operation.opcode.pops = 0 := by rw [h]; rfl
  cases operation with
  | read kind => exact ⟨kind, rfl⟩
  | binary op => cases hpops.symm.trans (pops_binary op)
  | unary op => cases hpops.symm.trans (pops_unary op)
  | push | pop | load | save | label | jump | branch | print => cases h

namespace Exec

variable {m : Machine} {operation : Operation}

theorem input_push (v : Value) (m : Machine) : (stateAfter (push v m)).world.input = m.world.input := by
  unfold push
  split <;> rfl

/-- Only a `read` touches the input. -/
theorem input_of_perform (h : operation.opcode ≠ .read) :
    (stateAfter (perform operation m)).world.input = m.world.input := by
  refine Comparison.keeps_perform (P := fun m₁ => m₁.world.input = m.world.input) rfl (fun _ h _ => h) ?_ ?_ ?_ ?_
  · intro v m₁ hinput
    rw [input_push, hinput]
  · intro kind name v m₁ _ hinput
    exact hinput
  · intro count values m₁ _ hinput
    rw [stateAfter_act, World.print, World.stateAfter_write]
    exact hinput
  · rintro kind m₁ rfl
    exact absurd rfl h

/-- A `read` takes the first line, even if it faults on it or has no room for the value. -/
theorem input_of_read (kind : Kind) (hne : m.world.input ≠ []) :
    (stateAfter (perform (.read kind) m)).world.input = m.world.input.afterLine := by
  refine stateAfter_bind (P := fun m₁ : Machine => m₁.world.input = m.world.input.afterLine) ?_ fun v m₁ h => ?_
  · rw [stateAfter_act, World.stateAfter_read kind hne]
  · exact stateAfter_bind (P := fun m₂ : Machine => m₂.world.input = m.world.input.afterLine)
      ((input_push v m₁).trans h) fun _ _ h => h

/-- An operation takes one line if it is a `read`, and none otherwise. -/
theorem takes_perform (hinput : m.world.input.Complete)
    (hend : ∀ m', perform operation m ≠ .error .endOfInput m') :
    Input.Takes (if operation.opcode = .read then 1 else 0) m.world.input
      (stateAfter (perform operation m)).world.input := by
  by_cases hop : operation.opcode = .read
  · rw [if_pos hop]
    obtain ⟨kind, rfl⟩ := Operation.eq_read_of_opcode hop
    by_cases hne : m.world.input = []
    · have hact : act (World.read kind) m = .error .endOfInput m := by
        rw [act, World.read_of_nil kind hne]
      exact absurd (Action.bind_error hact) (hend m)
    · obtain ⟨line, rest, hline, hsplit⟩ := hinput.exists_line hne
      rw [input_of_read kind hne, hsplit, Input.afterLine_append hline]
      exact Input.takes_one hline rest
  · rw [if_neg hop, input_of_perform hop]
    exact Input.takes_zero m.world.input

end Exec

namespace Image

variable {image : Image} {instructions : List Instruction} (hlink : link instructions = .ok image)

include hlink

theorem takes_step (i : Nat) {m : Machine} (hinput : m.world.input.Complete)
    (hend : ∀ m', image.step i m ≠ .faulted .endOfInput m') :
    Input.Takes (instructions[i]?.toList.countP Instruction.readsLine) m.world.input
      (image.step i m).machine.world.input := by
  unfold step at hend ⊢
  cases hop : image.operations[i]? with
  | none =>
    obtain ⟨_, -, hsize⟩ := link_holds hlink
    have hi : instructions[i]? = none := by
      rw [List.getElem?_eq_none_iff, ← hsize]
      exact Array.getElem?_eq_none_iff.mp hop
    rw [hi]
    exact Input.takes_zero m.world.input
  | some decoded =>
    obtain ⟨instruction, target, hi, -, hdecode⟩ := exists_of_operation hlink hop
    rw [hi]
    cases decoded with
    | error fault =>
      have hcount : (some instruction).toList.countP Instruction.readsLine = 0 := by
        simp [Instruction.readsLine_of_decode_error hdecode]
      rw [hcount]
      exact Input.takes_zero m.world.input
    | ok operation =>
      have hcount : (some instruction).toList.countP Instruction.readsLine =
          if operation.opcode = .read then 1 else 0 := by
        simp [List.countP_cons, Instruction.readsLine_of_decode hdecode]
      have hperform : ∀ m', Exec.perform operation m ≠ .error .endOfInput m' := by
        intro m' hp
        rw [hop] at hend
        dsimp only at hend
        rw [hp] at hend
        exact hend m' rfl
      have htakes := Exec.takes_perform hinput hperform
      rw [hcount]
      dsimp only
      cases hp : Exec.perform operation m with
      | error fault m₁ => rwa [hp] at htakes
      | ok flow m₁ =>
        rw [hp] at htakes
        cases flow <;> exact htakes

/-- By induction on the steps: a run takes the lines of its first step and those of the rest. -/
theorem takes_run? {fuel i : Nat} {m : Machine} {halt : Halt} (hinput : m.world.input.Complete)
    (h : image.run? fuel i m = some halt) (hend : halt.outcome ≠ .error .endOfInput) :
    Input.Takes ((image.executed instructions fuel i m).countP Instruction.readsLine) m.world.input
      halt.machine.world.input := by
  induction fuel generalizing i m with
  | zero => cases h
  | succ fuel ih =>
    rw [executed, List.countP_append]
    have hfirst := takes_step hlink i hinput
    cases hs : image.step i m with
    | running k m₁ =>
      rw [run?_of_running hs] at h
      rw [hs] at hfirst
      have htakes := hfirst nofun
      exact htakes.trans (ih (htakes.complete hinput) h)
    | finished m₁ =>
      rw [run?_of_finished hs] at h
      rw [hs] at hfirst
      cases h
      rw [m₁.machine_finish]
      exact hfirst nofun
    | faulted fault m₁ =>
      rw [run?_of_faulted hs] at h
      rw [hs] at hfirst
      cases h
      rw [Machine.abort, m₁.machine_finish]
      refine hfirst fun m' hfault => ?_
      cases hfault
      exact hend rfl

end Image

namespace Machine

variable {m : Machine} {instructions : List Instruction} {fuel : Nat} {halt : Halt}

/-- A run that does not come to the end of its input has taken a line for each `read` that it executed. -/
theorem takes_of_run? (hinput : m.world.input.Complete) (h : m.run? fuel instructions = some halt)
    (hend : halt.outcome ≠ .error .endOfInput) :
    Input.Takes ((m.executed fuel instructions).countP Instruction.readsLine) m.world.input
      halt.machine.world.input := by
  unfold run? at h
  unfold executed
  cases hlink : Image.link instructions with
  | error fault =>
    rw [hlink] at h
    cases h
    exact Input.takes_zero m.world.input
  | ok image =>
    rw [hlink] at h
    exact Image.takes_run? hlink hinput h hend

/-- Input is taken line by line, and nothing behind is looked at. From input that ends where a line ends, a run that
does not come to the end of the input does the same with more input behind, and leaves that as well. It takes a line for
each instruction executed that reads one, and no others. -/
theorem input_by_lines (hinput : m.world.input.Complete) (h : m.run? fuel instructions = some halt)
    (hend : halt.outcome ≠ .error .endOfInput) :
    (∀ more, ∃ halt', (m.feed more).run? fuel instructions = some halt' ∧ halt'.outcome = halt.outcome ∧
      halt'.machine.stack = halt.machine.stack ∧ halt'.machine.world.store = halt.machine.world.store ∧
      halt'.machine.world.sink = halt.machine.world.sink ∧
      halt'.machine.world.input = halt.machine.world.input ++ more) ∧
    Input.Takes ((m.executed fuel instructions).countP Instruction.readsLine) m.world.input halt.machine.world.input :=
  ⟨fun more => ⟨_, run?_feed hinput h hend more, rfl, rfl, rfl, rfl, rfl⟩, takes_of_run? hinput h hend⟩

/-- Code that prints a number from one line and reads another. -/
def echoing : List Instruction :=
  [.read .int, .print 1, .read .int]

/-- A machine whose input has a number, something else and another line. -/
def reader : Machine :=
  .new "5\r\nx\n7\n".toUTF8.data.toList .unbounded 2

theorem input_by_lines_malformed :
    ∃ halt, reader.run? 4 echoing = some halt ∧ halt.outcome = .error (.invalidInput .int "x") ∧
      Input.Takes 2 reader.world.input halt.machine.world.input ∧
      ∀ more, ∃ halt', (reader.feed more).run? 4 echoing = some halt' ∧
        halt'.outcome = .error (.invalidInput .int "x") ∧
        halt'.machine.world.input = "7\n".toUTF8.data.toList ++ more := by
  obtain ⟨halt, hrun, houtcome, hrest⟩ : ∃ halt, reader.run? 4 echoing = some halt ∧
      halt.outcome = .error (.invalidInput .int "x") ∧ halt.machine.world.input = "7\n".toUTF8.data.toList :=
    ⟨_, rfl, rfl, rfl⟩
  have hcount : (reader.executed 4 echoing).countP Instruction.readsLine = 2 := rfl
  have hend : halt.outcome ≠ .error .endOfInput := by
    rw [houtcome]
    exact nofun
  obtain ⟨hmore, htakes⟩ := input_by_lines (.inr rfl) hrun hend
  refine ⟨halt, hrun, houtcome, hcount ▸ htakes, fun more => ?_⟩
  obtain ⟨halt', hrun', houtcome', -, -, -, hrest'⟩ := hmore more
  exact ⟨halt', hrun', houtcome'.trans houtcome, hrest ▸ hrest'⟩

end Machine

end StackMachine
