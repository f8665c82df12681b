import StackMachine.Proofs.Labelling
import StackMachine.Proofs.Simulation
import StackMachine.Toolchain

/-! Compiled programs.

Running the code of a program and evaluating its text come to an end together, and to the same end, as long as the
stack is never full. Main statement: `Program.compile_correct`. -/

namespace StackMachine

/-- The same output, the same unread input and the same variables. -/
def World.SameAs (w w' : World) : Prop :=
  w.sink.written = w'.sink.written ∧ w.input = w'.input ∧ w.store = w'.store

/-- A run ended as an evaluation did. -/
def Halt.Agrees (halt : Halt) : EStateM.Result Fault World Unit → Prop
  | .ok () w => halt.outcome = .ok () ∧ halt.machine.world.SameAs w
  | .error fault w => halt.outcome = .error fault ∧ halt.machine.world.SameAs w

/-- A run ended as an evaluation did, and then closed the sink. -/
def Halt.Closes (limit : Nat) (s : Stack) (halt : Halt) : EStateM.Result Fault World Unit → Prop
  | .ok () w => halt = Machine.finish ⟨s, w, limit⟩
  | .error fault w => ∃ m : Machine, m.world = w ∧ halt = m.abort fault

/-! ### How runs end -/

namespace Machine

variable {m : Machine}

theorem finish_agrees (h : m.world.sink.flushError = none) : m.finish.Agrees (.ok () m.world) := by
  obtain ⟨stack, ⟨store, input, sink⟩, limit⟩ := m
  have hflush : Sink.flush sink = .ok () { sink with flushes := sink.flushes + 1 } := by
    rw [Sink.flush, h]
  rw [finish, Exec.act, World.finish, hflush]
  exact ⟨rfl, rfl, rfl, rfl⟩

theorem abort_agrees (fault : Fault) : (m.abort fault).Agrees (.error fault m.world) := by
  obtain ⟨stack, ⟨store, input, sink⟩, limit⟩ := m
  rw [abort, finish, Exec.act, World.finish, Sink.flush]
  cases sink.flushError with
  | none => exact ⟨rfl, rfl, rfl, rfl⟩
  | some e => exact ⟨rfl, rfl, rfl, rfl⟩

end Machine

/-- A sink that does not fail to flush is closed without trace. -/
theorem Halt.Closes.agrees {halt : Halt} {limit : Nat} {s : Stack} {result : EStateM.Result Fault World Unit}
    (h : halt.Closes limit s result) (hflush : (worldAfter result).sink.flushError = none) : halt.Agrees result := by
  cases result with
  | ok u w =>
    obtain rfl := h
    exact Machine.finish_agrees hflush
  | error fault w =>
    obtain ⟨m, rfl, rfl⟩ := h
    exact m.abort_agrees fault

namespace Image

variable {image : Image} {limit i j : Nat} {m : Machine} {s : Stack} {result : EStateM.Result Fault World Unit}

theorem Overflows.run? (h : image.Overflows i m) :
    ∃ fuel halt bound, image.run? fuel i m = some halt ∧ halt.outcome = .error (.stackOverflow bound) := by
  obtain ⟨fault, m', hoverflow, hf⟩ := h
  obtain ⟨fuel, hrun⟩ := hf.run?
  cases fault with
  | stackOverflow bound => exact ⟨fuel, m'.abort _, bound, hrun, rfl⟩
  | _ => cases hoverflow

/-- Past the last operation the run ends. -/
theorem Runs.run? (h : image.Runs limit i m (fun _ => j) (fun _ => s) result) (hend : image.operations[j]? = none) :
    image.Overflows i m ∨ ∃ fuel halt, image.run? fuel i m = some halt ∧ halt.Closes limit s result := by
  cases result with
  | ok u w =>
    refine h.imp id ?_
    rintro ⟨n, hl⟩
    have hstep : image.step j ⟨s, w, limit⟩ = .finished ⟨s, w, limit⟩ := by rw [step, hend]
    exact ⟨n + 1, _, by rw [hl.run?_add, run?_of_finished hstep], rfl⟩
  | error fault w =>
    refine h.imp id ?_
    rintro ⟨m', hf, rfl⟩
    obtain ⟨fuel, hrun⟩ := hf.run?
    exact ⟨fuel, _, hrun, m', rfl, rfl⟩

/-- With as much fuel as there are steps in a run that ends, an evaluation is seen to end. -/
theorem Tracks.exists_of_run? {w : World} {fuel : Nat} {r : Evaluated} {halt : Halt}
    (h : image.Tracks limit s i j fuel w r) (hrun : image.run? fuel i ⟨s, w, limit⟩ = some halt) :
    image.Overflows i ⟨s, w, limit⟩ ∨ ∃ result, r = some result := by
  cases r with
  | some result => exact Or.inr ⟨result, rfl⟩
  | none =>
    refine h.imp id ?_
    rintro ⟨n, k, m', hl, hle⟩
    obtain ⟨rest, rfl, hrest⟩ := hl.run?_rest hrun
    obtain rfl : rest = 0 := by omega
    cases hrest

end Image

/-! ### Whole programs -/

/-- Nothing that an evaluation does makes flushing fail. -/
theorem World.stable_flushError :
    World.Stable fun w w' => w.sink.flushError = none → w'.sink.flushError = none where
  refl _ h := h
  trans h h' hw := h' (h hw)
  save _ _ _ h := h
  write text := by
    rintro ⟨store, input, ⟨written, room, flushError, flushes⟩⟩ h
    cases room with
    | none => exact h
    | some room =>
      unfold World.write Sink.write
      dsimp only
      split
      · rename_i sink heq
        split at heq <;> cases heq
        exact h
      · rename_i e sink heq
        split at heq <;> cases heq
        exact h
  readLine := by
    intro w h
    unfold World.readLine
    split
    · exact h
    · dsimp only
      split <;> exact h

namespace Program

variable {program : Program} {code : Code} {table : SymbolTable}

theorem compile_eq_ok (h : program.compile = .ok code) :
    ∃ table, program.symbols = .ok table ∧ program.lower table.typeOf = .ok code := by
  obtain ⟨table, htable, h⟩ := Except.bind_eq_ok.mp h
  exact ⟨table, Except.mapError_eq_ok.mp htable, Except.mapError_eq_ok.mp h⟩

/-- The image of a compiled program, and how running it compares with evaluating the program. -/
theorem tracks_lower (hs : program.symbols = .ok table) (h : program.lower table.typeOf = .ok code) :
    ∃ image, Image.link code.instructions = .ok image ∧ image.operations[code.size]? = none ∧
      ∀ input sink limit fuel, image.Tracks limit .empty 0 code.size (fuel - Stmt.slackAll program)
        (World.new input sink) (program.eval? table.typeOf fuel (World.new input sink)) := by
  obtain ⟨image, hlink⟩ := link_of_lower h
  obtain ⟨labels, hholds, hsize⟩ := Image.link_holds hlink
  obtain ⟨emitted, n, hemitted, rfl⟩ := lower_eq_ok h
  have hlength : (Code.ofPairs emitted).size = emitted.length := List.length_map Prod.fst
  refine ⟨image, hlink, ?_, fun input sink limit fuel => ?_⟩
  · rw [Array.getElem?_eq_none]
    exact Nat.le_of_eq hsize
  · rw [hlength, ← Nat.zero_add emitted.length]
    exact Image.tracks_lowerAll program hemitted hholds (wellTyped_of_symbols hs) fuel _ (.empty table)

section

variable (hs : program.symbols = .ok table) (h : program.lower table.typeOf = .ok code)

include hs h

/-- If the evaluation of a program ends, so does every run of its code. -/
theorem exists_halt_of_eval? (m : Machine) {fuel : Nat} {result : EStateM.Result Fault World Unit}
    (heval : program.eval? table.typeOf fuel (.new m.world.input m.world.sink) = some result) :
    ∃ fuel halt, m.run? fuel code.instructions = some halt := by
  obtain ⟨image, hlink, hend, htracks⟩ := tracks_lower hs h
  have htracked := htracks m.world.input m.world.sink m.limit fuel
  rw [heval] at htracked
  simp only [Machine.run?, hlink]
  rcases Image.Runs.run? htracked hend with hoverflow | ⟨fuel, halt, hhalt, -⟩
  · obtain ⟨fuel, halt, -, hhalt, -⟩ := hoverflow.run?
    exact ⟨fuel, halt, hhalt⟩
  · exact ⟨fuel, halt, hhalt⟩

/-- If a run of the code of a program ends, the stack was full or the evaluation of the program ends in the same way. -/
theorem eval?_of_halt {m : Machine} {fuel : Nat} {halt : Halt} (hrun : m.run? fuel code.instructions = some halt) :
    (∃ bound, halt.outcome = .error (.stackOverflow bound)) ∨
      ∃ fuel result, program.eval? table.typeOf fuel (.new m.world.input m.world.sink) = some result ∧
        halt.Closes m.limit .empty result := by
  obtain ⟨image, hlink, hend, htracks⟩ := tracks_lower hs h
  simp only [Machine.run?, hlink] at hrun
  have hfull : image.Overflows 0 m.reset → ∃ bound, halt.outcome = .error (.stackOverflow bound) := by
    intro hoverflow
    obtain ⟨_, halt', bound, hhalt', houtcome⟩ := hoverflow.run?
    exact ⟨bound, by rw [Image.run?_unique hrun hhalt', houtcome]⟩
  have htracked := htracks m.world.input m.world.sink m.limit (fuel + Stmt.slackAll program)
  rw [Nat.add_sub_cancel] at htracked
  rcases htracked.exists_of_run? hrun with hoverflow | ⟨result, heval⟩
  · exact Or.inl (hfull hoverflow)
  · rw [heval] at htracked
    refine (Image.Runs.run? htracked hend).imp hfull ?_
    rintro ⟨_, halt', hhalt', hcloses⟩
    rw [Image.run?_unique hrun hhalt']
    exact ⟨_, result, heval, hcloses⟩

end

/-- Compiler correctness: the code of a program halts exactly if its evaluation does, and then both come to the same
end. The stack must never be full, and the sink must not fail to flush. -/
theorem compile_correct (h : program.compile = .ok code) (input : Input) (sink : Sink) (limit : Nat)
    (hflush : sink.flushError = none)
    (hroom : ∀ fuel halt bound, (Machine.new input sink limit).run? fuel code.instructions = some halt →
      halt.outcome ≠ .error (.stackOverflow bound)) :
    ∃ table, program.symbols = .ok table ∧
      ((∃ fuel halt, (Machine.new input sink limit).run? fuel code.instructions = some halt) ↔
        ∃ fuel result, program.eval? table.typeOf fuel (.new input sink) = some result) ∧
      ∀ fuel fuel' halt result, (Machine.new input sink limit).run? fuel code.instructions = some halt →
        program.eval? table.typeOf fuel' (.new input sink) = some result → halt.Agrees result := by
  obtain ⟨table, hs, hlower⟩ := compile_eq_ok h
  have hevaluated : ∀ fuel halt, (Machine.new input sink limit).run? fuel code.instructions = some halt →
      ∃ fuel result, program.eval? table.typeOf fuel (.new input sink) = some result ∧
        halt.Closes limit .empty result := by
    intro fuel halt hhalt
    refine (eval?_of_halt hs hlower hhalt).resolve_left ?_
    rintro ⟨bound, houtcome⟩
    exact hroom fuel halt bound hhalt houtcome
  refine ⟨table, hs, ⟨?_, ?_⟩, ?_⟩
  · rintro ⟨fuel, halt, hhalt⟩
    obtain ⟨fuel', result, heval, -⟩ := hevaluated fuel halt hhalt
    exact ⟨fuel', result, heval⟩
  · rintro ⟨fuel, result, heval⟩
    exact exists_halt_of_eval? hs hlower (.new input sink limit) heval
  · intro fuel fuel' halt result hhalt heval
    obtain ⟨_, result', heval', hcloses⟩ := hevaluated fuel halt hhalt
    obtain rfl := Stmt.evalAll?_unique heval heval'
    exact hcloses.agrees ((World.stable_flushError.eval? fuel').2 program _ _ heval hflush)

/-- `int x; while (x < 2) x = x + 1; write x;` -/
def counting : Program :=
  [.declare ⟨"int", .unknown⟩ ["x"] .unknown,
    .whileLoop (.binary .lt (.var "x" .unknown) (.int 2 .unknown) .unknown)
      (.expr (.assign "x" (.binary .add (.var "x" .unknown) (.int 1 .unknown) .unknown) .unknown) .unknown) .unknown,
    .write [.var "x" .unknown] (by decide) .unknown]

theorem compile_correct_counting :
    ∃ code table halt result, counting.compile = .ok code ∧ counting.symbols = .ok table ∧
      (Machine.new [] .unbounded 2).run? 40 code.instructions = some halt ∧ halt.outcome = .ok () ∧
      counting.eval? table.typeOf 10 (.new [] .unbounded) = some result ∧ halt.Agrees result := by
  obtain ⟨code, hcode, halt, hhalt, houtcome⟩ : ∃ code, counting.compile = .ok code ∧
      ∃ halt, (Machine.new [] .unbounded 2).run? 40 code.instructions = some halt ∧ halt.outcome = .ok () :=
    ⟨_, rfl, _, rfl, rfl⟩
  have hroom : ∀ fuel halt bound, (Machine.new [] .unbounded 2).run? fuel code.instructions = some halt →
      halt.outcome ≠ .error (.stackOverflow bound) := by
    intro fuel halt' bound hhalt'
    rw [Machine.run?_unique hhalt' hhalt, houtcome]
    exact nofun
  obtain ⟨table, hs, -, hagrees⟩ := compile_correct hcode [] .unbounded 2 rfl hroom
  obtain ⟨result, heval⟩ : ∃ result, counting.eval? table.typeOf 10 (.new [] .unbounded) = some result := by
    cases hs
    exact ⟨_, rfl⟩
  exact ⟨code, table, halt, result, hcode, hs, hhalt, houtcome, heval, hagrees 40 10 halt result hhalt heval⟩

end Program

end StackMachine
