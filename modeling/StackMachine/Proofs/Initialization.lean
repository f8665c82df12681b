import StackMachine.Proofs.Runs
import StackMachine.Proofs.TypeSoundness

/-! Loads and the saves before them.

A variable is in the store only if an instruction executed earlier saved it, and a load that does not find its variable
ends the run. In compiled code that happens only to a variable whose declaration lies inside a branch or the body of a
loop, where the code that gives it its first value may be passed over. Main statement: `Program.saved_before_load`. -/

namespace StackMachine

namespace Machine

variable {m m' : Machine} {instructions : List Instruction} {n j : Nat} {kind : Kind} {name : String}

/-- What is in the store was saved earlier in the run. -/
theorem Reaches.exists_save (h : m.Reaches instructions n j m') (hdefined : (m'.world.store.get? name).isSome) :
    ∃ n' < n, ∃ k m₁ kind, m.Reaches instructions n' k m₁ ∧ instructions[k]? = some (.save kind name) := by
  induction n generalizing j m' with
  | zero =>
    obtain ⟨-, rfl⟩ := h.zero
    cases hdefined
  | succ n ih =>
    obtain ⟨k, m₁, i, hreaches, hi, hmoves⟩ := h.last
    rcases (hmoves.defined name).mp hdefined with ⟨kind, rfl⟩ | hdefined
    · exact ⟨n, Nat.lt_succ_self n, k, m₁, kind, hreaches, hi⟩
    · obtain ⟨n', hn', hsave⟩ := ih hreaches hdefined
      exact ⟨n', Nat.lt_succ_of_lt hn', hsave⟩

/-- A load that does not find its variable ends the run. -/
theorem Reaches.run?_of_undefined (h : m.Reaches instructions n j m') (hi : instructions[j]? = some (.load kind name))
    (hundefined : m'.world.store.get? name = none) :
    ∃ fuel halt, m.run? fuel instructions = some halt ∧ halt.outcome = .error (.undefinedVariable name) := by
  obtain ⟨image, hlink, hleads⟩ := h
  obtain ⟨labels, hholds, -⟩ := Image.link_holds hlink
  obtain ⟨target, -, hop⟩ := (hholds j _ hi).1
  rw [Nat.zero_add] at hop
  have hfetch : World.fetch name m'.world = .error (.undefinedVariable name) m'.world := by rw [World.fetch, hundefined]
  have hperform : Exec.perform (.load kind name) m' = .error (.undefinedVariable name) m' :=
    Action.bind_error (by rw [Exec.act, hfetch])
  have hstep : image.step j m' = .faulted (.undefinedVariable name) m' := Image.step_faulted hop hperform
  refine ⟨n + 1, m'.abort (.undefinedVariable name), ?_, rfl⟩
  rw [run?, hlink]
  dsimp only
  rw [hleads.run?_add, Image.run?_of_faulted hstep]

end Machine

namespace Program

variable {program : Program} {code : Code} {m : Machine}

theorem guarded_of_undefined (h : program.compile = .ok code) {fuel : Nat} {halt : Halt} {name : String}
    (hrun : m.run? fuel code.instructions = some halt) (hundefined : halt.outcome = .error (.undefinedVariable name)) :
    ∃ d ∈ program.guardedDeclarations, name ∈ d.names := by
  obtain ⟨table, hs, hlower⟩ := compile_eq_ok h
  rcases eval?_of_halt hs hlower hrun with ⟨bound, hfull⟩ | ⟨fuel', result, heval, hcloses⟩
  · rw [hfull] at hundefined
    cases hundefined
  · cases result with
    | ok u w =>
      obtain rfl := hcloses
      obtain ⟨e, he⟩ := Machine.fault_of_finish hundefined
      cases he
    | error fault w =>
      obtain ⟨m', -, rfl⟩ := hcloses
      cases hundefined
      exact mayFault_of_eval? hs hlower heval

/-- In compiled code, whenever a load is about to be executed, its variable was saved earlier in the run, unless the
variable is declared inside a branch or the body of a loop. Only then can a run find it undefined. -/
theorem saved_before_load (h : program.compile = .ok code) (m : Machine) :
    (∀ n j m' kind name, m.Reaches code.instructions n j m' → code.instructions[j]? = some (.load kind name) →
      (∃ n' < n, ∃ k m₁ kind', m.Reaches code.instructions n' k m₁ ∧
        code.instructions[k]? = some (.save kind' name)) ∨
      ∃ d ∈ program.guardedDeclarations, name ∈ d.names) ∧
    ∀ fuel halt name, m.run? fuel code.instructions = some halt → halt.outcome = .error (.undefinedVariable name) →
      ∃ d ∈ program.guardedDeclarations, name ∈ d.names := by
  refine ⟨fun n j m' kind name hreaches hi => ?_, fun fuel halt name => guarded_of_undefined h⟩
  cases hget : m'.world.store.get? name with
  | some v => exact .inl (hreaches.exists_save (by rw [hget]; rfl))
  | none =>
    obtain ⟨fuel, halt, hrun, hundefined⟩ := hreaches.run?_of_undefined hi hget
    exact .inr (guarded_of_undefined h hrun hundefined)

/-- `int x; write x;` -/
def declared : Program :=
  [.declare ⟨"int", .unknown⟩ ["x"] .unknown, .writing (.var "x" .unknown)]

theorem saved_before_load_declared :
    ∃ code m', declared.compile = .ok code ∧ (Machine.new [] .unbounded 1).Reaches code.instructions 2 2 m' ∧
      code.instructions[2]? = some (.load .int "x") ∧
      ∃ n' < 2, ∃ k m₁ kind, (Machine.new [] .unbounded 1).Reaches code.instructions n' k m₁ ∧
        code.instructions[k]? = some (.save kind "x") := by
  obtain ⟨code, hcode, m', hreaches, hload⟩ : ∃ code, declared.compile = .ok code ∧
      ∃ m', (Machine.new [] .unbounded 1).Reaches code.instructions 2 2 m' ∧
        code.instructions[2]? = some (.load .int "x") :=
    ⟨_, rfl, _, ⟨_, rfl, .step rfl (.step rfl (.refl _ _))⟩, rfl⟩
  refine ⟨code, m', hcode, hreaches, hload, ?_⟩
  rcases (saved_before_load hcode _).1 2 2 m' .int "x" hreaches hload with hsave | ⟨d, hd, -⟩
  · exact hsave
  · cases hd

/-- `if (false) int x; write x;` -/
def untaken : Program :=
  [.ifElse (.bool false .unknown) (.declare ⟨"int", .unknown⟩ ["x"] .unknown) (.empty .unknown) .unknown,
    .writing (.var "x" .unknown)]

/-- Compiled code may load a variable that was never saved. -/
theorem not_always_saved_before_load :
    ¬ ∀ (program : Program) code (m : Machine) fuel halt name, program.compile = .ok code →
      m.run? fuel code.instructions = some halt → halt.outcome ≠ .error (.undefinedVariable name) := by
  intro halways
  exact halways untaken _ (Machine.new [] .unbounded defaultLimit) 5 _ "x" rfl rfl rfl

end Program

end StackMachine
