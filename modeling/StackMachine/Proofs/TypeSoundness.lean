import StackMachine.Proofs.Agreement
import StackMachine.Proofs.Compilation
import StackMachine.Proofs.Definedness

/-! What can go wrong in a run of compiled code.

Compiled code links, and its runs end as evaluation does, unless the stack is full. Evaluation keeps types, so no fault is
about them, and it finds undefined only what a guarded declaration was to define. Main statement:
`Program.type_soundness`. -/

namespace StackMachine

namespace Program

variable {program : Program} {table : SymbolTable} {code : Code}

/-- The faults that the code of a program may end with. A variable can be undefined only if a declaration that names it
lies inside a branch or the body of a loop. -/
def MayFault (program : Program) : Fault → Prop
  | .stackOverflow _ | .divisionByZero | .invalidInput _ _ | .endOfInput | .io _ => True
  | .undefinedVariable name => ∃ d ∈ program.guardedDeclarations, name ∈ d.names
  | .stackUnderflow _ | .typeMismatch _ _ _ | .unsupportedOperand _ _ | .invalidLiteral _ _ | .invalidCount _
  | .missingOperand _ | .undefinedLabel _ | .duplicateLabel _ _ _ => False

theorem mayFault_of_eval? (hs : program.symbols = .ok table) (h : program.lower table.typeOf = .ok code) {input : Input}
    {sink : Sink} {fuel : Nat} {fault : Fault} {w : World}
    (heval : program.eval? table.typeOf fuel (.new input sink) = some (.error fault w)) : program.MayFault fault := by
  have hchecked : Stmt.checkAll program .empty = (table, []) := check_of_symbols hs
  have hsound : fault.OfEvaluation :=
    (Stmt.sound_eval? fuel).2 program _ _ (wellTyped_of_symbols hs) (Store.Typed.empty table) heval
  have hfile : ∀ d ∈ program.declarations, d.isFile = false := by
    intro d hd
    have hstops := stopsAt_lower hs
    cases hfirst : program.declarations.find? Declaration.isFile with
    | none => simpa using List.find?_eq_none.mp hfirst d hd
    | some d =>
      rw [hfirst, h] at hstops
      cases hstops
  have hcovers : (World.new input sink).Covers program.guardedDeclarations .empty := nofun
  have hexplained : fault.Explained program.guardedDeclarations :=
    (Stmt.defined_eval? fuel).2 program .empty _ _ (congrArg Prod.snd hchecked) hfile (List.Subset.refl _) hcovers heval
  cases fault with
  | undefinedVariable name => exact hexplained
  | divisionByZero | invalidInput | endOfInput | io => trivial
  | _ => cases hsound

/-- Type soundness: no run of compiled code, on whatever machine and however long, ends with a fault about labels,
operands, the kinds of values or a value missing from the stack. -/
theorem type_soundness (h : program.compile = .ok code) {m : Machine} {fuel : Nat} {halt : Halt} {fault : Fault}
    (hrun : m.run? fuel code.instructions = some halt) (hfault : halt.outcome = .error fault) :
    program.MayFault fault := by
  obtain ⟨table, hs, hlower⟩ := compile_eq_ok h
  rcases eval?_of_halt hs hlower hrun with ⟨bound, hfull⟩ | ⟨fuel', result, heval, hcloses⟩
  · rw [hfull] at hfault
    cases hfault
    trivial
  · cases result with
    | ok u w =>
      obtain rfl := hcloses
      obtain ⟨e, rfl⟩ := Machine.fault_of_finish hfault
      trivial
    | error fault' w =>
      obtain ⟨m', -, rfl⟩ := hcloses
      cases hfault
      exact mayFault_of_eval? hs hlower heval

/-- `int n; if (n > 0) int x; write x;` -/
def skipping : Program :=
  [.declare ⟨"int", .unknown⟩ ["n"] .unknown,
    .ifElse (.binary .gt (.var "n" .unknown) (.int 0 .unknown) .unknown) (.declare ⟨"int", .unknown⟩ ["x"] .unknown)
      (.empty .unknown) .unknown,
    .writing (.var "x" .unknown)]

theorem type_soundness_skipping :
    ∃ code halt, skipping.compile = .ok code ∧ (Machine.new [] .unbounded 2).run? 20 code.instructions = some halt ∧
      halt.outcome = .error (.undefinedVariable "x") ∧ ∃ d ∈ skipping.guardedDeclarations, "x" ∈ d.names := by
  obtain ⟨code, hcode, halt, hhalt, houtcome⟩ : ∃ code, skipping.compile = .ok code ∧
      ∃ halt, (Machine.new [] .unbounded 2).run? 20 code.instructions = some halt ∧
        halt.outcome = .error (.undefinedVariable "x") :=
    ⟨_, rfl, _, rfl, rfl⟩
  exact ⟨code, halt, hcode, hhalt, houtcome, type_soundness hcode hhalt houtcome⟩

end Program

end StackMachine
