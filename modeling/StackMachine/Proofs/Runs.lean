import StackMachine.Proofs.Effects
import StackMachine.Proofs.Linking
import StackMachine.Proofs.Steps

/-! What a run of instructions does step by step.

The effect of an operation is read as one of the instruction (`Instruction.Moves`), and so are its faults
(`Instruction.Raises`). A run is then told by the instructions that it comes to (`Machine.Reaches`), and what is proved of
it says nothing of images. -/

namespace StackMachine

/-! ### Instructions and their operations -/

/-- The faults of an instruction that cannot be decoded. -/
def Fault.OfDecoding : Fault → Prop
  | .missingOperand _ | .unsupportedOperand _ _ | .invalidLiteral _ _ | .invalidCount _ => True
  | _ => False

namespace Instruction

/-- How many values an instruction takes off the stack. -/
def pops (i : Instruction) : Nat :=
  if i.opcode = .print then (i.operand.bind fun count => Text.count? count.toList).getD 0 else i.opcode.pops

/-- How many values an instruction puts on the stack. -/
def pushes (i : Instruction) : Nat :=
  i.opcode.pushes

theorem needKind_eq_ok {i : Instruction} {kind : Kind} (h : i.needKind = .ok kind) : i.kind = some kind := by
  unfold needKind at h
  split at h <;> cases h
  assumption

theorem needOperand_eq_ok {i : Instruction} {operand : String} (h : i.needOperand = .ok operand) :
    i.operand = some operand := by
  unfold needOperand at h
  split at h <;> cases h
  assumption

section

variable {i : Instruction} {target : Option Nat} {operation : Operation} (h : i.decode target = .ok operation)

include h

theorem opcode_of_decode : operation.opcode = i.opcode := by
  unfold decode at h
  cases hop : i.opcode with
  | push =>
    rw [hop] at h
    obtain ⟨_, -, h⟩ := Except.bind_eq_ok.mp h
    obtain ⟨_, -, h⟩ := Except.bind_eq_ok.mp h
    split at h <;> cases h
    rfl
  | print =>
    rw [hop] at h
    obtain ⟨_, -, h⟩ := Except.bind_eq_ok.mp h
    split at h <;> cases h
    rfl
  | load | save =>
    rw [hop] at h
    obtain ⟨_, -, h⟩ := Except.bind_eq_ok.mp h
    obtain ⟨_, -, h⟩ := Except.bind_eq_ok.mp h
    cases h
    rfl
  | add | sub | mul | div | uminus | gt | lt | ge | le | eq | read =>
    rw [hop] at h
    obtain ⟨_, -, h⟩ := Except.bind_eq_ok.mp h
    cases h
    rfl
  | mod | concat | and | or | not | itof | pop | label =>
    rw [hop] at h
    cases h
    rfl
  | jmp | fjmp =>
    rw [hop] at h
    cases target <;> cases h
    rfl

theorem pops_of_decode : operation.pops = i.pops := by
  have hopcode := opcode_of_decode h
  unfold pops
  split
  · rename_i hprint
    unfold decode at h
    rw [hprint] at h
    obtain ⟨literal, hliteral, h⟩ := Except.bind_eq_ok.mp h
    split at h
    · rename_i count hcount
      cases h
      rw [needOperand_eq_ok hliteral, Option.bind_some, hcount]
      rfl
    · cases h
  · rename_i hprint
    rw [← hopcode] at hprint ⊢
    cases operation with
    | print => exact absurd rfl hprint
    | _ => rfl

theorem pushes_of_decode : operation.pushes = i.pushes := by
  rw [pushes, ← opcode_of_decode h]
  rfl

theorem eq_save_of_decode {name : String} (hsaves : operation.saves? = some name) : ∃ kind, i = .save kind name := by
  have hopcode := opcode_of_decode h
  cases operation with
  | save kind other =>
    cases hsaves
    unfold decode at h
    rw [← hopcode] at h
    obtain ⟨kind', hkind, h⟩ := Except.bind_eq_ok.mp h
    obtain ⟨name', hname, h⟩ := Except.bind_eq_ok.mp h
    cases h
    have hsave : Opcode.save = i.opcode := hopcode
    exact ⟨kind, by rw [save, ← needKind_eq_ok hkind, ← needOperand_eq_ok hname, hsave]⟩
  | _ => cases hsaves

theorem target_of_decode {index : Nat} (htarget : operation.target? = some index) : target = some index := by
  have hopcode := opcode_of_decode h
  cases operation with
  | jump | branch =>
    cases htarget
    unfold decode at h
    rw [← hopcode] at h
    cases target <;> cases h
    rfl
  | _ => cases htarget

end

section

variable {i : Instruction} {target : Option Nat} {fault : Fault}

theorem ofDecoding_of_needKind (h : i.needKind = .error fault) : fault.OfDecoding := by
  unfold needKind at h
  split at h <;> cases h
  trivial

theorem ofDecoding_of_needOperand (h : i.needOperand = .error fault) : fault.OfDecoding := by
  unfold needOperand at h
  split at h <;> cases h
  trivial

theorem ofDecoding_of_needNumeric (h : i.needNumeric = .error fault) : fault.OfDecoding := by
  rcases Except.bind_eq_error.mp h with h | ⟨kind, -, h⟩
  · exact ofDecoding_of_needKind h
  · split at h <;> cases h
    trivial

theorem ofDecoding_of_decode (h : i.decode target = .error fault) : fault.OfDecoding := by
  unfold decode at h
  cases hop : i.opcode with
  | add | sub | mul | div | uminus | gt | lt | ge | le =>
    rw [hop] at h
    rcases Except.bind_eq_error.mp h with h | ⟨numeric, -, h⟩
    · exact ofDecoding_of_needNumeric h
    · cases h
  | eq | read =>
    rw [hop] at h
    rcases Except.bind_eq_error.mp h with h | ⟨kind, -, h⟩
    · exact ofDecoding_of_needKind h
    · cases h
  | push =>
    rw [hop] at h
    rcases Except.bind_eq_error.mp h with h | ⟨kind, -, h⟩
    · exact ofDecoding_of_needKind h
    · rcases Except.bind_eq_error.mp h with h | ⟨literal, -, h⟩
      · exact ofDecoding_of_needOperand h
      · split at h <;> cases h
        trivial
  | load | save =>
    rw [hop] at h
    rcases Except.bind_eq_error.mp h with h | ⟨kind, -, h⟩
    · exact ofDecoding_of_needKind h
    · rcases Except.bind_eq_error.mp h with h | ⟨name, -, h⟩
      · exact ofDecoding_of_needOperand h
      · cases h
  | print =>
    rw [hop] at h
    rcases Except.bind_eq_error.mp h with h | ⟨operand, -, h⟩
    · exact ofDecoding_of_needOperand h
    · split at h <;> cases h
      trivial
  | jmp | fjmp =>
    rw [hop] at h
    cases target <;> cases h
    trivial
  | mod | concat | and | or | not | itof | pop | label =>
    rw [hop] at h
    cases h

end

/-- What an instruction does to the machine when it is executed: `m` at index `j` becomes `m'` at index `k`. -/
structure Moves (instructions : List Instruction) (i : Instruction) (j : Nat) (m : Machine) (k : Nat) (m' : Machine) :
    Prop where
  enough : i.pops ≤ m.stack.size
  size_eq : m'.stack.size = m.stack.size - i.pops + i.pushes
  limit_eq : m'.limit = m.limit
  defined : ∀ name, (m'.world.store.get? name).isSome ↔ (∃ kind, i = .save kind name) ∨ (m.world.store.get? name).isSome
  index : k = j + 1 ∨ i.opcode.isJump ∧ ∃ label, instructions[k]? = some label ∧ label.opcode = .label

/-- The faults that an instruction may end with: it cannot be decoded, or its operation faults. -/
def Raises (instructions : List Instruction) (i : Instruction) (m : Machine) (fault : Fault) : Prop :=
  ∃ target, i.Resolves instructions target ∧
    (i.decode target = .error fault ∨ ∃ operation, i.decode target = .ok operation ∧ operation.Raises m fault)

end Instruction

/-! ### Steps and runs -/

namespace Image

variable {image : Image} {instructions : List Instruction} {j k : Nat} {m m' : Machine} {fault : Fault}
  (hlink : link instructions = .ok image)

include hlink

theorem moves_of_step (h : image.step j m = .running k m') :
    ∃ i, instructions[j]? = some i ∧ i.Moves instructions j m k m' := by
  unfold step at h
  split at h
  · cases h
  · cases h
  · rename_i operation hop
    obtain ⟨i, target, hi, hresolves, hdecode⟩ := exists_of_operation hlink hop
    have heffect : ∃ flow, operation.Effect m flow m' ∧ (flow = .next ∧ k = j + 1 ∨ flow = .goto k) := by
      split at h
      · rename_i hp
        cases h
        exact ⟨_, Exec.perform_eq_ok hp, .inl ⟨rfl, rfl⟩⟩
      · rename_i hp
        cases h
        exact ⟨_, Exec.perform_eq_ok hp, .inr rfl⟩
      · cases h
    obtain ⟨flow, heffect, hflow⟩ := heffect
    have hpops := Instruction.pops_of_decode hdecode
    have hpushes := Instruction.pushes_of_decode hdecode
    refine ⟨i, hi, hpops ▸ heffect.enough, hpops ▸ hpushes ▸ heffect.size_eq, heffect.limit_eq, fun name => ?_, ?_⟩
    · rw [heffect.defined]
      refine or_congr_left ⟨Instruction.eq_save_of_decode hdecode, ?_⟩
      rintro ⟨kind, rfl⟩
      cases hdecode
      rfl
    · rcases hflow with ⟨-, hk⟩ | rfl
      · exact .inl hk
      · rcases heffect.flow with hnext | ⟨index, htarget, hgoto⟩
        · cases hnext
        · cases hgoto
          obtain rfl := Instruction.target_of_decode hdecode htarget
          exact .inr ⟨hresolves.1.symm, hresolves.2 k rfl⟩

theorem raises_of_step (h : image.step j m = .faulted fault m') :
    ∃ i, instructions[j]? = some i ∧ i.Raises instructions m fault := by
  unfold step at h
  split at h
  · cases h
  · rename_i hop
    cases h
    obtain ⟨i, target, hi, hresolves, hdecode⟩ := exists_of_operation hlink hop
    exact ⟨i, hi, target, hresolves, .inl hdecode⟩
  · rename_i operation hop
    obtain ⟨i, target, hi, hresolves, hdecode⟩ := exists_of_operation hlink hop
    split at h
    · cases h
    · cases h
    · rename_i hp
      cases h
      exact ⟨i, hi, target, hresolves, .inr ⟨operation, hdecode, Exec.perform_eq_error hp⟩⟩

theorem finished_of_step (h : image.step j m = .finished m') : instructions.length ≤ j ∧ m' = m := by
  obtain ⟨_, -, hsize⟩ := link_holds hlink
  unfold step at h
  split at h
  · rename_i hop
    cases h
    rw [← hsize]
    exact ⟨Array.getElem?_eq_none_iff.mp hop, rfl⟩
  · cases h
  · split at h <;> cases h

end Image

namespace Machine

variable {m m' : Machine} {instructions : List Instruction} {n j k fuel : Nat} {halt : Halt} {fault : Fault}

theorem Reaches.zero (h : m.Reaches instructions 0 j m') : j = 0 ∧ m' = m.reset := by
  obtain ⟨image, -, ⟨⟩⟩ := h
  exact ⟨rfl, rfl⟩

/-- The last step of a run so far. -/
theorem Reaches.last (h : m.Reaches instructions (n + 1) k m') :
    ∃ j m₁ i, m.Reaches instructions n j m₁ ∧ instructions[j]? = some i ∧ i.Moves instructions j m₁ k m' := by
  obtain ⟨image, hlink, hleads⟩ := h
  obtain ⟨j, m₁, hleads, hlast⟩ := hleads.last
  obtain ⟨i, hi, hmoves⟩ := Image.moves_of_step hlink hlast
  exact ⟨j, m₁, i, ⟨image, hlink, hleads⟩, hi, hmoves⟩

theorem FaultsAt.raises (h : m.FaultsAt instructions j m' fault) :
    ∃ i n, m.Reaches instructions n j m' ∧ instructions[j]? = some i ∧ i.Raises instructions m' fault := by
  obtain ⟨image, n, left, hlink, hleads, hstep⟩ := h
  obtain ⟨i, hi, hraises⟩ := Image.raises_of_step hlink hstep
  exact ⟨i, n, ⟨image, hlink, hleads⟩, hi, hraises⟩

/-- How a run of instructions ends: they do not link, or it comes to their end, or to an instruction that faults. -/
theorem run?_cases (h : m.run? fuel instructions = some halt) :
    (∃ fault, Image.link instructions = .error fault ∧ halt = ⟨.error fault, m.reset⟩) ∨
      (∃ n j m', m.Reaches instructions n j m' ∧ instructions.length ≤ j ∧ halt = m'.finish) ∨
      ∃ j m' fault, m.FaultsAt instructions j m' fault ∧ halt.outcome = .error fault := by
  unfold run? at h
  split at h
  · rename_i fault hlink
    exact .inl ⟨fault, hlink, (Option.some.inj h).symm⟩
  · rename_i image hlink
    obtain ⟨n, j, m', hleads, ⟨left, hstep, rfl⟩ | ⟨fault, left, hstep, rfl⟩⟩ := Image.exists_leads_of_run? h
    · obtain ⟨hend, rfl⟩ := Image.finished_of_step hlink hstep
      exact .inr (.inl ⟨n, j, left, ⟨image, hlink, hleads⟩, hend, rfl⟩)
    · exact .inr (.inr ⟨j, m', fault, ⟨image, n, left, hlink, hleads, hstep⟩, rfl⟩)

/-- Where the fault of a run comes from. -/
theorem fault_cases (h : m.run? fuel instructions = some halt) (hfault : halt.outcome = .error fault) :
    Image.link instructions = .error fault ∨ (∃ e, fault = .io e) ∨ ∃ j m', m.FaultsAt instructions j m' fault := by
  rcases run?_cases h with ⟨fault', hlink, rfl⟩ | ⟨n, j, m', -, -, rfl⟩ | ⟨j, m', fault', hfaults, houtcome⟩
  · cases hfault
    exact .inl hlink
  · exact .inr (.inl (fault_of_finish hfault))
  · rw [houtcome] at hfault
    cases hfault
    exact .inr (.inr ⟨j, m', hfaults⟩)

end Machine

end StackMachine
