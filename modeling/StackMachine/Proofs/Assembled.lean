import StackMachine.Proofs.RoundTrip
import StackMachine.Proofs.Runs

/-! What assembled code cannot end with.

Only well-formed instructions are assembled. They have all that linking and decoding ask for, but a literal is looked at
no closer before it is pushed. Main statement: `Code.faults_of_assemble`. -/

namespace StackMachine

namespace Instruction.WellFormed

variable {i : Instruction} {target : Option Nat} {fault : Fault}

theorem exists_kind (h : i.WellFormed) (hkinds : i.opcode.kinds ≠ []) : ∃ kind ∈ i.opcode.kinds, i.kind = some kind := by
  have htakes := h.takes
  cases hkind : i.kind with
  | none =>
    rw [hkind] at htakes
    exact absurd htakes hkinds
  | some kind =>
    rw [hkind] at htakes
    exact ⟨kind, htakes, rfl⟩

theorem exists_operand (h : i.WellFormed) (hshape : i.opcode.shape ≠ .absent) : ∃ operand, i.operand = some operand := by
  have hadmits := h.admits
  cases hop : i.opcode.shape with
  | absent => exact absurd hop hshape
  | literal | «variable» | label | count =>
    rw [hop] at hadmits
    obtain ⟨operand, hoperand, -⟩ := hadmits
    exact ⟨operand, hoperand⟩

theorem needKind_ok (h : i.WellFormed) (hkinds : i.opcode.kinds ≠ []) : ∃ kind, i.needKind = .ok kind := by
  obtain ⟨kind, -, hkind⟩ := h.exists_kind hkinds
  exact ⟨kind, by rw [needKind, hkind]⟩

theorem needNumeric_ok (h : i.WellFormed) (hkinds : i.opcode.kinds = Kind.numeric) :
    ∃ numeric, i.needNumeric = .ok numeric := by
  obtain ⟨kind, hmem, hkind⟩ := h.exists_kind (by rw [hkinds]; decide)
  have hneed : i.needKind = .ok kind := by rw [needKind, hkind]
  rw [hkinds] at hmem
  rw [needNumeric, Except.bind_ok hneed]
  cases kind with
  | int => exact ⟨.int, rfl⟩
  | float => exact ⟨.float, rfl⟩
  | string | bool => exact absurd hmem (by decide)

theorem needOperand_ok (h : i.WellFormed) (hshape : i.opcode.shape ≠ .absent) :
    ∃ operand, i.needOperand = .ok operand := by
  obtain ⟨operand, hoperand⟩ := h.exists_operand hshape
  exact ⟨operand, by rw [needOperand, hoperand]⟩

theorem named (h : i.WellFormed) : i.Named := by
  rintro hop
  have hshape : i.opcode.shape ≠ .absent := by
    rcases hop with hop | hop
    · rw [hop]
      decide
    · cases hopcode : i.opcode <;> rw [hopcode] at hop <;> cases hop <;> decide
  obtain ⟨operand, hoperand⟩ := h.exists_operand hshape
  rw [hoperand]
  rfl

/-- Decoding a well-formed instruction can fail only at the literal of a `push`. -/
theorem decode_eq_error (h : i.WellFormed) (htarget : target.isSome = i.opcode.isJump)
    (hd : i.decode target = .error fault) :
    ∃ kind literal, i = .push kind literal ∧ fault = .invalidLiteral kind literal := by
  unfold decode at hd
  cases hop : i.opcode with
  | add | sub | mul | div | uminus | gt | lt | ge | le =>
    obtain ⟨numeric, hnumeric⟩ := h.needNumeric_ok (by rw [hop]; rfl)
    rw [hop] at hd
    cases (Except.bind_ok hnumeric).symm.trans hd
  | eq | read =>
    obtain ⟨kind, hkind⟩ := h.needKind_ok (by rw [hop]; decide)
    rw [hop] at hd
    cases (Except.bind_ok hkind).symm.trans hd
  | push =>
    obtain ⟨kind, hkind⟩ := h.needKind_ok (by rw [hop]; decide)
    obtain ⟨literal, hliteral⟩ := h.needOperand_ok (by rw [hop]; decide)
    rw [hop] at hd
    have hd := (Except.bind_ok hkind).symm.trans hd
    have hd := (Except.bind_ok hliteral).symm.trans hd
    split at hd <;> cases hd
    exact ⟨kind, literal, by rw [push, ← needKind_eq_ok hkind, ← needOperand_eq_ok hliteral, ← hop], rfl⟩
  | load | save =>
    obtain ⟨kind, hkind⟩ := h.needKind_ok (by rw [hop]; decide)
    obtain ⟨name, hname⟩ := h.needOperand_ok (by rw [hop]; decide)
    rw [hop] at hd
    have hd := (Except.bind_ok hkind).symm.trans hd
    cases (Except.bind_ok hname).symm.trans hd
  | jmp | fjmp =>
    rw [hop] at hd htarget
    obtain ⟨index, rfl⟩ := Option.isSome_iff_exists.mp htarget
    cases hd
  | print =>
    have hadmits := h.admits
    rw [hop] at hd hadmits
    obtain ⟨numeral, hnumeral, -, hcount⟩ := hadmits
    obtain ⟨count, hcount⟩ := Option.isSome_iff_exists.mp hcount
    have hneed : i.needOperand = .ok numeral := by rw [needOperand, hnumeral]
    have hd := (Except.bind_ok hneed).symm.trans hd
    rw [hcount] at hd
    cases hd
  | mod | concat | and | or | not | itof | pop | label =>
    rw [hop] at hd
    cases hd

end Instruction.WellFormed

/-! ### Labels -/

namespace Labels

variable {labels : Labels} {instructions : List Instruction} {index : Nat} {fault : Fault}

theorem collect_eq_error (named : ∀ i ∈ instructions, i.Named) (h : collect labels index instructions = .error fault) :
    ∃ name first second, fault = .duplicateLabel name first second := by
  induction instructions generalizing labels index with
  | nil => cases h
  | cons i rest ih =>
    obtain ⟨hi, hrest⟩ := List.forall_mem_cons.mp named
    rw [collect] at h
    split at h
    · rename_i hlabel
      split at h
      · rename_i hnone
        have hsome := hi (.inl hlabel)
        rw [hnone] at hsome
        cases hsome
      · split at h
        · cases h
          exact ⟨_, _, _, rfl⟩
        · exact ih hrest h
    · exact ih hrest h

theorem targets_eq_error (named : ∀ i ∈ instructions, i.Named) (h : labels.targets instructions = .error fault) :
    ∃ name, fault = .undefinedLabel name := by
  induction instructions with
  | nil => cases h
  | cons i rest ih =>
    obtain ⟨hi, hrest⟩ := List.forall_mem_cons.mp named
    rcases Except.bind_eq_error.mp h with h | ⟨target, -, h⟩
    · unfold target at h
      split at h
      · rename_i hjump
        split at h
        · rename_i hnone
          have hsome := hi (.inr hjump)
          rw [hnone] at hsome
          cases hsome
        · split at h <;> cases h
          exact ⟨_, rfl⟩
      · cases h
    · rcases Except.bind_eq_error.mp h with h | ⟨others, -, h⟩
      · exact ih hrest h
      · cases h

end Labels

/-- Named labels and jumps can fail to link only for want or excess of a label. -/
theorem Image.link_eq_error {instructions : List Instruction} {fault : Fault} (named : ∀ i ∈ instructions, i.Named)
    (h : link instructions = .error fault) :
    (∃ name, fault = .undefinedLabel name) ∨ ∃ name first second, fault = .duplicateLabel name first second := by
  rcases Except.bind_eq_error.mp h with h | ⟨table, -, h⟩
  · rcases Except.bind_eq_error.mp h with h | ⟨labels, -, h⟩
    · exact .inr (Labels.collect_eq_error named h)
    · exact .inl (Labels.targets_eq_error named h)
  · cases h

namespace Code

variable {source : String} {code : Code} {m : Machine} {fuel : Nat} {halt : Halt} {fault : Fault}

/-- The faults of assembled code. None is about an operand that is missing or the count of a `print`. A `push` may have a
literal that is no value, and a string may be all that an `fjmp` has to decide on. -/
theorem faults_of_assemble (h : assemble source = .ok code) (hrun : m.run? fuel code.instructions = some halt)
    (hfault : halt.outcome = .error fault) :
    (∀ opcode, fault ≠ .missingOperand opcode) ∧ (∀ literal, fault ≠ .invalidCount literal) ∧
      (∀ opcode operand, fault = .unsupportedOperand opcode operand → opcode = .fjmp ∧ operand = .string ∧
        ∃ j m' i s rest, m.FaultsAt code.instructions j m' fault ∧ code.instructions[j]? = some i ∧ i.opcode = .fjmp ∧
          m'.stack.values = .string s :: rest) ∧
      ∀ kind literal, fault = .invalidLiteral kind literal →
        ∃ j m', m.FaultsAt code.instructions j m' fault ∧ code.instructions[j]? = some (.push kind literal) := by
  have hwell := wellFormed_of_assemble h
  rcases Machine.fault_cases hrun hfault with hlink | ⟨e, rfl⟩ | ⟨j, m', hfaults⟩
  · rcases Image.link_eq_error (fun i hi => (hwell i hi).named) hlink with ⟨name, rfl⟩ | ⟨name, first, second, rfl⟩
    all_goals exact ⟨nofun, nofun, nofun, nofun⟩
  · exact ⟨nofun, nofun, nofun, nofun⟩
  · obtain ⟨i, n, -, hi, target, hresolves, hraises⟩ := hfaults.raises
    rcases hraises with hdecode | ⟨operation, hdecode, hraises⟩
    · have hwelli := hwell i (List.mem_of_getElem? hi)
      obtain ⟨kind, literal, rfl, rfl⟩ := hwelli.decode_eq_error hresolves.1 hdecode
      refine ⟨nofun, nofun, nofun, ?_⟩
      rintro _ _ ⟨⟩
      exact ⟨j, m', hfaults, hi⟩
    · cases hraises with
      | @unsupportedOperand index s rest htop =>
        refine ⟨nofun, nofun, ?_, nofun⟩
        rintro _ _ ⟨⟩
        exact ⟨rfl, rfl, j, m', i, s, rest, hfaults, hi, (Instruction.opcode_of_decode hdecode).symm, htop⟩
      | _ => exact ⟨nofun, nofun, nofun, nofun⟩

theorem faults_of_assemble_condition :
    ∃ code halt, assemble "push s \"no\"\nfjmp end\nlabel end" = .ok code ∧
      (Machine.new [] .unbounded 1).run? 2 code.instructions = some halt ∧
      halt.outcome = .error (.unsupportedOperand .fjmp .string) ∧
      ∃ j m' i s rest,
        (Machine.new [] .unbounded 1).FaultsAt code.instructions j m' (.unsupportedOperand .fjmp .string) ∧
        code.instructions[j]? = some i ∧ i.opcode = .fjmp ∧ m'.stack.values = .string s :: rest := by
  obtain ⟨code, hcode, halt, hrun, houtcome⟩ : ∃ code, assemble "push s \"no\"\nfjmp end\nlabel end" = .ok code ∧
      ∃ halt, (Machine.new [] .unbounded 1).run? 2 code.instructions = some halt ∧
        halt.outcome = .error (.unsupportedOperand .fjmp .string) :=
    ⟨_, rfl, _, rfl, rfl⟩
  exact ⟨code, halt, hcode, hrun, houtcome, ((faults_of_assemble hcode hrun houtcome).2.2.1 _ _ rfl).2.2⟩

end Code

end StackMachine
