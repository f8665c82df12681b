import StackMachine.Proofs.Actions
import StackMachine.Proofs.Tokens
import StackMachine.Code.Instruction

/-! Instructions and their text.

An instruction is well formed if its kind and its operand are ones that its opcode takes. Only such instructions are ever
read, and an operand is all that is left when the blanks around it are trimmed away. -/

namespace StackMachine

open Text

/-- A kind, or none, may stand behind an opcode. -/
def Opcode.Takes (opcode : Opcode) : Option Kind → Prop
  | none => opcode.kinds = []
  | some kind => kind ∈ opcode.kinds

/-- An operand, or none, is of a shape. -/
def Shape.Admits (shape : Shape) (operand : Option String) : Prop :=
  match shape with
  | .absent => operand = none
  | .literal => ∃ literal, operand = some literal ∧ Tight literal.toList
  | .variable | .label => ∃ name, operand = some name ∧ IsToken name.toList
  | .count => ∃ numeral, operand = some numeral ∧ IsToken numeral.toList ∧ (count? numeral.toList).isSome = true

structure Instruction.WellFormed (i : Instruction) : Prop where
  takes : i.opcode.Takes i.kind
  admits : i.opcode.shape.Admits i.operand

/-! ### Names -/

theorem Opcode.ofName?_name (opcode : Opcode) : Opcode.ofName? opcode.name = some opcode := by
  cases opcode <;> rfl

theorem Opcode.isToken_name (opcode : Opcode) : IsToken opcode.name.toList := by
  cases opcode <;> exact ⟨by decide, by decide⟩

theorem Opcode.name_of_ofName? {opcode : Opcode} {name : String} (h : Opcode.ofName? name = some opcode) :
    opcode.name = name := by
  simpa using List.find?_some h

theorem Kind.ofSuffix?_suffix (kind : Kind) : Kind.ofSuffix? kind.suffix = some kind := by
  cases kind <;> rfl

theorem Kind.suffix_of_ofSuffix? {kind : Kind} {suffix : String} (h : Kind.ofSuffix? suffix = some kind) :
    kind.suffix = suffix := by
  simpa using List.find?_some h

theorem Kind.isToken_suffix (kind : Kind) : IsToken kind.suffix.toList := by
  cases kind <;> exact ⟨by decide, by decide⟩

/-! ### What is written -/

theorem Shape.Admits.tight {shape : Shape} {operand : Option String} (h : shape.Admits operand) (text : String)
    (htext : operand = some text) : Tight text.toList := by
  subst htext
  cases shape with
  | absent => cases h
  | literal =>
    obtain ⟨_, ⟨⟩, h⟩ := h
    exact h
  | «variable» | label =>
    obtain ⟨_, ⟨⟩, h⟩ := h
    exact h.tight
  | count =>
    obtain ⟨_, ⟨⟩, h, -⟩ := h
    exact h.tight

namespace Instruction

variable {opcode : Opcode} {operand : Option String} {text : List Char}

/-- A part of an instruction behind the opcode, with the space before it. -/
def spaced (part : Option String) : List Char :=
  part.elim [] fun text => ' ' :: text.toList

theorem toList_text (i : Instruction) :
    i.text.toList = i.opcode.name.toList ++ (spaced (i.kind.map Kind.suffix) ++ spaced i.operand) := by
  obtain ⟨opcode, kind, operand⟩ := i
  cases kind <;> cases operand <;> simp [text, spaced]

theorem tight_append_spaced {part : Option String} (h : Tight text)
    (hpart : ∀ text, part = some text → Tight text.toList) : Tight (text ++ spaced part) := by
  cases part with
  | none => simpa [spaced] using h
  | some part => exact h.around [' '] (hpart part rfl)

theorem WellFormed.tight_text {i : Instruction} (h : i.WellFormed) : Tight i.text.toList := by
  have hkind : ∀ text, i.kind.map Kind.suffix = some text → Tight text.toList := by
    intro text htext
    obtain ⟨kind, -, rfl⟩ := Option.map_eq_some_iff.mp htext
    exact kind.isToken_suffix.tight
  rw [toList_text, ← List.append_assoc]
  exact tight_append_spaced (tight_append_spaced i.opcode.isToken_name.tight hkind) h.admits.tight

theorem newline_not_mem_text {i : Instruction} (h : ∀ text, i.operand = some text → '\n' ∉ text.toList) :
    '\n' ∉ i.text.toList := by
  obtain ⟨opcode, kind, operand⟩ := i
  have hname := opcode.isToken_name.newline_not_mem
  rw [toList_text]
  cases kind with
  | none => cases operand with
    | none => simpa [spaced] using hname
    | some text => simpa [spaced] using ⟨hname, h text rfl⟩
  | some kind =>
    have hsuffix := kind.isToken_suffix.newline_not_mem
    cases operand with
    | none => simpa [spaced] using ⟨hname, hsuffix⟩
    | some text => simpa [spaced] using ⟨hname, hsuffix, h text rfl⟩

/-! ### Operands -/

theorem parseOperand_token (h : IsToken text) : parseOperand.token opcode text = .ok (some (String.ofList text)) := by
  have hempty : text.isEmpty = false := by simpa using h.ne_nil
  simp [parseOperand.token, hempty, h.firstToken_eq, h.afterToken_eq, trim, trimStart, trimEnd]

theorem parseOperand_eq (h : opcode.shape.Admits operand) :
    parseOperand opcode (operand.elim [] String.toList) = .ok operand := by
  unfold parseOperand
  cases hshape : opcode.shape with
  | absent =>
    rw [hshape] at h
    obtain rfl : operand = none := h
    rfl
  | literal =>
    rw [hshape] at h
    obtain ⟨literal, rfl, htight⟩ := h
    have hempty : literal.toList.isEmpty = false := by simpa using htight.ne_nil
    simp [hempty]
  | «variable» | label =>
    rw [hshape] at h
    obtain ⟨name, rfl, htoken⟩ := h
    simpa using parseOperand_token htoken
  | count =>
    rw [hshape] at h
    obtain ⟨numeral, rfl, htoken, hcount⟩ := h
    show (parseOperand.token opcode numeral.toList >>= fun operand => _) = _
    rw [Except.bind_ok (parseOperand_token htoken), Option.elim_some, htoken.firstToken_eq, if_pos hcount,
      String.ofList_toList]
    rfl

/-- An operand that must be a token is a token, and all of the text. -/
theorem token_eq_ok (h : parseOperand.token opcode (trim text) = .ok operand) :
    IsToken (trim text) ∧ operand = some (String.ofList (trim text)) := by
  unfold parseOperand.token at h
  split at h
  · cases h
  · rename_i hempty
    have htight : Tight (trim text) := tight_trim (by simpa using hempty)
    dsimp only at h
    split at h
    · rename_i hextra
      cases h
      have htoken : IsToken (trim text) := htight.isToken (List.isEmpty_iff.mp hextra)
      exact ⟨htoken, by rw [htoken.firstToken_eq]⟩
    · cases h

/-- What is read as an operand is of the right shape, and all of the text. -/
theorem parseOperand_eq_ok (h : parseOperand opcode (trim text) = .ok operand) :
    opcode.shape.Admits operand ∧ operand.elim [] String.toList = trim text := by
  unfold parseOperand at h
  cases hshape : opcode.shape with
  | absent =>
    rw [hshape] at h
    dsimp only at h
    split at h
    · rename_i hempty
      cases h
      exact ⟨rfl, (List.isEmpty_iff.mp hempty).symm⟩
    · cases h
  | literal =>
    rw [hshape] at h
    dsimp only at h
    split at h
    · cases h
    · rename_i hempty
      cases h
      have htight : Tight (trim text) := tight_trim (by simpa using hempty)
      exact ⟨⟨_, rfl, by rwa [String.toList_ofList]⟩, String.toList_ofList⟩
  | «variable» | label =>
    rw [hshape] at h
    obtain ⟨htoken, rfl⟩ := token_eq_ok h
    exact ⟨⟨_, rfl, by rwa [String.toList_ofList]⟩, String.toList_ofList⟩
  | count =>
    rw [hshape] at h
    obtain ⟨found, hfound, h⟩ := Except.bind_eq_ok.mp h
    obtain ⟨htoken, rfl⟩ := token_eq_ok hfound
    rw [htoken.firstToken_eq] at h
    split at h
    · rename_i hcount
      cases h
      exact ⟨⟨_, rfl, by rwa [String.toList_ofList], by rwa [String.toList_ofList]⟩, String.toList_ofList⟩
    · cases h

end Instruction

end StackMachine
