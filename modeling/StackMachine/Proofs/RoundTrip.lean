import StackMachine.Code.Assembly
import StackMachine.Proofs.Generated
import StackMachine.Proofs.Grammar
import StackMachine.Toolchain

/-! Code written as text and read back.

Code comes back from its text if its instructions are well formed and fit on one line each. Whatever was assembled is such
code. Generated code is, whatever the strings of the program hold, as long as the names of its variables are tokens; and
if a name is not a token, no text at all gives the instructions that load and save the variable. Main statements:
`Code.assembled_canonical`, `Program.assemble_text_iff`. -/

namespace StackMachine

open Text Lowering

/-! ### Lines of code -/

namespace Code

variable {i : Instruction} {instructions : List Instruction} {number : Nat} {code : Code}

theorem isSkipped_text (h : i.WellFormed) : isSkipped i.text.toList = false := by
  obtain ⟨c, rest, hname, hc⟩ : ∃ c rest, i.opcode.name.toList = c :: rest ∧ c ≠ '#' := by
    cases i.opcode <;> exact ⟨_, _, rfl, by decide⟩
  rw [isSkipped, h.tight_text.trim_eq, Instruction.toList_text, hname]
  simpa using hc

/-- Each instruction has its own line, and the last line is empty. -/
theorem lines_text (h : ∀ i ∈ instructions, '\n' ∉ i.text.toList) :
    Text.lines (String.join (instructions.map fun i => i.text ++ "\n")).toList =
      instructions.map (fun i => i.text.toList) ++ [[]] := by
  induction instructions with
  | nil => rfl
  | cons i rest ih =>
    obtain ⟨hi, hrest⟩ := List.forall_mem_cons.mp h
    have htext : (String.join ((i :: rest).map fun i => i.text ++ "\n")).toList =
        i.text.toList ++ '\n' :: (String.join (rest.map fun i => i.text ++ "\n")).toList := by
      simp
    rw [htext, lines_append, lines_of_not_mem hi, ih hrest, List.map_cons, List.cons_append]
    rfl

theorem assembleLines_text (h : ∀ i ∈ instructions, i.WellFormed) :
    assembleLines number (instructions.map (fun i => i.text.toList) ++ [[]]) =
      .ok (instructions.zip (List.range' number instructions.length)) := by
  induction instructions generalizing number with
  | nil => rfl
  | cons i rest ih =>
    obtain ⟨hi, hrest⟩ := List.forall_mem_cons.mp h
    rw [List.map_cons, List.cons_append, assembleLines, isSkipped_text hi, if_neg Bool.false_ne_true,
      hi.tight_text.trim_eq, hi.parseChars_text, ih hrest]
    rfl

/-- Code whose instructions are well formed and have no newlines is assembled from its text. -/
theorem assemble_text (h : ∀ i ∈ code.instructions, i.WellFormed ∧ '\n' ∉ i.text.toList) :
    assemble code.text = .ok ⟨code.instructions, List.range' 1 code.size⟩ := by
  rw [assemble, text, lines_text fun i hi => (h i hi).2, assembleLines_text fun i hi => (h i hi).1]
  have hlength : code.instructions.length = (List.range' 1 code.instructions.length).length := by simp
  show Except.ok (ofPairs _) = _
  rw [ofPairs, List.map_fst_zip (Nat.le_of_eq hlength), List.map_snd_zip (Nat.le_of_eq hlength.symm), size]

/-- Each instruction that is assembled was read from a line. -/
theorem exists_line_of_assembleLines {lines : List (List Char)} {pairs : List (Instruction × Nat)}
    (h : assembleLines number lines = .ok pairs) :
    ∀ i ∈ pairs.map Prod.fst, ∃ line ∈ lines, Instruction.parseChars (trim line) = .ok i := by
  induction lines generalizing number pairs with
  | nil =>
    cases h
    exact nofun
  | cons line rest ih =>
    have hlater : ∀ {i}, (∃ line ∈ rest, Instruction.parseChars (trim line) = .ok i) →
        ∃ other ∈ line :: rest, Instruction.parseChars (trim other) = .ok i := by
      rintro i ⟨other, hother, hi⟩
      exact ⟨other, List.mem_cons_of_mem _ hother, hi⟩
    rw [assembleLines] at h
    split at h
    · exact fun i hi => hlater (ih h i hi)
    · split at h
      · cases h
      · rename_i first hfirst
        obtain ⟨more, hmore, rfl⟩ := Except.map_eq_ok.mp h
        exact List.forall_mem_cons.mpr ⟨⟨line, List.mem_cons_self, hfirst⟩, fun i hi => hlater (ih hmore i hi)⟩

section

variable {source : String} (h : assemble source = .ok code)

include h

theorem exists_line_of_assemble :
    ∀ i ∈ code.instructions, ∃ line ∈ Text.lines source.toList, Instruction.parseChars (trim line) = .ok i := by
  obtain ⟨pairs, hpairs, rfl⟩ := Except.map_eq_ok.mp h
  exact exists_line_of_assembleLines hpairs

/-- Whatever is assembled is well formed. -/
theorem wellFormed_of_assemble : ∀ i ∈ code.instructions, i.WellFormed := by
  intro i hi
  obtain ⟨line, -, hline⟩ := exists_line_of_assemble h i hi
  exact Instruction.wellFormed_of_parseChars hline

theorem newline_not_mem_of_assemble : ∀ i ∈ code.instructions, '\n' ∉ i.text.toList := by
  intro i hi
  obtain ⟨line, hmem, hline⟩ := exists_line_of_assemble h i hi
  refine Instruction.newline_not_mem_text fun operand hoperand hnewline => ?_
  have hinside := trim_subset line (Instruction.operand_subset_of_parseChars hline hoperand hnewline)
  exact newline_not_mem_of_mem_lines hmem hinside

end

/-- Assembled code is canonical: its text is assembled into the same instructions, on lines numbered from 1 on, and the
text of an instruction that was read is read as that instruction. -/
theorem assembled_canonical :
    (∀ source code, assemble source = .ok code →
      assemble code.text = .ok ⟨code.instructions, List.range' 1 code.size⟩) ∧
    ∀ source i, Instruction.parse source = .ok i → Instruction.parse i.text = .ok i := by
  refine ⟨fun source code h => ?_, fun source i h => ?_⟩
  · exact assemble_text fun i hi => ⟨wellFormed_of_assemble h i hi, newline_not_mem_of_assemble h i hi⟩
  · exact (Instruction.wellFormed_of_parseChars h).parseChars_text

/-- A comment, a blank line, lines that end in a carriage return, and a string with a tab and blanks in it. -/
theorem assembled_canonical_messy :
    ∃ code, assemble "# greet\n\n  push\ts  \" a\tb \" \r\n\u2003print 1 \r\n" = .ok code ∧ code.lines = [3, 4] ∧
      assemble code.text = .ok ⟨code.instructions, [1, 2]⟩ := by
  obtain ⟨code, hcode, hsize, hlines⟩ : ∃ code,
      assemble "# greet\n\n  push\ts  \" a\tb \" \r\n\u2003print 1 \r\n" = .ok code ∧ code.size = 2 ∧
        code.lines = [3, 4] :=
    ⟨_, rfl, rfl, rfl⟩
  have hagain := assembled_canonical.1 _ _ hcode
  rw [hsize] at hagain
  exact ⟨code, hcode, hlines, hagain⟩

end Code

/-! ### Literals -/

namespace Decimal

theorem unbroken_zeros (n : Nat) : Unbroken (zeros n).toList := by
  rw [toList_zeros]
  exact .of_digits fun _ => isDigit_of_mem_replicate

theorem unbroken_positional (d : Scaled) : Unbroken d.positional.toList := by
  have hdigits := unbroken_repr d.coefficient
  unfold Scaled.positional
  dsimp only
  split
  · simp only [String.toList_append]
    exact (hdigits.append (unbroken_zeros _)).append (by decide)
  · have hpadded := (unbroken_zeros ((-d.exponent).toNat + 1 - (toString d.coefficient).length)).append hdigits
    simp only [String.toList_append, String.toList_ofList]
    refine Unbroken.append (Unbroken.append (fun c hc => ?_) (by decide)) fun c hc => ?_
    · exact hpadded c (List.mem_of_mem_take hc)
    · exact hpadded c (List.mem_of_mem_drop hc)

theorem unbroken_scientific (d : Scaled) : Unbroken d.scientific.toList := by
  have hdigits := unbroken_repr d.coefficient
  unfold Scaled.scientific
  simp only [String.toList_append, String.toList_ofList]
  refine Unbroken.append (Unbroken.append (fun c hc => ?_) (by decide)) (unbroken_toString d.magnitude)
  split at hc
  · rename_i first second rest heq
    -- The point stands behind the first digit; without it these are the digits.
    rw [List.mem_cons, List.mem_cons, or_left_comm, ← List.mem_cons, ← heq] at hc
    rcases hc with rfl | hc
    · decide
    · exact hdigits c hc
  · exact hdigits c hc

theorem unbroken_literal (x : Float) : Unbroken (literal x).toList := by
  have hsign : ∀ negative, Unbroken (signText negative).toList := by decide
  unfold literal render
  split
  · decide
  · rw [String.toList_append]
    exact (hsign _).append (by decide)
  · rw [String.toList_append]
    refine (hsign _).append ?_
    dsimp only
    split
    · decide
    · unfold Scaled.literal
      split
      · exact unbroken_positional _
      · exact unbroken_scientific _

end Decimal

namespace Value

variable {v : Value}

theorem literal_ne_nil (v : Value) : v.literal.toList ≠ [] := by
  intro hnil
  have hread := ofLiteral?_literal v
  rw [String.toList_eq_nil_iff.mp hnil] at hread
  cases v <;> cases hread

/-- Only the literal of a string may hold blanks. -/
theorem isToken_literal (h : v.kind ≠ .string) : IsToken v.literal.toList := by
  refine ⟨literal_ne_nil v, ?_⟩
  cases v with
  | int n => exact unbroken_toString _
  | float x => exact Decimal.unbroken_literal x
  | string s => exact absurd rfl h
  | bool b => cases b <;> decide

theorem tight_literal (v : Value) : Tight v.literal.toList := by
  cases v with
  | string s =>
    have hmark : Tight ['"'] := IsToken.tight ⟨by decide, by decide⟩
    rw [literal, quote, String.toList_ofList]
    exact hmark.around _ hmark
  | int | float | bool => exact (isToken_literal (by rintro ⟨⟩)).tight

theorem newline_not_mem_literal (v : Value) : '\n' ∉ v.literal.toList := by
  cases v with
  | string s => exact control_not_mem_quote (by decide) s
  | int | float | bool => exact (isToken_literal (by rintro ⟨⟩)).newline_not_mem

end Value

/-! ### Generated instructions -/

theorem Lowering.isToken_labelName (n : Nat) : IsToken (labelName n).toList := by
  rw [labelName, String.toList_append]
  exact ⟨by simp, Unbroken.append (by decide) (unbroken_repr n)⟩

namespace Instruction

variable {i : Instruction}

/-- Generated instructions are well formed, as long as the variables have names that can be read. -/
theorem Generated.wellFormed (h : i.Generated) (hname : ∀ name, i.variableName? = some name → IsToken name.toList) :
    i.WellFormed := by
  cases h with
  | straight h =>
    cases h with
    | push v => exact ⟨v.kind.mem_all, _, rfl, v.tight_literal⟩
    | load kind name | save kind name => exact ⟨kind.mem_all, name, rfl, hname name rfl⟩
    | typed takes alone => exact ⟨takes, by rw [typed, alone]; rfl⟩
    | plain bare alone => exact ⟨bare, by rw [plain, alone]; rfl⟩
    | @print count fits =>
      have hcount : count? (toString count).toList = some count := count?_repr fits
      exact ⟨rfl, _, rfl, ⟨by simp, unbroken_repr count⟩, by rw [hcount]; rfl⟩
  | label n | jmp n | fjmp n => exact ⟨rfl, _, rfl, isToken_labelName n⟩

theorem Generated.newline_not_mem_text (h : i.Generated)
    (hname : ∀ name, i.variableName? = some name → IsToken name.toList) : '\n' ∉ i.text.toList := by
  refine Instruction.newline_not_mem_text fun text htext => ?_
  cases h with
  | straight h =>
    cases h with
    | push v =>
      cases htext
      exact v.newline_not_mem_literal
    | load kind name | save kind name =>
      cases htext
      exact (hname _ rfl).newline_not_mem
    | typed | plain => cases htext
    | print fits =>
      cases htext
      exact IsToken.newline_not_mem ⟨by simp, unbroken_repr _⟩
  | label n | jmp n | fjmp n =>
    cases htext
    exact (isToken_labelName n).newline_not_mem

theorem WellFormed.isToken_variableName (h : i.WellFormed) {name : String} (hname : i.variableName? = some name) :
    IsToken name.toList := by
  have hadmits := h.admits
  unfold variableName? at hname
  split at hname
  · rename_i hshape
    rw [hshape, hname] at hadmits
    obtain ⟨_, ⟨⟩, htoken⟩ := hadmits
    exact htoken
  · cases hname

end Instruction

/-! ### Compiled programs -/

theorem Text.isToken_iff {name : String} : IsToken name.toList ↔ name ≠ "" ∧ ∀ c ∈ name.toList, isBlank c = false := by
  rw [ne_eq, ← String.toList_eq_nil_iff]
  exact ⟨fun h => ⟨h.ne_nil, h.not_blank⟩, fun h => ⟨h.1, h.2⟩⟩

/-- A run without listing depends on the instructions only. -/
theorem Code.run?_unlisted (code : Code) (fuel : Nat) (input : Input) (sink : Sink) (limit : Nat) :
    code.run? fuel input sink ⟨false, limit⟩ = code.execute? fuel input sink limit :=
  if_neg Bool.false_ne_true

namespace Program

variable {program : Program} {oracle : Oracle} {code : Code}

/-- A name that is written where instructions name variables. -/
theorem mem_names_iff (h : program.lower oracle = .ok code) {name : String} :
    name ∈ program.names ↔ ∃ i ∈ code.instructions, i.variableName? = some name := by
  obtain ⟨emitted, n, hemitted, rfl⟩ := lower_eq_ok h
  rw [← List.mem_filterMap]
  exact ((Stmt.over_lowerAll program hemitted).mem_variableNames name).symm

theorem generated_of_lower (h : program.lower oracle = .ok code) : ∀ i ∈ code.instructions, i.Generated := by
  obtain ⟨emitted, n, hemitted, rfl⟩ := lower_eq_ok h
  exact (Stmt.over_lowerAll program hemitted).all

/-- The names in the code of a program are tokens exactly if they can be read back. -/
theorem wellFormed_iff (h : program.lower oracle = .ok code) :
    (∀ i ∈ code.instructions, i.WellFormed) ↔ ∀ name ∈ program.names, IsToken name.toList := by
  constructor
  · intro hwell name hname
    obtain ⟨i, hi, hvariable⟩ := (mem_names_iff h).mp hname
    exact (hwell i hi).isToken_variableName hvariable
  · intro hnames i hi
    refine (generated_of_lower h i hi).wellFormed fun name hname => ?_
    exact hnames name ((mem_names_iff h).mpr ⟨i, hi, hname⟩)

theorem assemble_text (h : program.lower oracle = .ok code) (hnames : ∀ name ∈ program.names, IsToken name.toList) :
    Code.assemble code.text = .ok ⟨code.instructions, List.range' 1 code.size⟩ := by
  refine Code.assemble_text fun i hi => ⟨(wellFormed_iff h).mpr hnames i hi, ?_⟩
  refine (generated_of_lower h i hi).newline_not_mem_text fun name hname => ?_
  exact hnames name ((mem_names_iff h).mpr ⟨i, hi, hname⟩)

/-- Code comes back from its text exactly if no variable of the program has an empty name or one with a blank in it. Then
the lines are numbered from 1 on, and running the text is running the code. -/
theorem assemble_text_iff (h : program.lower oracle = .ok code) :
    ((∃ again, Code.assemble code.text = .ok again ∧ again.instructions = code.instructions) ↔
      ∀ name ∈ program.names, name ≠ "" ∧ ∀ c ∈ name.toList, isBlank c = false) ∧
    ((∀ name ∈ program.names, name ≠ "" ∧ ∀ c ∈ name.toList, isBlank c = false) →
      Code.assemble code.text = .ok ⟨code.instructions, List.range' 1 code.size⟩ ∧
      (∀ (m : Machine) fuel, (Code.assemble code.text).map (fun again => m.run? fuel again.instructions) =
        .ok (m.run? fuel code.instructions)) ∧
      ∀ fuel input sink limit, runText? code.text fuel input sink ⟨false, limit⟩ =
        code.run? fuel input sink ⟨false, limit⟩) := by
  simp only [← isToken_iff]
  refine ⟨⟨?_, fun hnames => ⟨_, assemble_text h hnames, rfl⟩⟩, fun hnames => ?_⟩
  · rintro ⟨again, hagain, hsame⟩
    refine (wellFormed_iff h).mp ?_
    rw [← hsame]
    exact Code.wellFormed_of_assemble hagain
  · have hagain := assemble_text h hnames
    refine ⟨hagain, fun m fuel => ?_, fun fuel input sink limit => ?_⟩
    · rw [hagain, Except.map]
    · rw [runText?, hagain]
      dsimp only
      rw [Code.run?_unlisted, Code.run?_unlisted, Code.execute?, Code.execute?]

/-- `string s; s = "…"; write s;` with line ends, a quote, a backslash and a wide blank in the string. -/
def quoting : Program :=
  [.declare ⟨"string", .unknown⟩ ["s"] .unknown,
    .expr (.assign "s" (.string "\r\n\"\\\u2003" .unknown) .unknown) .unknown,
    .writing (.var "s" .unknown)]

theorem assemble_text_iff_quoting :
    ∃ code, quoting.lower (fun _ _ => .ok .string : Scope) = .ok code ∧
      Code.assemble code.text = .ok ⟨code.instructions, [1, 2, 3, 4, 5, 6, 7, 8]⟩ := by
  have hnames : ∀ name ∈ quoting.names, name ≠ "" ∧ Unbroken name.toList := by decide
  obtain ⟨code, hcode, hsize⟩ : ∃ code, quoting.lower (fun _ _ => .ok .string : Scope) = .ok code ∧ code.size = 8 :=
    ⟨_, rfl, rfl⟩
  have hagain := ((assemble_text_iff hcode).2 hnames).1
  rw [hsize] at hagain
  exact ⟨code, hcode, hagain⟩

end Program

end StackMachine
