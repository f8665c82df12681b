import StackMachine.Code.Assembly
import StackMachine.Proofs.Actions
import StackMachine.Proofs.Tokens

/-! Assembling line by line.

The lines of two texts with a newline between them are the lines of the one and then those of the other, so the two are
assembled one after the other: what the second gives comes later by the number of lines of the first. Lines that hold no
instruction (`Code.Idle`) only move the others. Main statement: `Code.assemble_by_lines`. -/

namespace StackMachine

open Text

/-- The same error so many lines further down. -/
def AssemblyError.later (e : AssemblyError) (offset : Nat) : AssemblyError :=
  ⟨offset + e.line, e.cause⟩

namespace Code

variable {number offset : Nat} {line : List Char} {lines padded : List (List Char)} {pairs : List (Instruction × Nat)}

/-! ### One list of lines after another -/

theorem assembleLines_append (number : Nat) (first last : List (List Char)) :
    assembleLines number (first ++ last) =
      (assembleLines number first >>= fun pairs =>
        (assembleLines (number + first.length) last).map (pairs ++ ·)) := by
  induction first generalizing number with
  | nil =>
    show assembleLines number last = (assembleLines number last).map ([] ++ ·)
    cases assembleLines number last <;> rfl
  | cons line rest ih =>
    have hnumber : number + (line :: rest).length = number + 1 + rest.length := by
      rw [List.length_cons]
      omega
    rw [List.cons_append, assembleLines, assembleLines, hnumber, ih]
    split
    · rfl
    · split
      · rfl
      · cases assembleLines (number + 1) rest with
        | error e => rfl
        | ok pairs => cases assembleLines (number + 1 + rest.length) last <;> rfl

/-- Numbering from further on shifts every line number, that of an error too. -/
theorem assembleLines_add (offset number : Nat) (lines : List (List Char)) :
    assembleLines (offset + number) lines =
      ((assembleLines number lines).map (List.map (Prod.map id (offset + ·)))).mapError (·.later offset) := by
  induction lines generalizing number with
  | nil => rfl
  | cons line rest ih =>
    rw [assembleLines, assembleLines, Nat.add_assoc, ih]
    split
    · rfl
    · split
      · rfl
      · cases assembleLines (number + 1) rest <;> rfl

/-- Code with more code behind it, which comes from a text so many lines further down. -/
def followedBy (first : Code) (offset : Nat) (second : Code) : Code :=
  ⟨first.instructions ++ second.instructions, first.lines ++ second.lines.map (offset + ·)⟩

theorem ofPairs_append (pairs more : List (Instruction × Nat)) (offset : Nat) :
    ofPairs (pairs ++ more.map (Prod.map id (offset + ·))) = (ofPairs pairs).followedBy offset (ofPairs more) := by
  simp [ofPairs, followedBy, Function.comp_def]

/-- The number of lines of a text: one more than it has newlines. -/
def lineCount (text : String) : Nat :=
  text.toList.count '\n' + 1

theorem assemble_append (first second : String) :
    assemble (first ++ "\n" ++ second) =
      (assemble first >>= fun code =>
        ((assemble second).map (code.followedBy (lineCount first))).mapError (·.later (lineCount first))) := by
  have hlines : Text.lines (first ++ "\n" ++ second).toList = Text.lines first.toList ++ Text.lines second.toList := by
    rw [← lines_append]
    simp
  have hnumber : 1 + (Text.lines first.toList).length = lineCount first + 1 := by
    rw [length_lines, Nat.add_comm]
    rfl
  rw [assemble, assemble, assemble, hlines, assembleLines_append, hnumber, assembleLines_add]
  cases assembleLines 1 (Text.lines first.toList) with
  | error e => rfl
  | ok pairs =>
    cases assembleLines 1 (Text.lines second.toList) with
    | error e => rfl
    | ok more => exact congrArg Except.ok (ofPairs_append pairs more _)

/-! ### Line numbers -/

/-- The line numbers are taken from those of the lines, in order. -/
theorem sublist_of_assembleLines (h : assembleLines number lines = .ok pairs) :
    (pairs.map Prod.snd).Sublist (List.range' number lines.length) := by
  induction lines generalizing number pairs with
  | nil =>
    cases h
    exact .slnil
  | cons line rest ih =>
    rw [List.length_cons, List.range'_succ]
    rw [assembleLines] at h
    split at h
    · exact (ih h).cons _
    · split at h
      · cases h
      · obtain ⟨more, hmore, rfl⟩ := Except.map_eq_ok.mp h
        exact (ih hmore).cons_cons _

theorem lines_of_assemble {source : String} {code : Code} (h : assemble source = .ok code) :
    code.lines.Sublist (List.range' 1 (lineCount source)) := by
  obtain ⟨pairs, hpairs, rfl⟩ := Except.map_eq_ok.mp h
  rw [lineCount, ← length_lines]
  exact sublist_of_assembleLines hpairs

/-! ### Lines without an instruction -/

/-- A line without an instruction: it is blank, or what is not blank in it begins with `#`. -/
inductive Idle : List Char → Prop where
  | blank {line : List Char} (blanks : Blanks line) : Idle line
  | comment {before : List Char} (blanks : Blanks before) (rest : List Char) : Idle (before ++ '#' :: rest)

theorem exists_trim_comment (rest : List Char) : ∃ tail, trim ('#' :: rest) = '#' :: tail := by
  have hstart : trimStart ('#' :: rest) = '#' :: rest :=
    trimStart_eq_self fun c hc => by
      obtain rfl := Option.some.inj hc
      rfl
  obtain ⟨behind, hbehind, heq⟩ := exists_trimEnd_append ('#' :: rest)
  rw [trim, hstart]
  cases htrim : trimEnd ('#' :: rest) with
  | nil =>
    rw [htrim, List.nil_append] at heq
    cases hbehind '#' (heq ▸ List.mem_cons_self)
  | cons c tail =>
    rw [htrim, List.cons_append] at heq
    exact ⟨tail, by rw [(List.cons.inj heq).1]⟩

theorem isSkipped_iff : isSkipped line = true ↔ Idle line := by
  constructor
  · intro h
    unfold isSkipped at h
    split at h
    · rename_i htrim
      exact .blank (blanks_of_trim_eq_nil htrim)
    · rename_i c tail htrim
      obtain rfl : c = '#' := of_decide_eq_true h
      obtain ⟨before, behind, hbefore, -, heq⟩ := exists_trim_append line
      rw [← heq, htrim]
      exact .comment hbefore _
  · rintro (hblanks | ⟨hbefore, rest⟩)
    · rw [isSkipped, trim_blanks hblanks]
    · obtain ⟨tail, htail⟩ := exists_trim_comment rest
      rw [isSkipped, trim_append hbefore, htail]
      rfl

/-- The second list of lines is the first with idle lines inserted, or left out, at any places. -/
inductive Padded : List (List Char) → List (List Char) → Prop where
  | nil : Padded [] []
  | keep (line : List Char) {lines padded : List (List Char)} (rest : Padded lines padded) :
      Padded (line :: lines) (line :: padded)
  | insert {line : List Char} (idle : Idle line) {lines padded : List (List Char)} (rest : Padded lines padded) :
      Padded lines (line :: padded)
  | leaveOut {line : List Char} (idle : Idle line) {lines padded : List (List Char)} (rest : Padded lines padded) :
      Padded (line :: lines) padded

/-- What assembling comes to, without any line numbers. -/
def unnumbered : Except AssemblyError Code → Except InstructionError (List Instruction)
  | .ok code => .ok code.instructions
  | .error e => .error e.cause

theorem unnumbered_cons (i : Instruction) (number : Nat) (r : Except AssemblyError (List (Instruction × Nat))) :
    unnumbered ((r.map ((i, number) :: ·)).map ofPairs) = (unnumbered (r.map ofPairs)).map (i :: ·) := by
  cases r <;> rfl

/-- The numbers that the two lists of lines start with do not matter, so that each may be ahead of the other. -/
theorem Padded.unnumbered_eq (h : Padded lines padded) (number number' : Nat) :
    unnumbered ((assembleLines number' padded).map ofPairs) = unnumbered ((assembleLines number lines).map ofPairs) := by
  induction h generalizing number number' with
  | nil => rfl
  | keep line rest ih =>
    rw [assembleLines, assembleLines]
    split
    · exact ih (number + 1) (number' + 1)
    · split
      · rfl
      · rw [unnumbered_cons, unnumbered_cons, ih (number + 1) (number' + 1)]
  | insert idle rest ih =>
    rw [assembleLines, if_pos (isSkipped_iff.mpr idle)]
    exact ih number (number' + 1)
  | leaveOut idle rest ih =>
    rw [assembleLines, if_pos (isSkipped_iff.mpr idle)]
    exact ih (number + 1) number'

theorem assembleLines_idle (h : ∀ line ∈ lines, Idle line) : assembleLines number lines = .ok [] := by
  induction lines generalizing number with
  | nil => rfl
  | cons line rest ih =>
    obtain ⟨hline, hrest⟩ := List.forall_mem_cons.mp h
    rw [assembleLines, if_pos (isSkipped_iff.mpr hline)]
    exact ih hrest

/-- Assembling goes line by line. Of two texts with a newline between them, an error of the first is the error of the
whole; an error of the second is reported as many lines further down as the first has; and without errors the code of
the second follows that of the first, with its line numbers moved by as much. Idle lines give no code, and inserting them
anywhere, or leaving them out, changes nothing but line numbers. Line numbers increase strictly, and are those of lines
of the text. -/
theorem assemble_by_lines (first second : String) :
    (∀ e, assemble first = .error e → assemble (first ++ "\n" ++ second) = .error e) ∧
    (∀ code e, assemble first = .ok code → assemble second = .error e →
      assemble (first ++ "\n" ++ second) = .error ⟨lineCount first + e.line, e.cause⟩) ∧
    (∀ code more, assemble first = .ok code → assemble second = .ok more →
      assemble (first ++ "\n" ++ second) =
        .ok ⟨code.instructions ++ more.instructions, code.lines ++ more.lines.map (lineCount first + ·)⟩) ∧
    ((∀ line ∈ Text.lines first.toList, Idle line) → assemble first = .ok .empty) ∧
    (Padded (Text.lines first.toList) (Text.lines second.toList) →
      unnumbered (assemble second) = unnumbered (assemble first)) ∧
    ∀ code, assemble first = .ok code →
      code.lines.Pairwise (· < ·) ∧ ∀ number ∈ code.lines, 1 ≤ number ∧ number ≤ lineCount first := by
  have happend := assemble_append first second
  refine ⟨fun e h => ?_, fun code e h h' => ?_, fun code more h h' => ?_, fun h => ?_, fun h => ?_, fun code h => ?_⟩
  · rw [happend, Except.bind_error h]
  · rw [happend, Except.bind_ok h, h']
    rfl
  · rw [happend, Except.bind_ok h, h']
    rfl
  · rw [assemble, assembleLines_idle h]
    rfl
  · exact h.unnumbered_eq 1 1
  · have hlines := lines_of_assemble h
    refine ⟨List.Pairwise.sublist hlines (List.pairwise_lt_range' ..), fun number hnumber => ?_⟩
    have hrange := List.mem_range'_1.mp (hlines.subset hnumber)
    omega

/-- A carriage return at the seam, and comments in the second text. -/
theorem assemble_by_lines_seam :
    assemble "pop\r" = .ok ⟨[.plain .pop], [1]⟩ ∧
    assemble "# note\nfly" = .error ⟨2, .unknownOpcode "fly"⟩ ∧
    assemble ("pop\r" ++ "\n" ++ "# note\nfly") = .error ⟨3, .unknownOpcode "fly"⟩ ∧
    assemble ("# note\nfly" ++ "\n" ++ "pop\r") = .error ⟨2, .unknownOpcode "fly"⟩ ∧
    assemble ("pop\r" ++ "\n" ++ "\u3000# note\npop\r\n") = .ok ⟨[.plain .pop, .plain .pop], [1, 3]⟩ ∧
    unnumbered (assemble "\u3000# note\npop\r\n") = unnumbered (assemble "pop\r") := by
  have hpop : assemble "pop\r" = .ok ⟨[.plain .pop], [1]⟩ := rfl
  have hnoted : assemble "\u3000# note\npop\r\n" = .ok ⟨[.plain .pop], [2]⟩ := rfl
  have hfly : assemble "# note\nfly" = .error ⟨2, .unknownOpcode "fly"⟩ := rfl
  have hpadded : Padded (Text.lines "pop\r".toList) (Text.lines "\u3000# note\npop\r\n".toList) :=
    .insert (isSkipped_iff.mp rfl) (.keep _ (.insert (isSkipped_iff.mp rfl) .nil))
  refine ⟨hpop, hfly, (assemble_by_lines _ _).2.1 _ _ hpop hfly, (assemble_by_lines _ _).1 _ hfly,
    (assemble_by_lines _ _).2.2.1 _ _ hpop hnoted, (assemble_by_lines _ _).2.2.2.2.1 hpadded⟩

end Code

end StackMachine
