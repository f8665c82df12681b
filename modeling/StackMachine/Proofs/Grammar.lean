import StackMachine.Proofs.InstructionText

/-! What is read as an instruction.

A text spells an instruction (`Instruction.Spelled`) if it is the name of the opcode and then the kind and the operand,
as far as they are there, each behind at least one blank, with any blanks around the whole. Texts that spell a
well-formed instruction are read as that instruction, and nothing else is read. The text of an instruction is one of
them. Main statement: `Instruction.parse_eq_ok_iff_spelled`. -/

namespace StackMachine

open Text

/-- The text of a part behind the opcode: if there is such a part, some blanks and the part. -/
inductive Gapped : Option String → List Char → Prop where
  | absent : Gapped none []
  | present {gap : List Char} (ne_nil : gap ≠ []) (blanks : Blanks gap) (part : String) :
      Gapped (some part) (gap ++ part.toList)

/-- A text spells an instruction, whatever blanks it has around its parts. -/
inductive Instruction.Spelled (i : Instruction) : List Char → Prop where
  | parts {before kind operand behind : List Char} (blanks_before : Blanks before)
      (gapped_kind : Gapped (i.kind.map Kind.suffix) kind) (gapped_operand : Gapped i.operand operand)
      (blanks_behind : Blanks behind) :
      i.Spelled (before ++ (i.opcode.name.toList ++ (kind ++ (operand ++ behind))))

variable {part : Option String} {text rest behind : List Char}

theorem Gapped.detached (h : Gapped part text) (hrest : Detached rest) : Detached (text ++ rest) := by
  cases h with
  | absent => exact hrest
  | present hne hblanks part =>
    rw [List.append_assoc]
    exact hblanks.detached.append hne _

theorem Gapped.trim_append (h : Gapped part text) (htight : ∀ found, part = some found → Tight found.toList)
    (hbehind : Blanks behind) : trim (text ++ behind) = part.elim [] String.toList := by
  cases h with
  | absent => exact trim_blanks hbehind
  | present hne hblanks part =>
    rw [List.append_assoc]
    exact (htight part rfl).trim_append hblanks hbehind

/-- Behind a token, a text is a part behind a gap, if trimming leaves that part of it. -/
theorem exists_gapped_of_trim (hdetached : Detached text) (hpart : ∀ found, part = some found → Tight found.toList)
    (htrim : part.elim [] String.toList = trim text) :
    ∃ gapped behind, Gapped part gapped ∧ Blanks behind ∧ gapped ++ behind = text := by
  cases part with
  | none => exact ⟨[], text, .absent, blanks_of_trim_eq_nil htrim.symm, rfl⟩
  | some found =>
    obtain ⟨gap, behind, hgap, hbehind, heq⟩ := exists_trim_append text
    rw [← htrim, Option.elim_some] at heq
    rw [← heq] at hdetached
    have hne : gap ≠ [] := (hpart found rfl).ne_nil_of_detached hdetached
    exact ⟨gap ++ found.toList, behind, .present hne hgap found, hbehind, by rw [List.append_assoc, heq]⟩

namespace Instruction

variable {i : Instruction} {opcode : Opcode} {kind : Option Kind}

theorem gapped_spaced (part : Option String) : Gapped part (spaced part) := by
  cases part with
  | none => exact .absent
  | some part => exact .present (List.cons_ne_nil _ _) blanks_space part

theorem spelled_text (i : Instruction) : i.Spelled i.text.toList := by
  have hnone : Blanks [] := nofun
  have hspelled := Spelled.parts hnone (gapped_spaced (i.kind.map Kind.suffix)) (gapped_spaced i.operand) hnone
  rwa [List.nil_append, List.append_nil, ← toList_text] at hspelled

/-! ### Reading what is spelled -/

theorem parseKind_gapped (h : opcode.Takes kind) (hkind : Gapped (kind.map Kind.suffix) text) (hrest : Detached rest) :
    parseKind opcode (text ++ rest) = .ok (kind, rest) := by
  cases kind with
  | none =>
    cases hkind
    have hkinds : opcode.kinds = [] := h
    simp [parseKind, hkinds]
  | some kind =>
    have hmem : kind ∈ opcode.kinds := h
    obtain ⟨hfirst, hafter⟩ := kind.isToken_suffix.span hrest
    have hkinds : opcode.kinds.isEmpty = false := by
      rw [List.isEmpty_eq_false_iff]
      exact List.ne_nil_of_mem hmem
    have hsuffix : kind.suffix.isEmpty = false := by cases kind <;> rfl
    have hfound : (Kind.ofSuffix? kind.suffix).filter opcode.kinds.contains = some kind := by
      rw [Kind.ofSuffix?_suffix, Option.filter_some, if_pos (List.contains_iff_mem.mpr hmem)]
    cases hkind with
    | present hne hblanks =>
      rw [List.append_assoc, parseKind, hkinds, if_neg Bool.false_ne_true]
      simp only [firstToken_append hblanks, afterToken_append hblanks, hfirst, hafter, String.ofList_toList, hsuffix,
        hfound]
      rfl

theorem Spelled.parseChars_eq (h : i.Spelled text) (hi : i.WellFormed) : parseChars text = .ok i := by
  obtain ⟨hbefore, hkind, hoperand, hbehind⟩ := h
  have hrest := hoperand.detached hbehind.detached
  obtain ⟨hfirst, hafter⟩ := i.opcode.isToken_name.span (hkind.detached hrest)
  rw [parseChars, firstToken_append hbefore, afterToken_append hbefore, hfirst, hafter, String.ofList_toList,
    Opcode.ofName?_name]
  dsimp only
  rw [Except.bind_ok (parseKind_gapped hi.takes hkind hrest), hoperand.trim_append hi.admits.tight hbehind,
    Except.bind_ok (parseOperand_eq hi.admits)]
  rfl

/-- A well-formed instruction is read from its text. -/
theorem WellFormed.parseChars_text (h : i.WellFormed) : parseChars i.text.toList = .ok i :=
  i.spelled_text.parseChars_eq h

/-! ### What is read -/

/-- What stands behind the opcode is read as a kind that the opcode takes, behind a gap. -/
theorem parseKind_eq_ok (h : parseKind opcode text = .ok (kind, rest)) (hdetached : Detached text) :
    opcode.Takes kind ∧ Detached rest ∧ ∃ gapped, Gapped (kind.map Kind.suffix) gapped ∧ gapped ++ rest = text := by
  unfold parseKind at h
  split at h
  · rename_i hkinds
    cases h
    exact ⟨List.isEmpty_iff.mp hkinds, hdetached, [], .absent, rfl⟩
  · dsimp only at h
    split at h
    · cases h
    · split at h
      · rename_i found hfound
        cases h
        obtain ⟨hsuffix, hmem⟩ := Option.filter_eq_some_iff.mp hfound
        have hfirst : found.suffix.toList = firstToken text := by
          rw [Kind.suffix_of_ofSuffix? hsuffix, String.toList_ofList]
        obtain ⟨gap, hgap, heq⟩ := exists_token_append text
        rw [← hfirst] at heq
        rw [← heq] at hdetached
        have hne : gap ≠ [] := found.isToken_suffix.tight.ne_nil_of_detached hdetached
        refine ⟨List.contains_iff_mem.mp hmem, detached_afterToken text, gap ++ found.suffix.toList,
          .present hne hgap found.suffix, ?_⟩
        rw [List.append_assoc, heq]
      · cases h

/-- Only well-formed instructions are read, each from a text that spells it. -/
theorem parseChars_eq_ok (h : parseChars text = .ok i) : i.WellFormed ∧ i.Spelled text := by
  unfold parseChars at h
  dsimp only at h
  split at h
  · cases h
  · rename_i opcode hopcode
    obtain ⟨⟨kind, rest⟩, hkind, h⟩ := Except.bind_eq_ok.mp h
    obtain ⟨operand, hoperand, h⟩ := Except.bind_eq_ok.mp h
    cases h
    obtain ⟨htakes, hdetached, gappedKind, hgappedKind, hafter⟩ := parseKind_eq_ok hkind (detached_afterToken text)
    obtain ⟨hadmits, htrim⟩ := parseOperand_eq_ok hoperand
    obtain ⟨gappedOperand, behind, hgappedOperand, hbehind, hrest⟩ :=
      exists_gapped_of_trim hdetached hadmits.tight htrim
    obtain ⟨before, hbefore, htext⟩ := exists_token_append text
    have hname : opcode.name.toList = firstToken text := by rw [Opcode.name_of_ofName? hopcode, String.toList_ofList]
    rw [← hafter, ← hrest, ← hname] at htext
    refine ⟨⟨htakes, hadmits⟩, ?_⟩
    rw [← htext]
    exact .parts hbefore hgappedKind hgappedOperand hbehind

theorem wellFormed_of_parseChars (h : parseChars text = .ok i) : i.WellFormed :=
  (parseChars_eq_ok h).1

/-- An operand is made of characters of the text that it was read from. -/
theorem operand_subset_of_parseChars {found : String} (h : parseChars text = .ok i) (hi : i.operand = some found) :
    found.toList ⊆ text := by
  obtain ⟨-, hspelled⟩ := parseChars_eq_ok h
  obtain ⟨-, -, hoperand, -⟩ := hspelled
  rw [hi] at hoperand
  cases hoperand with
  | present => simp +contextual [List.subset_def]

/-- Reading accepts just the texts that spell a well-formed instruction, and gives that instruction. -/
theorem parse_eq_ok_iff_spelled (text : String) (i : Instruction) :
    parse text = .ok i ↔ i.WellFormed ∧ i.Spelled text.toList := by
  constructor
  · exact parseChars_eq_ok
  · rintro ⟨hi, hspelled⟩
    exact hspelled.parseChars_eq hi

/-- An ideographic space, tabs and line ends around the parts, and a string with blanks of its own. -/
theorem parse_eq_ok_iff_spelled_wide :
    (push .string "\" a  b \"").WellFormed ∧
      (push .string "\" a  b \"").Spelled "\u3000push\t s\t\t\" a  b \"\u2003\r\n".toList := by
  have hread : parse "\u3000push\t s\t\t\" a  b \"\u2003\r\n" = .ok (push .string "\" a  b \"") := rfl
  exact (parse_eq_ok_iff_spelled _ _).mp hread

end Instruction

end StackMachine
