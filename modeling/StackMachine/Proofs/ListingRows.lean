import StackMachine.Code.Listing
import StackMachine.Proofs.LabelResolution
import StackMachine.Proofs.Tokens

/-! What a listing says.

A listing finds the labels by itself: of two labels with one name it takes the last, where resolution gives up. Where
resolution succeeds both find the same (`Code.targetText_of_labelAt`). A source line is left out where it is that of the
row above, and is to be found on the nearest row above that has one (`Code.exists_numbered`). What a row says of its
line is read off its text (`Code.lineEntry`). Main statement: `Code.listing_truthful`. -/

namespace StackMachine

open Text (padLeft padRight)

/-! ### Numbers in columns -/

namespace Text

theorem toList_padLeft (width : Nat) (fill : Char) (text : String) :
    (padLeft width fill text).toList = List.replicate (width - text.toList.length) fill ++ text.toList :=
  String.toList_ofList

theorem length_le_padRight (width : Nat) (fill : Char) (text : String) :
    text.toList.length ≤ (padRight width fill text).toList.length := by
  rw [padRight, String.toList_ofList, List.rightpad, List.length_append]
  exact Nat.le_add_right _ _

theorem blanks_replicate (n : Nat) : Blanks (List.replicate n ' ') := fun c hc => by
  rw [List.eq_of_mem_replicate hc]
  rfl

theorem isToken_toString (n : Nat) : IsToken (toString n).toList :=
  ⟨by simp, unbroken_repr n⟩

end Text

theorem isDigit_of_mem_offsetText {n : Nat} {c : Char} (h : c ∈ (offsetText n).toList) : c.isDigit = true := by
  rw [offsetText, Text.toList_padLeft] at h
  rcases List.mem_append.mp h with hzero | hdigit
  · rw [List.eq_of_mem_replicate hzero]
    rfl
  · exact Text.isDigit_of_mem_repr hdigit

theorem isToken_offsetText (n : Nat) : Text.IsToken (offsetText n).toList where
  ne_nil := by
    rw [offsetText, Text.toList_padLeft]
    exact List.append_ne_nil_of_right_ne_nil _ (Text.isToken_toString n).ne_nil
  not_blank := .of_digits fun _ => isDigit_of_mem_offsetText

/-- The zeros before a number do not count. -/
theorem natural?_offsetText (n : Nat) : Text.natural? (offsetText n).toList = some n := by
  have hdigits : Nat.ofDigitChars 10 (offsetText n).toList 0 = Nat.ofDigitChars 10 n.repr.toList 0 := by
    rw [offsetText, Text.toList_padLeft, Nat.ofDigitChars_append, Nat.ofDigitChars_replicate_zero, Nat.mul_zero]
    rfl
  rw [Text.natural?_eq (fun _ => isDigit_of_mem_offsetText) (isToken_offsetText n).ne_nil, hdigits, Nat.toList_repr,
    Nat.ofDigitChars_ten_toDigits]

/-- What is shown for a jump that goes nowhere is no number. -/
theorem offsetText_ne (n : Nat) : offsetText n ≠ "????" := by
  intro h
  have hnumber := natural?_offsetText n
  rw [h] at hnumber
  cases hnumber

theorem jumpTable_of_checkLabels {instructions : List Instruction} (h : checkLabels instructions = .ok ()) :
    ∃ table, jumpTable instructions = .ok table := by
  obtain ⟨table, htable, -⟩ := Except.bind_eq_ok.mp h
  exact ⟨table, htable⟩

theorem jumpTable_of_checkLabels_error {instructions : List Instruction} {fault : Fault}
    (h : checkLabels instructions = .error fault) : jumpTable instructions = .error fault := by
  rcases Except.bind_eq_error.mp h with h | ⟨table, -, h⟩
  · exact h
  · cases h

theorem Opcode.isJump_iff (opcode : Opcode) : opcode.isJump = true ↔ opcode = .jmp ∨ opcode = .fjmp := by
  cases opcode <;> decide

namespace Code

variable {code : Code} {k : Nat} {i : Instruction} {name shown : String} {instructions : List Instruction}

/-! ### Labels of a listing -/

theorem mem_labelOffsets : (name, k) ∈ labelOffsets instructions ↔ LabelAt instructions k name := by
  have hentry : ∀ (i : Instruction) (offset : Nat),
      (if i.opcode = .label then i.operand.map fun name => (name, offset) else none) =
        i.labelName?.map fun name => (name, offset) := by
    intro i offset
    rw [Instruction.labelName?]
    split <;> rfl
  rw [labelOffsets, List.mem_reverse, List.mem_filterMap, LabelAt]
  simp only [hentry, Prod.exists, List.mem_zipIdx_iff_getElem?, Option.map_eq_some_iff, Prod.mk.injEq]
  constructor
  · rintro ⟨i, _, hi, _, hname, rfl, rfl⟩
    exact ⟨i, hi, hname⟩
  · rintro ⟨i, hi, hname⟩
    exact ⟨i, k, hi, name, hname, rfl, rfl⟩

theorem labelAt_of_lookup (h : (labelOffsets instructions).lookup name = some k) : LabelAt instructions k name :=
  mem_labelOffsets.mp (mem_of_lookup h)

theorem not_labelAt_of_lookup (h : (labelOffsets instructions).lookup name = none) (k : Nat) :
    ¬LabelAt instructions k name := by
  intro hat
  simpa using List.lookup_eq_none_iff.mp h (name, k) (mem_labelOffsets.mpr hat)

theorem targetText_of_jumpName (hname : i.jumpName? = some name) (labels : List (String × Nat)) :
    targetText labels i = (labels.lookup name).elim "????" offsetText := by
  have hoperand : i.operand = some name := by
    rw [Instruction.jumpName?] at hname
    split at hname
    · exact hname
    · cases hname
  rw [targetText, hoperand, Option.bind_some]
  cases labels.lookup name <;> rfl

/-- Where labels have names of their own, the label that a listing finds for a jump is the only one. -/
theorem targetText_of_labelAt (hclean : ∀ j fault, ¬LabelFault instructions j fault) (hname : i.jumpName? = some name)
    (hat : LabelAt instructions k name) : targetText (labelOffsets instructions) i = offsetText k := by
  rw [targetText_of_jumpName hname]
  cases hlookup : (labelOffsets instructions).lookup name with
  | none => exact absurd hat (not_labelAt_of_lookup hlookup k)
  | some j =>
    have hat' := labelAt_of_lookup hlookup
    rw [Option.elim_some, hat'.unique (fun j _ => hclean j) hat hat'.lt hat.lt]

theorem targetText_of_undefined (hname : i.jumpName? = some name) (hnowhere : ∀ j, ¬LabelAt instructions j name) :
    targetText (labelOffsets instructions) i = "????" := by
  rw [targetText_of_jumpName hname]
  cases hlookup : (labelOffsets instructions).lookup name with
  | none => rfl
  | some j => exact absurd (labelAt_of_lookup hlookup) (hnowhere j)

/-! ### Rows -/

/-- What stands before the instruction of a row. -/
def rowHead (code : Code) (k : Nat) : String :=
  offsetText k ++ " " ++ code.lineColumn k ++ " "

/-- A row has an arrow behind its instruction, to this target. -/
def ArrowAt (code : Code) (k : Nat) (shown : String) : Prop :=
  ∃ i, code.instructions[k]? = some i ∧
    code.rows[k]? = some (code.rowHead k ++ padRight 20 ' ' i.text ++ " -> " ++ shown ++ "\n")

theorem getElem?_rows (hi : code.instructions[k]? = some i) :
    code.rows[k]? = some (code.row (labelOffsets code.instructions) i k) := by
  rw [rows, List.getElem?_map, List.getElem?_zipIdx, hi]
  simp

theorem row_of_jump (hi : code.instructions[k]? = some i) (hjump : i.opcode.isJump = true) :
    code.rows[k]? = some (code.rowHead k ++ padRight 20 ' ' i.text ++ " -> " ++
      targetText (labelOffsets code.instructions) i ++ "\n") := by
  rw [getElem?_rows hi, row, instructionColumn, if_pos hjump, rowHead]
  simp only [String.append_assoc]

theorem row_of_not_jump (hi : code.instructions[k]? = some i) (hjump : i.opcode.isJump = false) :
    code.rows[k]? = some (code.rowHead k ++ i.text ++ "\n") := by
  rw [getElem?_rows hi, row, instructionColumn, hjump, rowHead]
  simp

/-- Only the rows of jumps have an arrow: any other row is shorter than it would be with one. -/
theorem arrowAt_iff (hi : code.instructions[k]? = some i) :
    code.ArrowAt k shown ↔ i.opcode.isJump = true ∧ shown = targetText (labelOffsets code.instructions) i := by
  constructor
  · rintro ⟨i', hi', hrow⟩
    obtain rfl : i = i' := Option.some.inj (hi.symm.trans hi')
    cases hjump : i.opcode.isJump with
    | true =>
      rw [row_of_jump hi hjump] at hrow
      have hlist := congrArg String.toList (Option.some.inj hrow)
      simp only [String.toList_append, List.append_cancel_left_eq, List.append_cancel_right_eq] at hlist
      exact ⟨rfl, (String.toList_inj.mp hlist).symm⟩
    | false =>
      rw [row_of_not_jump hi hjump] at hrow
      have hlength := congrArg (fun row : String => row.toList.length) (Option.some.inj hrow)
      simp only [String.toList_append, List.length_append] at hlength
      have hpad := Text.length_le_padRight 20 ' ' i.text
      have harrow : " -> ".toList.length = 4 := rfl
      omega
  · rintro ⟨hjump, rfl⟩
    exact ⟨i, hi, row_of_jump hi hjump⟩

/-! ### Source lines -/

/-- What stands in the column for the source line: the second token of a row. -/
def lineEntry (row : String) : String :=
  String.ofList (Text.firstToken (Text.afterToken row.toList))

/-- What a row shows for its source line. -/
def LineShown (code : Code) (k : Nat) (entry : String) : Prop :=
  ∃ row, code.rows[k]? = some row ∧ lineEntry row = entry

theorem lineEntry_row {blanks token : List Char} (hcolumn : (code.lineColumn k).toList = blanks ++ token)
    (hblanks : Text.Blanks blanks) (htoken : Text.IsToken token) (labels : List (String × Nat)) (i : Instruction) :
    lineEntry (code.row labels i k) = String.ofList token := by
  have hrow : (code.row labels i k).toList = (offsetText k).toList ++
      (([' '] ++ blanks) ++ (token ++ ([' '] ++ (instructionColumn labels i ++ "\n").toList))) := by
    simp [row, hcolumn]
  have hblanks : Text.Blanks ([' '] ++ blanks) := fun c hc =>
    (List.mem_append.mp hc).elim (Text.blanks_space c) (hblanks c)
  have hdetached := hblanks.detached.append (List.cons_ne_nil ' ' blanks)
  have hdetached' := Text.blanks_space.detached.append (List.cons_ne_nil ' ' [])
  rw [lineEntry, hrow, ((isToken_offsetText k).span (hdetached _)).2, Text.firstToken_append hblanks,
    (htoken.span (hdetached' _)).1]

theorem lineShown_of_same (hk : k < code.size) (h : 0 < k ∧ code.lineAt k = code.lineAt (k - 1)) :
    code.LineShown k "|" := by
  have hcolumn : (code.lineColumn k).toList = List.replicate 3 ' ' ++ ['|'] := by
    rw [lineColumn, if_pos h]
    rfl
  exact ⟨_, getElem?_rows (List.getElem?_eq_getElem hk),
    lineEntry_row hcolumn (Text.blanks_replicate 3) ⟨by decide, by decide⟩ _ _⟩

theorem lineShown_of_other (hk : k < code.size) (h : ¬(0 < k ∧ code.lineAt k = code.lineAt (k - 1))) :
    code.LineShown k (toString (code.lineAt k)) := by
  have hcolumn : (code.lineColumn k).toList =
      List.replicate (4 - (toString (code.lineAt k)).toList.length) ' ' ++ (toString (code.lineAt k)).toList := by
    rw [lineColumn, if_neg h, Text.toList_padLeft]
  refine ⟨_, getElem?_rows (List.getElem?_eq_getElem hk), ?_⟩
  rw [lineEntry_row hcolumn (Text.blanks_replicate _) (Text.isToken_toString _), String.ofList_toList]

/-- By induction on the row: a row without a number has the source line of the row above. -/
theorem exists_numbered (hk : k < code.size) :
    ∃ j ≤ k, code.LineShown j (toString (code.lineAt k)) ∧ ∀ l, j < l → l ≤ k → code.LineShown l "|" := by
  induction k with
  | zero => exact ⟨0, Nat.le_refl 0, lineShown_of_other hk fun h => Nat.lt_irrefl 0 h.1, by omega⟩
  | succ k ih =>
    by_cases hsame : 0 < k + 1 ∧ code.lineAt (k + 1) = code.lineAt k
    · obtain ⟨j, hj, hnumber, hbars⟩ := ih (Nat.lt_of_succ_lt hk)
      refine ⟨j, Nat.le_succ_of_le hj, by rwa [hsame.2], fun l hl hle => ?_⟩
      rcases Nat.le_succ_iff.mp hle with hle | rfl
      · exact hbars l hl hle
      · exact lineShown_of_same hk hsame
    · exact ⟨k + 1, Nat.le_refl _, lineShown_of_other hk hsame, by omega⟩

/-! ### The listing -/

theorem length_rows (code : Code) : code.rows.length = code.size := by
  simp [rows, size]

/-- Where resolution succeeds, an arrow shows what is in the jump table. -/
theorem ArrowAt.target {table : List (Option Nat)} (htable : jumpTable code.instructions = .ok table)
    (h : code.ArrowAt k shown) : ∃ target, table[k]? = some (some target) ∧ shown = offsetText target := by
  obtain ⟨i, hi, -⟩ := id h
  obtain ⟨hjump, rfl⟩ := (arrowAt_iff hi).mp h
  obtain ⟨labels, htargets, hscanned, hjumps⟩ := exists_scanned_of_jumpTable htable
  have hmem := List.mem_of_getElem? hi
  obtain ⟨name, hoperand⟩ := Option.isSome_iff_exists.mp (named_of_clean hscanned.no_fault hjumps hmem (.inr hjump))
  have hname : i.jumpName? = some name := by rw [Instruction.jumpName?, if_pos hjump, hoperand]
  obtain ⟨target, hat⟩ := mem_definedLabels.mp (defined_of_clean hjumps hmem hname)
  obtain ⟨entry, hentry, hiff⟩ := jumpTable_entry htable hi
  rw [(hiff target).mpr ⟨name, hname, hat⟩] at hentry
  exact ⟨target, hentry, targetText_of_labelAt hscanned.no_fault hname hat⟩

/-- A jump to no label has an arrow to nowhere. -/
theorem exists_arrowAt_undefined (h : jumpTable code.instructions = .error (.undefinedLabel name)) :
    ∃ k, code.ArrowAt k "????" := by
  rcases jumpTable_eq_error_iff.mp h with ⟨k, hfault, -⟩ | ⟨-, k, hfault, -⟩
  · cases hfault
  · have hi := List.getElem?_eq_getElem hfault.lt
    obtain ⟨hjump, ⟨-, hmissing⟩ | ⟨name', hname, hnowhere, -⟩⟩ := hfault.inv hi
    · cases hmissing
    · exact ⟨k, (arrowAt_iff hi).mpr ⟨hjump, (targetText_of_undefined hname hnowhere).symm⟩⟩

/-- A listing has its title and then one row for each instruction. The rows of jumps have an arrow and no others have.
If resolution succeeds, an arrow shows the number that the jump table has for it and never the mark for nowhere; if it
fails for want of a label, there is an arrow to nowhere. The source line of an instruction is the number on the nearest
row, going up from its own, that has one, and the rows in between have a bar. -/
theorem listing_truthful (code : Code) (title : String) :
    (code.listing title = "== " ++ title ++ " ==\n" ++ String.join code.rows ∧ code.rows.length = code.size) ∧
    (∀ (k : Nat) (i : Instruction), code.instructions[k]? = some i →
      ((∃ shown, code.ArrowAt k shown) ↔ i.opcode = .jmp ∨ i.opcode = .fjmp) ∧
      (¬(∃ shown, code.ArrowAt k shown) → code.rows[k]? = some (code.rowHead k ++ i.text ++ "\n"))) ∧
    (checkLabels code.instructions = .ok () → ∃ table, jumpTable code.instructions = .ok table ∧
      ∀ k shown, code.ArrowAt k shown → shown ≠ "????" ∧ ∃ target, table[k]? = some (some target) ∧
        shown = offsetText target ∧ Text.natural? shown.toList = some target) ∧
    (∀ name, checkLabels code.instructions = .error (.undefinedLabel name) → ∃ k, code.ArrowAt k "????") ∧
    ∀ k < code.size, ∃ j ≤ k, code.LineShown j (toString (code.lineAt k)) ∧
      ∀ l, j < l → l ≤ k → code.LineShown l "|" := by
  refine ⟨⟨rfl, code.length_rows⟩, fun k i hi => ?_, fun hcheck => ?_, fun name hcheck => ?_, fun k hk => ?_⟩
  · have harrow : (∃ shown, code.ArrowAt k shown) ↔ i.opcode.isJump = true := by simp [arrowAt_iff hi]
    rw [harrow]
    exact ⟨i.opcode.isJump_iff, fun hjump => row_of_not_jump hi (by simpa using hjump)⟩
  · obtain ⟨table, htable⟩ := jumpTable_of_checkLabels hcheck
    refine ⟨table, htable, fun k shown h => ?_⟩
    obtain ⟨target, hentry, rfl⟩ := h.target htable
    exact ⟨offsetText_ne target, target, hentry, rfl, natural?_offsetText target⟩
  · exact exists_arrowAt_undefined (jumpTable_of_checkLabels_error hcheck)
  · exact exists_numbered hk

/-- A loop of which only the first instruction has its line recorded. -/
def looping : Code :=
  ⟨[.label "a", .jmp "a", .plain .pop], [7]⟩

/-- A jump to a label that is not there. -/
def straying : Code :=
  ⟨[.fjmp "b"], [1, 2]⟩

theorem listing_truthful_looping :
    (checkLabels looping.instructions = .ok () ∧
      ∃ shown, looping.ArrowAt 1 shown ∧ Text.natural? shown.toList = some 0) ∧
    (∃ j ≤ 2, looping.LineShown j "0" ∧ ∀ l, j < l → l ≤ 2 → looping.LineShown l "|") ∧
    (checkLabels straying.instructions = .error (.undefinedLabel "b") ∧ ∃ k, straying.ArrowAt k "????") := by
  have hcheck : checkLabels looping.instructions = .ok () := rfl
  have hcheck' : checkLabels straying.instructions = .error (.undefinedLabel "b") := rfl
  have htable' : jumpTable looping.instructions = .ok [none, some 0, none] := rfl
  obtain ⟨-, harrows, hchecked, -, hlines⟩ := listing_truthful looping "loop"
  obtain ⟨-, -, -, hundefined, -⟩ := listing_truthful straying "stray"
  obtain ⟨table, htable, htarget⟩ := hchecked hcheck
  cases htable.symm.trans htable'
  obtain ⟨shown, harrow⟩ := (harrows 1 (.jmp "a") rfl).1.mpr (.inl rfl)
  obtain ⟨-, target, hentry, -, hnumber⟩ := htarget 1 shown harrow
  cases hentry
  exact ⟨⟨hcheck, shown, harrow, hnumber⟩, hlines 2 (by decide), hcheck', hundefined "b" hcheck'⟩

end Code

end StackMachine
