import StackMachine.Proofs.LineInput

/-! Labels and jumps.

Resolution looks at all labels before it looks at a jump. What it says of a list of instructions is said here without
it: where the labels are (`LabelAt`), what is wrong with a label (`LabelFault`) and what is wrong with a jump
(`JumpFault`). While labels are collected, those seen so far are known by their index and none of them is at fault
(`Labels.Scanned`). Main statement: `jumpTable_exact`. -/

namespace StackMachine

/-- A label with this name stands at this index. -/
def LabelAt (instructions : List Instruction) (k : Nat) (name : String) : Prop :=
  ∃ i, instructions[k]? = some i ∧ i.labelName? = some name

/-- What is wrong with the label at an index: it has no name, or a label before it has the same name. -/
inductive LabelFault (instructions : List Instruction) (k : Nat) : Fault → Prop where
  | unnamed {i : Instruction} (here : instructions[k]? = some i) (label : i.opcode = .label) (none : i.operand = none) :
      LabelFault instructions k (.missingOperand .label)
  | repeated {name : String} {first : Nat} (here : LabelAt instructions k name) (earlier : first < k)
      (there : LabelAt instructions first name) : LabelFault instructions k (.duplicateLabel name first k)

/-- What is wrong with the jump at an index: it names no place, or a place that is no label. -/
inductive JumpFault (instructions : List Instruction) (k : Nat) : Fault → Prop where
  | unnamed {i : Instruction} (here : instructions[k]? = some i) (jump : i.opcode.isJump = true)
      (none : i.operand = none) : JumpFault instructions k (.missingOperand i.opcode)
  | undefined {i : Instruction} {name : String} (here : instructions[k]? = some i) (jump : i.jumpName? = some name)
      (nowhere : ∀ j, ¬LabelAt instructions j name) : JumpFault instructions k (.undefinedLabel name)

/-- The fault that is found first when indices are gone through in order. -/
def First (faults : Nat → Fault → Prop) (fault : Fault) : Prop :=
  ∃ k, faults k fault ∧ ∀ j < k, ∀ other, ¬faults j other

/-- What resolution reports: the first fault of a label and, only if there is none, the first fault of a jump. -/
def ResolutionFault (instructions : List Instruction) (fault : Fault) : Prop :=
  First (LabelFault instructions) fault ∨
    (∀ k other, ¬LabelFault instructions k other) ∧ First (JumpFault instructions) fault

/-! ### Labels and their faults -/

section

variable {instructions : List Instruction} {i : Instruction} {j k first first' : Nat} {name name' : String}
  {fault fault' : Fault}

theorem LabelAt.lt (h : LabelAt instructions k name) : k < instructions.length := by
  obtain ⟨i, hi, -⟩ := h
  exact (List.getElem?_eq_some_iff.mp hi).1

/-- The instruction at an index decides what label is there. -/
theorem labelAt_iff (hi : instructions[k]? = some i) : LabelAt instructions k name ↔ i.labelName? = some name := by
  simp [LabelAt, hi]

theorem mem_definedLabels : name ∈ definedLabels instructions ↔ ∃ k, LabelAt instructions k name := by
  rw [definedLabels, List.mem_filterMap]
  constructor
  · rintro ⟨i, hmem, hname⟩
    obtain ⟨k, hi⟩ := List.getElem?_of_mem hmem
    exact ⟨k, i, hi, hname⟩
  · rintro ⟨k, i, hi, hname⟩
    exact ⟨i, List.mem_of_getElem? hi, hname⟩

theorem LabelFault.lt (h : LabelFault instructions k fault) : k < instructions.length := by
  cases h with
  | unnamed here => exact (List.getElem?_eq_some_iff.mp here).1
  | repeated here => exact here.lt

theorem JumpFault.lt (h : JumpFault instructions k fault) : k < instructions.length := by
  cases h with
  | unnamed here => exact (List.getElem?_eq_some_iff.mp here).1
  | undefined here => exact (List.getElem?_eq_some_iff.mp here).1

/-- What is at fault with a label, said of the instruction. -/
theorem LabelFault.inv (h : LabelFault instructions k fault) (hi : instructions[k]? = some i) :
    i.opcode = .label ∧ (i.operand = none ∧ fault = .missingOperand .label ∨
      ∃ name first, i.labelName? = some name ∧ first < k ∧ LabelAt instructions first name ∧
        fault = .duplicateLabel name first k) := by
  cases h with
  | unnamed here label hnone =>
    rw [hi] at here
    cases here
    exact ⟨label, .inl ⟨hnone, rfl⟩⟩
  | repeated here earlier there =>
    have hname := (labelAt_iff hi).mp here
    refine ⟨?_, .inr ⟨_, _, hname, earlier, there, rfl⟩⟩
    by_cases hlabel : i.opcode = .label
    · exact hlabel
    · simp [Instruction.labelName?, hlabel] at hname

/-- What is at fault with a jump, said of the instruction. -/
theorem JumpFault.inv (h : JumpFault instructions k fault) (hi : instructions[k]? = some i) :
    i.opcode.isJump = true ∧ (i.operand = none ∧ fault = .missingOperand i.opcode ∨
      ∃ name, i.jumpName? = some name ∧ (∀ j, ¬LabelAt instructions j name) ∧ fault = .undefinedLabel name) := by
  cases h with
  | unnamed here jump hnone =>
    rw [hi] at here
    cases here
    exact ⟨jump, .inl ⟨hnone, rfl⟩⟩
  | undefined here hname nowhere =>
    rw [hi] at here
    cases here
    refine ⟨?_, .inr ⟨_, hname, nowhere, rfl⟩⟩
    by_cases hjump : i.opcode.isJump = true
    · exact hjump
    · simp [Instruction.jumpName?, hjump] at hname

/-- Of the labels before the first one at fault, no two have the same name. -/
theorem LabelAt.unique (hclean : ∀ j < k, ∀ other, ¬LabelFault instructions j other)
    (h : LabelAt instructions first name) (h' : LabelAt instructions first' name) (hlt : first < k) (hlt' : first' < k) :
    first = first' := by
  rcases Nat.lt_trichotomy first first' with hless | heq | hless
  · exact absurd (.repeated h' hless h) (hclean first' hlt' _)
  · exact heq
  · exact absurd (.repeated h hless h') (hclean first hlt _)

theorem LabelFault.unique (hclean : ∀ j < k, ∀ other, ¬LabelFault instructions j other)
    (h : LabelFault instructions k fault) (h' : LabelFault instructions k fault') : fault = fault' := by
  have hi := List.getElem?_eq_getElem h.lt
  rcases h.inv hi with ⟨-, ⟨hnone, hfault⟩ | ⟨name, first, hname, hlt, hat, hfault⟩⟩
  · rcases h'.inv hi with ⟨-, ⟨-, hfault'⟩ | ⟨name, first, hname, -⟩⟩
    · rw [hfault, hfault']
    · simp [Instruction.labelName?, hnone] at hname
  · rcases h'.inv hi with ⟨-, ⟨hnone, -⟩ | ⟨name', first', hname', hlt', hat', hfault'⟩⟩
    · simp [Instruction.labelName?, hnone] at hname
    · obtain rfl : name = name' := Option.some.inj (hname.symm.trans hname')
      rw [hfault, hfault', hat.unique hclean hat' hlt hlt']

theorem JumpFault.unique (h : JumpFault instructions k fault) (h' : JumpFault instructions k fault') : fault = fault' := by
  have hi := List.getElem?_eq_getElem h.lt
  rcases h.inv hi with ⟨-, ⟨hnone, hfault⟩ | ⟨name, hname, -, hfault⟩⟩
  · rcases h'.inv hi with ⟨-, ⟨-, hfault'⟩ | ⟨name, hname, -⟩⟩
    · rw [hfault, hfault']
    · simp [Instruction.jumpName?, hnone] at hname
  · rcases h'.inv hi with ⟨-, ⟨hnone, -⟩ | ⟨name', hname', -, hfault'⟩⟩
    · simp [Instruction.jumpName?, hnone] at hname
    · obtain rfl : name = name' := Option.some.inj (hname.symm.trans hname')
      rw [hfault, hfault']

/-- There is one first fault at most, if there is one at most where it is found. -/
theorem First.unique {faults : Nat → Fault → Prop}
    (hunique : ∀ k fault fault', (∀ j < k, ∀ other, ¬faults j other) → faults k fault → faults k fault' → fault = fault')
    (h : First faults fault) (h' : First faults fault') : fault = fault' := by
  obtain ⟨k, hk, hclean⟩ := h
  obtain ⟨k', hk', hclean'⟩ := h'
  rcases Nat.lt_trichotomy k k' with hless | rfl | hless
  · exact absurd hk (hclean' k hless fault)
  · exact hunique k fault fault' hclean hk hk'
  · exact absurd hk' (hclean k' hless fault')

theorem First.not_clean {faults : Nat → Fault → Prop} (h : First faults fault) : ¬∀ k other, ¬faults k other := by
  obtain ⟨k, hk, -⟩ := h
  intro hclean
  exact hclean k fault hk

theorem ResolutionFault.unique (h : ResolutionFault instructions fault) (h' : ResolutionFault instructions fault') :
    fault = fault' := by
  rcases h with hlabel | ⟨hclean, hjump⟩
  · rcases h' with hlabel' | ⟨hclean', -⟩
    · exact hlabel.unique (fun _ _ _ hclean h h' => h.unique hclean h') hlabel'
    · exact absurd hclean' hlabel.not_clean
  · rcases h' with hlabel' | ⟨-, hjump'⟩
    · exact absurd hclean hlabel'.not_clean
    · exact hjump.unique (fun _ _ _ _ h h' => h.unique h') hjump'

/-! ### Code in order -/

theorem named_of_clean (hlabels : ∀ k fault, ¬LabelFault instructions k fault)
    (hjumps : ∀ k fault, ¬JumpFault instructions k fault) (hmem : i ∈ instructions) : i.Named := by
  obtain ⟨k, hi⟩ := List.getElem?_of_mem hmem
  rintro (hlabel | hjump)
  · cases hname : i.operand with
    | none => exact absurd (.unnamed hi hlabel hname) (hlabels k _)
    | some name => rfl
  · cases hname : i.operand with
    | none => exact absurd (.unnamed hi hjump hname) (hjumps k _)
    | some name => rfl

theorem nodup_of_clean (hlabels : ∀ k fault, ¬LabelFault instructions k fault) : (definedLabels instructions).Nodup := by
  rw [definedLabels, List.Nodup, List.pairwise_filterMap, List.pairwise_iff_getElem]
  rintro first k hfirst hk hlt name hname name' hname' rfl
  have hthere : LabelAt instructions first name := ⟨_, List.getElem?_eq_getElem hfirst, hname⟩
  have hhere : LabelAt instructions k name := ⟨_, List.getElem?_eq_getElem hk, hname'⟩
  exact hlabels k _ (.repeated hhere hlt hthere)

theorem defined_of_clean (hjumps : ∀ k fault, ¬JumpFault instructions k fault) (hmem : i ∈ instructions)
    (hname : i.jumpName? = some name) : name ∈ definedLabels instructions := by
  obtain ⟨k, hi⟩ := List.getElem?_of_mem hmem
  rw [mem_definedLabels]
  by_cases hdefined : ∃ j, LabelAt instructions j name
  · exact hdefined
  · exact absurd (.undefined hi hname (not_exists.mp hdefined)) (hjumps k _)

/-- What is left from an index on is the instruction there and what is left from the next one on. -/
theorem getElem?_of_drop {rest : List Instruction} (h : instructions.drop k = i :: rest) :
    instructions[k]? = some i ∧ instructions.drop (k + 1) = rest := by
  constructor
  · have hzero := congrArg (·[0]?) h
    simpa using hzero
  · rw [← List.drop_drop, h]
    rfl

end

/-! ### Collecting labels -/

namespace Labels

variable {labels labels' : Labels} {instructions rest : List Instruction} {i : Instruction} {index : Nat} {name : String}
  {fault : Fault}

/-- The labels before an index are known, and none of them is at fault. -/
structure Scanned (labels : Labels) (instructions : List Instruction) (index : Nat) : Prop where
  lookup_iff : ∀ name k, labels.lookup name = some k ↔ k < index ∧ LabelAt instructions k name
  clean : ∀ k < index, ∀ fault, ¬LabelFault instructions k fault

/-- What has no fault before its end has none. -/
theorem Scanned.no_fault (h : labels.Scanned instructions instructions.length) (k : Nat) (fault : Fault) :
    ¬LabelFault instructions k fault := by
  intro hfault
  exact h.clean k hfault.lt fault hfault

theorem scanned_nil (instructions : List Instruction) : Scanned [] instructions 0 := by
  refine ⟨fun name k => ?_, fun k hk => absurd hk (Nat.not_lt_zero k)⟩
  simp

theorem Scanned.skip (h : labels.Scanned instructions index) (hi : instructions[index]? = some i)
    (hlabel : i.opcode ≠ .label) : labels.Scanned instructions (index + 1) where
  lookup_iff name k := by
    rw [h.lookup_iff]
    constructor
    · rintro ⟨hk, hat⟩
      exact ⟨Nat.lt_succ_of_lt hk, hat⟩
    · rintro ⟨hk, hat⟩
      rcases Nat.lt_succ_iff_lt_or_eq.mp hk with hk | rfl
      · exact ⟨hk, hat⟩
      · simp [labelAt_iff hi, Instruction.labelName?, hlabel] at hat
  clean k hk fault hfault := by
    rcases Nat.lt_succ_iff_lt_or_eq.mp hk with hk | rfl
    · exact h.clean k hk fault hfault
    · exact hlabel (hfault.inv hi).1

theorem Scanned.record (h : labels.Scanned instructions index) (hi : instructions[index]? = some i)
    (hname : i.labelName? = some name) (hnew : labels.lookup name = none) :
    Scanned ((name, index) :: labels) instructions (index + 1) where
  lookup_iff other k := by
    rw [lookup_cons]
    by_cases hother : other = name
    · subst hother
      simp only [if_true, Option.some.injEq]
      constructor
      · rintro rfl
        exact ⟨Nat.lt_succ_self index, (labelAt_iff hi).mpr hname⟩
      · rintro ⟨hk, hat⟩
        rcases Nat.lt_succ_iff_lt_or_eq.mp hk with hk | rfl
        · rw [(h.lookup_iff other k).mpr ⟨hk, hat⟩] at hnew
          cases hnew
        · rfl
    · rw [if_neg hother, h.lookup_iff]
      constructor
      · rintro ⟨hk, hat⟩
        exact ⟨Nat.lt_succ_of_lt hk, hat⟩
      · rintro ⟨hk, hat⟩
        rcases Nat.lt_succ_iff_lt_or_eq.mp hk with hk | rfl
        · exact ⟨hk, hat⟩
        · rw [labelAt_iff hi, hname] at hat
          cases hat
          exact absurd rfl hother
  clean k hk fault hfault := by
    rcases Nat.lt_succ_iff_lt_or_eq.mp hk with hk | rfl
    · exact h.clean k hk fault hfault
    · rcases hfault.inv hi with ⟨-, ⟨hnone, -⟩ | ⟨other, first, hother, hearlier, hat, -⟩⟩
      · simp [Instruction.labelName?, hnone] at hname
      · obtain rfl : name = other := Option.some.inj (hname.symm.trans hother)
        rw [(h.lookup_iff name first).mpr ⟨hearlier, hat⟩] at hnew
        cases hnew

/-- By induction on what is left: either all labels get known, or the first one at fault is found. -/
theorem collect_scanned (h : labels.Scanned instructions index) (hrest : instructions.drop index = rest) :
    (∃ labels', collect labels index rest = .ok labels' ∧ labels'.Scanned instructions instructions.length) ∨
      ∃ fault, collect labels index rest = .error fault ∧ First (LabelFault instructions) fault := by
  induction rest generalizing labels index with
  | nil =>
    have hend : instructions.length ≤ index := List.drop_eq_nil_iff.mp hrest
    refine .inl ⟨labels, rfl, ⟨fun name k => ?_, fun k hk => h.clean k (Nat.lt_of_lt_of_le hk hend)⟩⟩
    rw [h.lookup_iff]
    constructor
    · rintro ⟨-, hat⟩
      exact ⟨hat.lt, hat⟩
    · rintro ⟨hk, hat⟩
      exact ⟨Nat.lt_of_lt_of_le hk hend, hat⟩
  | cons i rest ih =>
    obtain ⟨hi, hrest⟩ := getElem?_of_drop hrest
    rw [collect]
    by_cases hlabel : i.opcode = .label
    · rw [if_pos hlabel]
      cases hname : i.operand with
      | none => exact .inr ⟨_, rfl, index, .unnamed hi hlabel hname, h.clean⟩
      | some name =>
        have hlabelName : i.labelName? = some name := by simp [Instruction.labelName?, hlabel, hname]
        dsimp only
        cases hknown : labels.lookup name with
        | none => exact ih (h.record hi hlabelName hknown) hrest
        | some first =>
          obtain ⟨hearlier, hat⟩ := (h.lookup_iff name first).mp hknown
          exact .inr ⟨_, rfl, index, .repeated ((labelAt_iff hi).mpr hlabelName) hearlier hat, h.clean⟩
    · rw [if_neg hlabel]
      exact ih (h.skip hi hlabel) hrest

/-! ### Resolving jumps -/

variable {k : Nat}

/-- With all labels known, a jump gets the index of its label or is at fault. -/
theorem target_scanned (h : labels.Scanned instructions instructions.length) (hi : instructions[k]? = some i) :
    (∃ target, labels.target i = .ok target ∧
      (∀ j, target = some j ↔ ∃ name, i.jumpName? = some name ∧ LabelAt instructions j name) ∧
      ∀ fault, ¬JumpFault instructions k fault) ∨
    ∃ fault, labels.target i = .error fault ∧ JumpFault instructions k fault := by
  have hfound : ∀ name j, labels.lookup name = some j ↔ LabelAt instructions j name := by
    intro name j
    rw [h.lookup_iff]
    exact ⟨And.right, fun hat => ⟨hat.lt, hat⟩⟩
  by_cases hjump : i.opcode.isJump = true
  · cases hname : i.operand with
    | none =>
      refine .inr ⟨_, ?_, .unnamed hi hjump hname⟩
      simp [target, hjump, hname]
    | some name =>
      have hjumpName : i.jumpName? = some name := by simp [Instruction.jumpName?, hjump, hname]
      cases hlookup : labels.lookup name with
      | none =>
        refine .inr ⟨.undefinedLabel name, ?_, .undefined hi hjumpName fun j hat => ?_⟩
        · simp [target, hjump, hname, hlookup]
        · rw [(hfound name j).mpr hat] at hlookup
          cases hlookup
      | some index =>
        refine .inl ⟨some index, target_of_jump hjumpName hlookup, fun j => ?_, fun fault hfault => ?_⟩
        · rw [← hlookup, hfound]
          simp [hjumpName]
        · rcases hfault.inv hi with ⟨-, ⟨hnone, -⟩ | ⟨other, hother, hnowhere, -⟩⟩
          · rw [hname] at hnone
            cases hnone
          · obtain rfl : name = other := Option.some.inj (hjumpName.symm.trans hother)
            exact hnowhere index ((hfound name index).mp hlookup)
  · have hnot : i.opcode.isJump = false := by simpa using hjump
    refine .inl ⟨none, target_of_not_jump hnot, fun j => ?_, fun fault hfault => ?_⟩
    · simp [Instruction.jumpName?, hnot]
    · exact hjump (hfault.inv hi).1

/-- By induction on what is left: either all jumps are resolved, or the first one at fault is found. -/
theorem targets_scanned (h : labels.Scanned instructions instructions.length)
    (hclean : ∀ k < index, ∀ fault, ¬JumpFault instructions k fault) (hrest : instructions.drop index = rest) :
    (∃ table, labels.targets rest = .ok table ∧ ∀ k fault, ¬JumpFault instructions k fault) ∨
      ∃ fault, labels.targets rest = .error fault ∧ First (JumpFault instructions) fault := by
  induction rest generalizing index with
  | nil =>
    refine .inl ⟨[], rfl, fun k fault hfault => ?_⟩
    have hend : instructions.length ≤ index := List.drop_eq_nil_iff.mp hrest
    exact hclean k (Nat.lt_of_lt_of_le hfault.lt hend) fault hfault
  | cons i rest ih =>
    obtain ⟨hi, hrest⟩ := getElem?_of_drop hrest
    rw [targets]
    rcases target_scanned h hi with ⟨target, htarget, -, hhere⟩ | ⟨fault, htarget, hfault⟩
    · have hclean' : ∀ k < index + 1, ∀ fault, ¬JumpFault instructions k fault := by
        intro k hk
        rcases Nat.lt_succ_iff_lt_or_eq.mp hk with hk | rfl
        · exact hclean k hk
        · exact hhere
      rw [Except.bind_ok htarget]
      rcases ih hclean' hrest with ⟨table, htable, hall⟩ | ⟨fault, herror, hfirst⟩
      · exact .inl ⟨target :: table, by rw [Except.bind_ok htable]; rfl, hall⟩
      · exact .inr ⟨fault, by rw [herror]; rfl, hfirst⟩
    · exact .inr ⟨fault, by rw [htarget]; rfl, index, hfault, hclean⟩

end Labels

/-- Resolution knows all labels and resolves all jumps, or says what is wrong first. -/
theorem jumpTable_cases (instructions : List Instruction) :
    (∃ (labels : Labels) (table : List (Option Nat)), jumpTable instructions = .ok table ∧
      labels.targets instructions = .ok table ∧ labels.Scanned instructions instructions.length ∧
      ∀ k fault, ¬JumpFault instructions k fault) ∨
    ∃ fault, jumpTable instructions = .error fault ∧ ResolutionFault instructions fault := by
  rcases Labels.collect_scanned (Labels.scanned_nil instructions) rfl with
    ⟨labels, hlabels, hscanned⟩ | ⟨fault, herror, hfirst⟩
  · have heq : jumpTable instructions = labels.targets instructions := Except.bind_ok hlabels
    have hnone : ∀ k < 0, ∀ fault, ¬JumpFault instructions k fault := fun k hk => absurd hk (Nat.not_lt_zero k)
    rcases Labels.targets_scanned hscanned hnone rfl with ⟨table, htable, hall⟩ | ⟨fault, herror, hfirst⟩
    · exact .inl ⟨labels, table, heq.trans htable, htable, hscanned, hall⟩
    · exact .inr ⟨fault, heq.trans herror, .inr ⟨hscanned.no_fault, hfirst⟩⟩
  · refine .inr ⟨fault, ?_, .inl hfirst⟩
    have herror : Labels.collect [] 0 instructions = .error fault := herror
    rw [jumpTable, herror]
    rfl

section

variable {instructions : List Instruction} {table : List (Option Nat)} {fault : Fault}

theorem jumpTable_eq_error_iff : jumpTable instructions = .error fault ↔ ResolutionFault instructions fault := by
  rcases jumpTable_cases instructions with ⟨labels, table, hok, -, hscanned, hclean⟩ | ⟨found, herror, hfound⟩
  · rw [hok]
    constructor
    · nofun
    · rintro (hfirst | ⟨-, hfirst⟩)
      · exact absurd hscanned.no_fault hfirst.not_clean
      · exact absurd hclean hfirst.not_clean
  · rw [herror]
    constructor
    · intro heq
      cases heq
      exact hfound
    · intro hfault
      rw [hfound.unique hfault]

/-- Labels that were all known and gave the table. -/
theorem exists_scanned_of_jumpTable (h : jumpTable instructions = .ok table) :
    ∃ labels : Labels, labels.targets instructions = .ok table ∧ labels.Scanned instructions instructions.length ∧
      ∀ k fault, ¬JumpFault instructions k fault := by
  rcases jumpTable_cases instructions with ⟨labels, table', hok, htargets, hscanned, hjumps⟩ | ⟨fault, herror, -⟩
  · obtain rfl : table = table' := Except.ok.inj (h.symm.trans hok)
    exact ⟨labels, htargets, hscanned, hjumps⟩
  · rw [h] at herror
    cases herror

/-- What is in the table: for a jump, the index of its label. -/
theorem jumpTable_entry (h : jumpTable instructions = .ok table) {k : Nat} {i : Instruction}
    (hi : instructions[k]? = some i) :
    ∃ target, table[k]? = some target ∧
      ∀ j, target = some j ↔ ∃ name, i.jumpName? = some name ∧ LabelAt instructions j name := by
  obtain ⟨labels, htargets, hscanned, hjumps⟩ := exists_scanned_of_jumpTable h
  obtain ⟨target, htarget, hentry⟩ := Labels.targets_getElem? htargets hi
  rcases Labels.target_scanned hscanned hi with ⟨target', htarget', hiff, -⟩ | ⟨fault, -, hfault⟩
  · obtain rfl : target = target' := Except.ok.inj (htarget.symm.trans htarget')
    exact ⟨target, hentry, hiff⟩
  · exact absurd hfault (hjumps k fault)

theorem length_jumpTable (h : jumpTable instructions = .ok table) : table.length = instructions.length := by
  obtain ⟨labels, -, htargets⟩ := Except.bind_eq_ok.mp h
  exact Labels.targets_length htargets

/-- What was resolved has names for all labels and jumps, each label its own, and no jump to anywhere else. -/
theorem inOrder_of_jumpTable (h : jumpTable instructions = .ok table) :
    (∀ i ∈ instructions, i.Named) ∧ (definedLabels instructions).Nodup ∧
      ∀ i ∈ instructions, ∀ name, i.jumpName? = some name → name ∈ definedLabels instructions := by
  obtain ⟨labels, -, hscanned, hjumps⟩ := exists_scanned_of_jumpTable h
  exact ⟨fun i hi => named_of_clean hscanned.no_fault hjumps hi, nodup_of_clean hscanned.no_fault,
    fun i hi name hname => defined_of_clean hjumps hi hname⟩

end

/-- Instructions are resolved just if labels and jumps have names, no two labels have the same and every jump has one of
a label. Then every jump has the index of its label, and nothing else has an index. Otherwise what is reported is what
is wrong first, with the labels before the jumps; a label that is repeated is reported with the only one of that name
before it. A run of such instructions executes none and leaves its channels as they are. -/
theorem jumpTable_exact (instructions : List Instruction) :
    ((∃ table, jumpTable instructions = .ok table) ↔
      (∀ i ∈ instructions, i.Named) ∧ (definedLabels instructions).Nodup ∧
        ∀ i ∈ instructions, ∀ name, i.jumpName? = some name → name ∈ definedLabels instructions) ∧
    (∀ table, jumpTable instructions = .ok table → table.length = instructions.length ∧
      ∀ (k : Nat) (i : Instruction), instructions[k]? = some i → ∃ target, table[k]? = some target ∧
        ∀ j, target = some j ↔ ∃ name, i.jumpName? = some name ∧ LabelAt instructions j name) ∧
    (∀ fault, jumpTable instructions = .error fault ↔ ResolutionFault instructions fault) ∧
    (∀ name first second, jumpTable instructions = .error (.duplicateLabel name first second) →
      ∀ k, k < second ∧ LabelAt instructions k name ↔ k = first) ∧
    (∀ fault, jumpTable instructions = .error fault → ∀ (m : Machine) (fuel : Nat),
      m.executed fuel instructions = [] ∧ ∃ left, m.run? fuel instructions = some ⟨.error fault, left⟩ ∧
        left.stack = .empty ∧ left.world.store = .empty ∧ left.world.sink = m.world.sink ∧
        left.world.input = m.world.input) := by
  refine ⟨⟨?_, ?_⟩, ?_, fun fault => jumpTable_eq_error_iff, ?_, ?_⟩
  · rintro ⟨table, hok⟩
    obtain ⟨labels, -, hscanned, hjumps⟩ := exists_scanned_of_jumpTable hok
    exact ⟨fun i hi => named_of_clean hscanned.no_fault hjumps hi, nodup_of_clean hscanned.no_fault,
      fun i hi name hname => defined_of_clean hjumps hi hname⟩
  · rintro ⟨hnamed, hnodup, hdefined⟩
    obtain ⟨image, hlink⟩ := Image.link_ok hnamed hnodup hdefined
    obtain ⟨table, htable, -⟩ := Except.bind_eq_ok.mp hlink
    exact ⟨table, htable⟩
  · intro table hok
    obtain ⟨labels, htargets, -, -⟩ := exists_scanned_of_jumpTable hok
    exact ⟨Labels.targets_length htargets, fun k i hi => jumpTable_entry hok hi⟩
  · intro name first second herror k
    rcases jumpTable_eq_error_iff.mp herror with ⟨index, hfault, hclean⟩ | ⟨-, index, hfault, -⟩
    · cases hfault with
      | repeated here earlier there =>
        constructor
        · rintro ⟨hk, hat⟩
          exact hat.unique hclean there hk earlier
        · rintro rfl
          exact ⟨earlier, there⟩
    · cases hfault
  · intro fault herror m fuel
    have hlink : Image.link instructions = .error fault := by
      rw [Image.link, herror]
      rfl
    refine ⟨?_, m.reset, ?_, rfl, rfl, rfl, rfl⟩
    · simp only [Machine.executed, hlink]
    · simp only [Machine.run?, hlink]

/-- A jump forth and a jump back. -/
def crossing : List Instruction :=
  [⟨.label, none, some "top"⟩, ⟨.fjmp, none, some "end"⟩, ⟨.jmp, none, some "top"⟩, ⟨.label, none, some "end"⟩]

/-- Faults of each cause: a name that is given three times, a label without name and jumps to nowhere. -/
def entangled : List Instruction :=
  [⟨.jmp, none, some "end"⟩, ⟨.label, none, some "top"⟩, ⟨.fjmp, none, none⟩, ⟨.label, none, some "top"⟩,
    ⟨.label, none, none⟩, ⟨.label, none, some "top"⟩]

theorem jumpTable_exact_entangled :
    (∀ j, LabelAt crossing j "end" ↔ j = 3) ∧ ResolutionFault entangled (.duplicateLabel "top" 1 3) ∧
    (∀ k, k < 3 ∧ LabelAt entangled k "top" ↔ k = 1) ∧ (Machine.new [] .unbounded 8).executed 5 entangled = [] := by
  have hcrossing : jumpTable crossing = .ok [none, some 3, some 0, none] := rfl
  have herror : jumpTable entangled = .error (.duplicateLabel "top" 1 3) := rfl
  obtain ⟨-, hentries, -⟩ := jumpTable_exact crossing
  obtain ⟨-, -, hiff, honly, hrun⟩ := jumpTable_exact entangled
  refine ⟨fun j => ?_, (hiff _).mp herror, honly _ _ _ herror, (hrun _ herror _ 5).1⟩
  obtain ⟨target, htarget, hlabel⟩ := (hentries _ hcrossing).2 1 ⟨.fjmp, none, some "end"⟩ rfl
  cases htarget
  simpa [Instruction.jumpName?, Opcode.isJump, eq_comm] using (hlabel j).symm

end StackMachine
