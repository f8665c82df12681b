import StackMachine.Machine.Run
import StackMachine.Proofs.Actions

/-! Linked code.

Linking gives every jump the index of its label. `Image.Holds` says that code stands in an image at some index with its
jumps resolved; it passes to the parts of the code, so code can be followed piece by piece. Linking succeeds when all
labels have a name, no name is given twice and every jump names one of them. -/

namespace StackMachine

namespace Instruction

/-- The name that a label gives to its place. -/
def labelName? (i : Instruction) : Option String :=
  if i.opcode = .label then i.operand else none

/-- The name of the place that a jump goes to. -/
def jumpName? (i : Instruction) : Option String :=
  if i.opcode.isJump then i.operand else none

/-- A label or a jump has a name. -/
def Named (i : Instruction) : Prop :=
  i.opcode = .label ∨ i.opcode.isJump → i.operand.isSome

end Instruction

/-- What linking may give an instruction to jump to: if it is a jump, the index of a label, and otherwise nothing. -/
def Instruction.Resolves (instructions : List Instruction) (i : Instruction) (target : Option Nat) : Prop :=
  target.isSome = i.opcode.isJump ∧
    ∀ index ∈ target, ∃ label, instructions[index]? = some label ∧ label.opcode = .label

/-- The names that labels give, in the order of the code. -/
def definedLabels (instructions : List Instruction) : List String :=
  instructions.filterMap Instruction.labelName?

@[simp] theorem definedLabels_nil : definedLabels [] = [] := rfl

theorem definedLabels_cons (i : Instruction) (rest : List Instruction) :
    definedLabels (i :: rest) = i.labelName?.toList ++ definedLabels rest := by
  cases h : i.labelName? <;> simp [definedLabels, h]

@[simp] theorem definedLabels_append (first second : List Instruction) :
    definedLabels (first ++ second) = definedLabels first ++ definedLabels second :=
  List.filterMap_append

/-- Code stands in an image from an index on: its instructions are decoded there with the targets that `labels` gives
them, and its labels are where `labels` says. -/
def Image.Holds (image : Image) (labels : Labels) (start : Nat) (code : List Instruction) : Prop :=
  ∀ k i, code[k]? = some i →
    (∃ target, labels.target i = .ok target ∧ image.operations[start + k]? = some (i.decode target)) ∧
    ∀ name, i.labelName? = some name → labels.lookup name = some (start + k)

namespace Image.Holds

variable {image : Image} {labels : Labels} {start : Nat} {i : Instruction} {first second code : List Instruction}

theorem left (h : image.Holds labels start (first ++ second)) : image.Holds labels start first := by
  intro k i hi
  obtain ⟨hk, -⟩ := List.getElem?_eq_some_iff.mp hi
  exact h k i (by rwa [List.getElem?_append_left hk])

theorem right (h : image.Holds labels start (first ++ second)) : image.Holds labels (start + first.length) second := by
  intro k i hi
  have h' := h (first.length + k) i (by rwa [List.getElem?_append_right (Nat.le_add_right _ _), Nat.add_sub_cancel_left])
  rwa [Nat.add_assoc]

theorem tail (h : image.Holds labels start (i :: code)) : image.Holds labels (start + 1) code :=
  right (show image.Holds labels start ([i] ++ code) from h)

theorem decoded (h : image.Holds labels start (i :: code)) :
    ∃ target, labels.target i = .ok target ∧ image.operations[start]? = some (i.decode target) :=
  (h 0 i rfl).1

theorem defined (h : image.Holds labels start (i :: code)) {name : String} (hi : i.labelName? = some name) :
    labels.lookup name = some start :=
  (h 0 i rfl).2 name hi

end Image.Holds

/-! ### Collecting labels -/

/-- What is found under a name stands there. -/
theorem mem_of_lookup {α : Type} {entries : List (String × α)} {name : String} {a : α}
    (h : entries.lookup name = some a) : (name, a) ∈ entries := by
  obtain ⟨before, behind, hsplit, -⟩ := List.lookup_eq_some_iff.mp h
  simp [hsplit]

namespace Labels

variable {labels labels' : Labels} {index k : Nat} {i : Instruction} {instructions : List Instruction} {name : String}

theorem lookup_cons (other : String) (index : Nat) :
    List.lookup name ((other, index) :: labels) = if name = other then some index else labels.lookup name := by
  by_cases h : name = other
  · simp [h]
  · have hne : (name == other) = false := by simpa using h
    simp [List.lookup_cons, h, hne]

/-- A label that is known is never given another index. -/
theorem lookup_collect (h : collect labels index instructions = .ok labels') (hl : labels.lookup name = some k) :
    labels'.lookup name = some k := by
  induction instructions generalizing labels index with
  | nil =>
    cases h
    exact hl
  | cons i rest ih =>
    rw [collect] at h
    split at h
    · split at h
      · cases h
      · split at h
        · cases h
        · rename_i other _ _ hnone
          refine ih h ?_
          have hne : name ≠ other := by
            rintro rfl
            rw [hl] at hnone
            cases hnone
          rw [lookup_cons, if_neg hne, hl]
    · exact ih h hl

theorem lookup_collect_label (h : collect labels index instructions = .ok labels')
    (hi : instructions[k]? = some i) (hn : i.labelName? = some name) : labels'.lookup name = some (index + k) := by
  induction instructions generalizing labels index k with
  | nil => cases hi
  | cons i' rest ih =>
    rw [collect] at h
    cases k with
    | zero =>
      obtain rfl : i' = i := by simpa using hi
      unfold Instruction.labelName? at hn
      split at hn
      · rename_i hop
        rw [if_pos hop, hn] at h
        dsimp only at h
        split at h
        · cases h
        · exact lookup_collect h (by rw [lookup_cons, if_pos rfl, Nat.add_zero])
      · cases hn
    | succ k =>
      have hi : rest[k]? = some i := by simpa using hi
      rw [Nat.add_comm k 1, ← Nat.add_assoc]
      split at h
      · split at h
        · cases h
        · split at h
          · cases h
          · exact ih h hi
      · exact ih h hi

/-- A label that is found was known before or stands in the code. -/
theorem exists_label_of_lookup (h : collect labels index instructions = .ok labels') (hl : labels'.lookup name = some k) :
    labels.lookup name = some k ∨ ∃ j i, k = index + j ∧ instructions[j]? = some i ∧ i.opcode = .label := by
  induction instructions generalizing labels index with
  | nil =>
    cases h
    exact .inl hl
  | cons i rest ih =>
    have hlater : (∃ j i', k = index + 1 + j ∧ rest[j]? = some i' ∧ i'.opcode = .label) →
        ∃ j i', k = index + j ∧ (i :: rest)[j]? = some i' ∧ i'.opcode = .label := by
      rintro ⟨j, i', rfl, hi', hlabel⟩
      exact ⟨j + 1, i', Nat.add_right_comm index 1 j, hi', hlabel⟩
    rw [collect] at h
    split at h
    · rename_i hlabel
      split at h
      · cases h
      · split at h
        · cases h
        · rename_i other _ _ _
          rcases ih h with hknown | hlater'
          · rw [lookup_cons] at hknown
            split at hknown
            · cases hknown
              exact .inr ⟨0, i, rfl, rfl, hlabel⟩
            · exact .inl hknown
          · exact .inr (hlater hlater')
    · exact (ih h).imp id hlater

theorem collect_ok (named : ∀ i ∈ instructions, i.Named) (nodup : (definedLabels instructions).Nodup)
    (fresh : ∀ name ∈ definedLabels instructions, labels.lookup name = none) :
    ∃ labels', collect labels index instructions = .ok labels' := by
  induction instructions generalizing labels index with
  | nil => exact ⟨labels, rfl⟩
  | cons i rest ih =>
    have named' : ∀ i ∈ rest, i.Named := fun i hi => named i (List.mem_cons_of_mem _ hi)
    rw [collect]
    by_cases hop : i.opcode = .label
    · obtain ⟨name, hname⟩ := Option.isSome_iff_exists.mp (named i List.mem_cons_self (Or.inl hop))
      have hlabels : definedLabels (i :: rest) = name :: definedLabels rest := by
        simp [definedLabels, Instruction.labelName?, hop, hname]
      rw [hlabels] at nodup fresh
      rw [if_pos hop, hname]
      dsimp only
      rw [fresh name List.mem_cons_self]
      refine ih named' (List.nodup_cons.mp nodup).2 fun other hother => ?_
      have hne : other ≠ name := by
        rintro rfl
        exact (List.nodup_cons.mp nodup).1 hother
      rw [lookup_cons, if_neg hne]
      exact fresh other (List.mem_cons_of_mem _ hother)
    · have hlabels : definedLabels (i :: rest) = definedLabels rest := by
        simp [definedLabels, Instruction.labelName?, hop]
      rw [hlabels] at nodup fresh
      rw [if_neg hop]
      exact ih named' nodup fresh

/-! ### Targets -/

theorem target_of_jump (hi : i.jumpName? = some name) (hl : labels.lookup name = some k) :
    labels.target i = .ok (some k) := by
  unfold Instruction.jumpName? at hi
  split at hi
  · rename_i hop
    simp only [target, hop, if_true, hi, hl]
  · cases hi

theorem target_of_not_jump (hi : i.opcode.isJump = false) : labels.target i = .ok none := by
  rw [target, hi]
  rfl

/-- Only a jump has a target. -/
theorem isSome_of_target {target : Option Nat} (h : labels.target i = .ok target) : target.isSome = i.opcode.isJump := by
  unfold Labels.target at h
  split at h
  · rename_i hjump
    split at h
    · cases h
    · split at h <;> cases h
      exact hjump.symm
  · rename_i hjump
    cases h
    exact (Bool.eq_false_iff.mpr hjump).symm

theorem lookup_of_target (h : labels.target i = .ok (some k)) : ∃ name, labels.lookup name = some k := by
  unfold Labels.target at h
  split at h
  · split at h
    · cases h
    · rename_i name _
      split at h
      · rename_i hfound
        cases h
        exact ⟨name, hfound⟩
      · cases h
  · cases h

theorem targets_length {table : List (Option Nat)} (h : labels.targets instructions = .ok table) :
    table.length = instructions.length := by
  induction instructions generalizing table with
  | nil =>
    cases h
    rfl
  | cons i rest ih =>
    obtain ⟨index, -, h⟩ := Except.bind_eq_ok.mp h
    obtain ⟨others, hothers, h⟩ := Except.bind_eq_ok.mp h
    cases h
    rw [List.length_cons, List.length_cons, ih hothers]

theorem targets_getElem? {table : List (Option Nat)} (h : labels.targets instructions = .ok table)
    (hi : instructions[k]? = some i) : ∃ target, labels.target i = .ok target ∧ table[k]? = some target := by
  induction instructions generalizing table k with
  | nil => cases hi
  | cons i' rest ih =>
    obtain ⟨index, hindex, h⟩ := Except.bind_eq_ok.mp h
    obtain ⟨others, hothers, h⟩ := Except.bind_eq_ok.mp h
    cases h
    cases k with
    | zero =>
      obtain rfl : i' = i := by simpa using hi
      exact ⟨index, hindex, rfl⟩
    | succ k =>
      obtain ⟨target, ht, hk⟩ := ih hothers (k := k) (by simpa using hi)
      exact ⟨target, ht, by simpa using hk⟩

theorem targets_ok (h : ∀ i ∈ instructions, ∃ target, labels.target i = .ok target) :
    ∃ table, labels.targets instructions = .ok table := by
  induction instructions with
  | nil => exact ⟨[], rfl⟩
  | cons i rest ih =>
    obtain ⟨target, ht⟩ := h i List.mem_cons_self
    obtain ⟨table, htable⟩ := ih fun i hi => h i (List.mem_cons_of_mem _ hi)
    exact ⟨target :: table, by rw [targets, Except.bind_ok ht, Except.bind_ok htable]; rfl⟩

end Labels

/-! ### Images -/

namespace Image

variable {image : Image} {instructions : List Instruction}

theorem link_holds (h : link instructions = .ok image) :
    ∃ labels, image.Holds labels 0 instructions ∧ image.operations.size = instructions.length := by
  obtain ⟨table, htable, h⟩ := Except.bind_eq_ok.mp h
  obtain ⟨labels, hlabels, htable⟩ := Except.bind_eq_ok.mp htable
  cases h
  refine ⟨labels, fun k i hi => ⟨?_, fun name hn => Labels.lookup_collect_label hlabels hi hn⟩, ?_⟩
  · obtain ⟨target, ht, hk⟩ := Labels.targets_getElem? htable hi
    refine ⟨target, ht, ?_⟩
    simp [List.getElem?_zipWith, hi, hk]
  · simp [Labels.targets_length htable]

/-- What is at an index of an image is the operation of the instruction there, and jumps go to labels. -/
theorem exists_of_operation (h : link instructions = .ok image) {k : Nat} {decoded : Except Fault Operation}
    (hop : image.operations[k]? = some decoded) :
    ∃ i target, instructions[k]? = some i ∧ i.Resolves instructions target ∧ i.decode target = decoded := by
  obtain ⟨table, htable, h⟩ := Except.bind_eq_ok.mp h
  obtain ⟨labels, hlabels, htable⟩ := Except.bind_eq_ok.mp htable
  cases h
  have hop : (instructions.zipWith Instruction.decode table)[k]? = some decoded := by simpa using hop
  obtain ⟨i, target, hi, htarget, hdecoded⟩ := List.getElem?_zipWith_eq_some.mp hop
  obtain ⟨target', ht, hk⟩ := Labels.targets_getElem? htable hi
  obtain rfl : target = target' := Option.some.inj (htarget.symm.trans hk)
  refine ⟨i, target, hi, ⟨Labels.isSome_of_target ht, fun index hindex => ?_⟩, hdecoded⟩
  obtain rfl : target = some index := hindex
  obtain ⟨name, hname⟩ := Labels.lookup_of_target ht
  rcases Labels.exists_label_of_lookup hlabels hname with hnone | ⟨j, label, rfl, hlabel, hopcode⟩
  · cases hnone
  · exact ⟨label, by rwa [Nat.zero_add], hopcode⟩

theorem link_ok (named : ∀ i ∈ instructions, i.Named) (nodup : (definedLabels instructions).Nodup)
    (jumps : ∀ i ∈ instructions, ∀ name, i.jumpName? = some name → name ∈ definedLabels instructions) :
    ∃ image, link instructions = .ok image := by
  obtain ⟨labels, hlabels⟩ : ∃ labels, Labels.collect [] 0 instructions = .ok labels :=
    Labels.collect_ok named nodup fun _ _ => rfl
  have known : ∀ name ∈ definedLabels instructions, ∃ k, labels.lookup name = some k := by
    intro name hname
    obtain ⟨i, hi, hn⟩ := List.mem_filterMap.mp hname
    obtain ⟨k, hk⟩ := List.getElem?_of_mem hi
    exact ⟨_, Labels.lookup_collect_label hlabels hk hn⟩
  have resolved : ∀ i ∈ instructions, ∃ target, labels.target i = .ok target := by
    intro i hi
    cases hop : i.opcode.isJump with
    | false => exact ⟨none, Labels.target_of_not_jump hop⟩
    | true =>
      obtain ⟨name, hname⟩ := Option.isSome_iff_exists.mp (named i hi (Or.inr hop))
      have hj : i.jumpName? = some name := by rw [Instruction.jumpName?, hop, if_pos rfl, hname]
      obtain ⟨k, hk⟩ := known name (jumps i hi name hj)
      exact ⟨some k, Labels.target_of_jump hj hk⟩
  obtain ⟨table, htable⟩ := Labels.targets_ok resolved
  exact ⟨_, by rw [link, jumpTable, Except.bind_ok hlabels, Except.bind_ok htable]; rfl⟩

end Image

theorem checkLabels_eq_link (instructions : List Instruction) :
    checkLabels instructions = (Image.link instructions).map fun _ => () := by
  unfold checkLabels Image.link
  cases jumpTable instructions <;> rfl

theorem checkLabels_of_link {instructions : List Instruction} {image : Image}
    (h : Image.link instructions = .ok image) : checkLabels instructions = .ok () := by
  rw [checkLabels_eq_link, h]
  rfl

theorem Image.link_of_checkLabels {instructions : List Instruction} (h : checkLabels instructions = .ok ()) :
    ∃ image, link instructions = .ok image := by
  rw [checkLabels_eq_link] at h
  obtain ⟨image, hlink, -⟩ := Except.map_eq_ok.mp h
  exact ⟨image, hlink⟩

/-! ### Faults -/

/-- The faults of instructions that cannot be linked. -/
def Fault.OfLinking : Fault → Prop
  | .missingOperand _ | .undefinedLabel _ | .duplicateLabel _ _ _ => True
  | _ => False

theorem Labels.ofLinking_of_collect {labels : Labels} {index : Nat} {instructions : List Instruction} {fault : Fault}
    (h : collect labels index instructions = .error fault) : fault.OfLinking := by
  induction instructions generalizing labels index with
  | nil => cases h
  | cons i rest ih =>
    rw [collect] at h
    split at h
    · split at h
      · cases h
        trivial
      · split at h
        · cases h
          trivial
        · exact ih h
    · exact ih h

theorem Labels.ofLinking_of_targets {labels : Labels} {instructions : List Instruction} {fault : Fault}
    (h : labels.targets instructions = .error fault) : fault.OfLinking := by
  induction instructions with
  | nil => cases h
  | cons i rest ih =>
    rcases Except.bind_eq_error.mp h with h | ⟨target, -, h⟩
    · unfold target at h
      split at h
      · split at h
        · cases h
          trivial
        · split at h <;> cases h
          trivial
      · cases h
    · rcases Except.bind_eq_error.mp h with h | ⟨others, -, h⟩
      · exact ih h
      · cases h

theorem Image.ofLinking_of_link {instructions : List Instruction} {fault : Fault}
    (h : link instructions = .error fault) : fault.OfLinking := by
  rcases Except.bind_eq_error.mp h with h | ⟨table, -, h⟩
  · rcases Except.bind_eq_error.mp h with h | ⟨labels, -, h⟩
    · exact Labels.ofLinking_of_collect h
    · exact Labels.ofLinking_of_targets h
  · cases h

end StackMachine
