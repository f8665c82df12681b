import StackMachine.Proofs.LabelResolution

/-! Code behind code.

Two lists of instructions that are each in order, and that have no label in common, are in order one behind the other.
Linked together they are the image of the first and behind it the image of the second, whose jumps go further by the
length of the first (`Image.link_append`). The first never jumps out of itself, so a run of both is a run of the first
and, if that comes to its end, a run of the second on the machine that is there by then. Main statement:
`Machine.run_in_sequence`. -/

namespace StackMachine

/-! ### Jumps that go further -/

def Operation.shift (n : Nat) : Operation → Operation
  | .jump target => .jump (n + target)
  | .branch target => .branch (n + target)
  | operation => operation

def Flow.shift (n : Nat) : Flow → Flow
  | .next => .next
  | .goto index => .goto (n + index)

def Progress.shift (n : Nat) : Progress → Progress
  | .running index m => .running (n + index) m
  | progress => progress

theorem Operation.shift_of_target? {operation : Operation} (n : Nat) (h : operation.target? = none) :
    operation.shift n = operation := by
  cases operation with
  | jump | branch => cases h
  | _ => rfl

namespace Instruction

variable {i : Instruction}

/-- Only a jump is decoded with its target. -/
theorem decode_of_not_jump (h : i.opcode.isJump = false) (target target' : Option Nat) :
    i.decode target = i.decode target' := by
  obtain ⟨opcode, kind, operand⟩ := i
  cases opcode
  case jmp | fjmp => cases h
  all_goals rfl

theorem decode_shift (n : Nat) (i : Instruction) (target : Option Nat) :
    i.decode (target.map (n + ·)) = (i.decode target).map (Operation.shift n) := by
  cases hjump : i.opcode.isJump with
  | false =>
    rw [decode_of_not_jump hjump _ none, decode_of_not_jump hjump target none]
    cases hdecode : i.decode none with
    | error fault => rfl
    | ok operation =>
      have htarget : operation.target? = none := by
        rw [Option.eq_none_iff_forall_ne_some]
        intro index hindex
        cases target_of_decode hdecode hindex
      rw [Except.map, operation.shift_of_target? n htarget]
  | true =>
    obtain ⟨opcode, kind, operand⟩ := i
    cases opcode
    case jmp | fjmp => cases target <;> rfl
    all_goals cases hjump

end Instruction

/-- An operation whose jumps go further does the same to the machine and then goes on further. -/
theorem Exec.perform_shift (n : Nat) (operation : Operation) (m : Machine) :
    perform (operation.shift n) m =
      match perform operation m with
      | .ok flow m₁ => .ok (flow.shift n) m₁
      | .error fault m₁ => .error fault m₁ := by
  cases htarget : operation.target? with
  | none =>
    rw [operation.shift_of_target? n htarget]
    cases hp : perform operation m with
    | error fault m₁ => rfl
    | ok flow m₁ =>
      rcases (perform_eq_ok hp).flow with rfl | ⟨target, htarget', -⟩
      · rfl
      · rw [htarget] at htarget'
        cases htarget'
  | some target =>
    cases operation
    case jump target => rfl
    case branch target =>
      rw [Operation.shift, perform, perform]
      cases hpop : pop .fjmp m with
      | error fault m₁ => rw [Action.bind_error hpop, Action.bind_error hpop]
      | ok v m₁ =>
        rw [Action.bind_ok hpop, Action.bind_ok hpop]
        rcases v.truthy? with _ | (_ | _) <;> rfl
    all_goals cases htarget

/-! ### Linking -/

section

variable {first second : List Instruction} {table table' : List (Option Nat)} {k : Nat} {name : String}

theorem labelAt_append :
    LabelAt (first ++ second) k name ↔
      LabelAt first k name ∨ ∃ j, k = first.length + j ∧ LabelAt second j name := by
  rcases Nat.lt_or_ge k first.length with hk | hk
  · have hhere : LabelAt (first ++ second) k name ↔ LabelAt first k name := by
      simp only [LabelAt, List.getElem?_append_left hk]
    rw [hhere]
    refine ⟨.inl, fun h => h.resolve_right ?_⟩
    rintro ⟨j, rfl, -⟩
    exact Nat.not_lt.mpr (Nat.le_add_right _ j) hk
  · obtain ⟨j, rfl⟩ := Nat.exists_eq_add_of_le hk
    have hhere : LabelAt (first ++ second) (first.length + j) name ↔ LabelAt second j name := by
      simp only [LabelAt, List.getElem?_append_right hk, Nat.add_sub_cancel_left]
    rw [hhere]
    constructor
    · intro h
      exact .inr ⟨j, rfl, h⟩
    · rintro (h | ⟨j', hj', h⟩)
      · exact absurd h.lt (Nat.not_lt.mpr hk)
      · rwa [Nat.add_left_cancel hj']

/-- Entries that are what those of the jump table must be are those of the jump table. -/
theorem jumpTable_of_entries {instructions : List Instruction} (hok : ∃ whole, jumpTable instructions = .ok whole)
    (hlength : table.length = instructions.length)
    (hentries : ∀ (k : Nat) (i : Instruction), instructions[k]? = some i → ∃ target, table[k]? = some target ∧
      ∀ j, target = some j ↔ ∃ name, i.jumpName? = some name ∧ LabelAt instructions j name) :
    jumpTable instructions = .ok table := by
  obtain ⟨whole, hwhole⟩ := hok
  rw [hwhole, Except.ok.injEq]
  refine List.ext_getElem? fun k => ?_
  cases hi : instructions[k]? with
  | none =>
    have hend : instructions.length ≤ k := List.getElem?_eq_none_iff.mp hi
    rw [List.getElem?_eq_none (length_jumpTable hwhole ▸ hend), List.getElem?_eq_none (hlength ▸ hend)]
  | some i =>
    obtain ⟨target, htarget, hiff⟩ := hentries k i hi
    obtain ⟨target', htarget', hiff'⟩ := jumpTable_entry hwhole hi
    have heq : target = target' := Option.ext fun j => (hiff j).trans (hiff' j).symm
    rw [htarget, htarget', heq]

section

variable (h : jumpTable first = .ok table) (h' : jumpTable second = .ok table')
  (hapart : ∀ name ∈ definedLabels first, name ∉ definedLabels second)

include h h' hapart

/-- The two parts are in order, and so is the whole. -/
theorem exists_jumpTable_append : ∃ whole, jumpTable (first ++ second) = .ok whole := by
  obtain ⟨hnamed, hnodup, hdefined⟩ := inOrder_of_jumpTable h
  obtain ⟨hnamed', hnodup', hdefined'⟩ := inOrder_of_jumpTable h'
  have hlink : ∃ image, Image.link (first ++ second) = .ok image := by
    refine Image.link_ok (fun i hi => ?_) ?_ fun i hi name hname => ?_
    · exact (List.mem_append.mp hi).elim (hnamed i) (hnamed' i)
    · rw [definedLabels_append, List.nodup_append]
      exact ⟨hnodup, hnodup', fun a ha b hb hab => hapart a ha (hab ▸ hb)⟩
    · rw [definedLabels_append, List.mem_append]
      exact (List.mem_append.mp hi).imp (hdefined i · name hname) (hdefined' i · name hname)
  obtain ⟨image, hlink⟩ := hlink
  obtain ⟨whole, hwhole, -⟩ := Except.bind_eq_ok.mp hlink
  exact ⟨whole, hwhole⟩

/-- Jumps of the first part go where they went, and those of the second go further by the length of the first. -/
theorem jumpTable_append :
    jumpTable (first ++ second) = .ok (table ++ table'.map (Option.map (first.length + ·))) := by
  obtain ⟨-, -, hdefined⟩ := inOrder_of_jumpTable h
  obtain ⟨-, -, hdefined'⟩ := inOrder_of_jumpTable h'
  have hlength := length_jumpTable h
  refine jumpTable_of_entries (exists_jumpTable_append h h' hapart) ?_ fun k i hi => ?_
  · simp [hlength, length_jumpTable h']
  rcases Nat.lt_or_ge k first.length with hk | hk
  · rw [List.getElem?_append_left hk] at hi
    obtain ⟨target, htarget, hiff⟩ := jumpTable_entry h hi
    refine ⟨target, by rwa [List.getElem?_append_left (hlength ▸ hk)], fun j => (hiff j).trans ?_⟩
    refine exists_congr fun name => and_congr_right fun hname => ?_
    have hmem := hdefined i (List.mem_of_getElem? hi) name hname
    rw [labelAt_append]
    refine ⟨.inl, fun hat => hat.resolve_right ?_⟩
    rintro ⟨j', -, hat⟩
    exact hapart name hmem (mem_definedLabels.mpr ⟨j', hat⟩)
  · obtain ⟨k, rfl⟩ := Nat.exists_eq_add_of_le hk
    rw [List.getElem?_append_right hk, Nat.add_sub_cancel_left] at hi
    obtain ⟨target, htarget, hiff⟩ := jumpTable_entry h' hi
    refine ⟨target.map (first.length + ·), ?_, fun j => ?_⟩
    · rw [List.getElem?_append_right (hlength ▸ hk), hlength, Nat.add_sub_cancel_left, List.getElem?_map, htarget]
      rfl
    · rw [Option.map_eq_some_iff]
      constructor
      · rintro ⟨j', hj', rfl⟩
        obtain ⟨name, hname, hat⟩ := (hiff j').mp hj'
        exact ⟨name, hname, labelAt_append.mpr (.inr ⟨j', rfl, hat⟩)⟩
      · rintro ⟨name, hname, hplace⟩
        have hmem := hdefined' i (List.mem_of_getElem? hi) name hname
        rcases labelAt_append.mp hplace with hat | ⟨j', rfl, hat⟩
        · exact absurd hmem (hapart name (mem_definedLabels.mpr ⟨j, hat⟩))
        · exact ⟨j', (hiff j').mpr ⟨name, hname, hat⟩, rfl⟩

end

end

/-- One image behind another, whose jumps still go to operations of its own. -/
def Image.andThen (first second : Image) : Image :=
  ⟨first.operations ++ second.operations.map (Except.map (Operation.shift first.operations.size))⟩

theorem Image.link_append {first second : List Instruction} {image image' : Image} (h : link first = .ok image)
    (h' : link second = .ok image') (hapart : ∀ name ∈ definedLabels first, name ∉ definedLabels second) :
    link (first ++ second) = .ok (image.andThen image') := by
  obtain ⟨table, htable, h⟩ := Except.bind_eq_ok.mp h
  obtain ⟨table', htable', h'⟩ := Except.bind_eq_ok.mp h'
  cases h
  cases h'
  have hlength := length_jumpTable htable
  have hsize : (first.zipWith Instruction.decode table).toArray.size = first.length := by simp [hlength]
  have hmoved : second.zipWith Instruction.decode (table'.map (Option.map (first.length + ·))) =
      (second.zipWith Instruction.decode table').map (Except.map (Operation.shift first.length)) := by
    rw [List.zipWith_map_right, List.map_zipWith]
    simp only [Instruction.decode_shift]
  rw [link, Except.bind_ok (jumpTable_append htable htable' hapart), List.zipWith_append hlength.symm, hmoved, andThen,
    hsize, List.map_toArray, List.append_toArray]
  rfl

/-! ### Steps and runs -/

namespace Image

variable {image image' : Image} {instructions : List Instruction} {n j k fuel : Nat} {m m₁ : Machine} {halt : Halt}

theorem step_andThen_left (image' : Image) (m : Machine) (h : j < image.operations.size) :
    (image.andThen image').step j m = image.step j m := by
  unfold step andThen
  rw [Array.getElem?_append_left h]

theorem step_andThen_right (image image' : Image) (j : Nat) (m : Machine) :
    (image.andThen image').step (image.operations.size + j) m = (image'.step j m).shift image.operations.size := by
  unfold step andThen
  rw [Array.getElem?_append_right (Nat.le_add_right _ j), Nat.add_sub_cancel_left, Array.getElem?_map]
  cases image'.operations[j]? with
  | none => rfl
  | some decoded =>
    cases decoded with
    | error fault => rfl
    | ok operation =>
      dsimp only [Option.map_some, Except.map]
      rw [Exec.perform_shift]
      cases Exec.perform operation m with
      | error fault m₁ => rfl
      | ok flow m₁ => cases flow <;> rfl

/-- Behind the first image, a run is one of the second. -/
theorem run?_andThen_right (image image' : Image) (fuel j : Nat) (m : Machine) :
    (image.andThen image').run? fuel (image.operations.size + j) m = image'.run? fuel j m := by
  induction fuel generalizing j m with
  | zero => rfl
  | succ fuel ih =>
    have hstep := image.step_andThen_right image' j m
    cases hs : image'.step j m with
    | running k m₁ =>
      rw [hs] at hstep
      rw [run?_of_running hs, run?_of_running hstep, ih]
    | finished m₁ =>
      rw [hs] at hstep
      rw [run?_of_finished hs, run?_of_finished hstep]
    | faulted fault m₁ =>
      rw [hs] at hstep
      rw [run?_of_faulted hs, run?_of_faulted hstep]

section

variable (hlink : link instructions = .ok image)

include hlink

/-- A step stays in the code or comes to its end. -/
theorem index_le_of_step (h : image.step j m = .running k m₁) :
    j < image.operations.size ∧ k ≤ image.operations.size := by
  obtain ⟨_, -, hsize⟩ := link_holds hlink
  obtain ⟨i, hi, hmoves⟩ := moves_of_step hlink h
  have hj := (List.getElem?_eq_some_iff.mp hi).1
  rw [hsize]
  refine ⟨hj, ?_⟩
  rcases hmoves.index with rfl | ⟨-, label, hlabel, -⟩
  · exact hj
  · exact Nat.le_of_lt (List.getElem?_eq_some_iff.mp hlabel).1

/-- By induction on the steps: in the first image, all goes as if the second were not there. -/
theorem Leads.andThen_left (image' : Image) (h : image.Leads n j m k m₁) (hj : j ≤ image.operations.size) :
    (image.andThen image').Leads n j m k m₁ ∧ k ≤ image.operations.size := by
  induction h with
  | refl j m => exact ⟨.refl j m, hj⟩
  | step first _ ih =>
    obtain ⟨hlt, hle⟩ := index_le_of_step hlink first
    obtain ⟨hrest, hk⟩ := ih hle
    exact ⟨.step ((step_andThen_left image' _ hlt).trans first) hrest, hk⟩

theorem run?_andThen_eq_none (image' : Image) (h : image.run? fuel 0 m = none) :
    (image.andThen image').run? fuel 0 m = none := by
  obtain ⟨j, m₁, hleads⟩ := run?_eq_none_iff.mp h
  exact run?_eq_none_iff.mpr ⟨j, m₁, (hleads.andThen_left hlink image' (Nat.zero_le _)).1⟩

/-- A run of the first image that ends by a fault is one of both, and behind one that comes to the end the second image
goes on. -/
theorem run?_andThen_cases (image' : Image) (h : image.run? fuel 0 m = some halt) :
    (∃ fault left, halt = Machine.abort left fault ∧ (image.andThen image').run? fuel 0 m = some halt) ∨
      ∃ n left, image.Leads n 0 m image.operations.size left ∧ halt = left.finish ∧
        ∀ more, (image.andThen image').run? (n + more) 0 m = image'.run? more 0 left := by
  obtain ⟨_, -, hsize⟩ := link_holds hlink
  obtain ⟨n, j, m₁, hleads, hend⟩ := exists_leads_of_run? h
  obtain ⟨hboth, hj⟩ := hleads.andThen_left hlink image' (Nat.zero_le _)
  rcases hend with ⟨left, hstep, rfl⟩ | ⟨fault, left, hstep, rfl⟩
  · -- The first image is left at its very end, which is where the second one begins.
    obtain ⟨hlast, rfl⟩ := finished_of_step hlink hstep
    obtain rfl : j = image.operations.size := Nat.le_antisymm hj (hsize ▸ hlast)
    refine .inr ⟨n, left, hleads, rfl, fun more => ?_⟩
    rw [hboth.run?_add]
    exact image.run?_andThen_right image' more 0 left
  · obtain ⟨rest, rfl, hrest⟩ := hleads.run?_rest h
    obtain ⟨i, hi, -⟩ := raises_of_step hlink hstep
    have hlt : j < image.operations.size := hsize ▸ (List.getElem?_eq_some_iff.mp hi).1
    have hstep' := (step_andThen_left image' m₁ hlt).trans hstep
    refine .inl ⟨fault, left, rfl, ?_⟩
    cases rest with
    | zero => cases hrest
    | succ rest => rw [hboth.run?_add, run?_of_faulted hstep']

end

end Image

/-! ### Flushing -/

theorem Sink.flushError_write (text : String) (s : Sink) : (stateAfter (write text s)).flushError = s.flushError := by
  obtain ⟨written, room, flushError, flushes⟩ := s
  unfold write
  dsimp only
  split
  · rfl
  · split <;> rfl

/-- Nothing that an operation does makes flushing fail. -/
theorem Exec.flushError_perform (operation : Operation) (m : Machine) (h : m.world.sink.flushError = none) :
    (stateAfter (perform operation m)).world.sink.flushError = none := by
  refine Comparison.keeps_perform (P := fun m₁ => m₁.world.sink.flushError = none) h (fun _ h _ => h) ?_ ?_ ?_ ?_
  · intro v m₁ h
    unfold push
    split <;> exact h
  · intro kind name v m₁ _ h
    exact h
  · intro count values m₁ _ h
    rw [stateAfter_act, World.print, World.stateAfter_write]
    exact (Sink.flushError_write _ _).trans h
  · intro kind m₁ _ h
    rw [stateAfter_act, World.sink_read]
    exact h

namespace Machine

/-- The machine after its sink has been flushed once more. -/
def flushed (m : Machine) : Machine :=
  { m with world := { m.world with sink := { m.world.sink with flushes := m.world.sink.flushes + 1 } } }

theorem finish_of_flushes {m : Machine} (h : m.world.sink.flushError = none) : m.finish = ⟨.ok (), m.flushed⟩ := by
  have hfinish : m.finish = ⟨m.finish.outcome, m.finish.machine⟩ := rfl
  rw [hfinish, outcome_finish h, machine_finish]
  rfl

theorem run?_of_link {instructions : List Instruction} {image : Image} (h : Image.link instructions = .ok image)
    (m : Machine) (fuel : Nat) : m.run? fuel instructions = image.run? fuel 0 m.reset := by
  rw [run?, h]

/-- Code that is in order runs behind other such code if the two have no label in common. If the first part faults, the
whole does, and leaves the same machine. If the first part ends well, the whole goes on, step for step, as the second
part does from its first instruction on with the machine that the first part leaves, except that its sink has not been
flushed yet. If the first part does not end, the whole does not. -/
theorem run_in_sequence {first second : List Instruction} (hfirst : checkLabels first = .ok ())
    (hsecond : checkLabels second = .ok ()) (hapart : ∀ name ∈ definedLabels first, name ∉ definedLabels second)
    (m : Machine) (hflush : m.world.sink.flushError = none) :
    checkLabels (first ++ second) = .ok () ∧
    (∀ fuel fault left, m.run? fuel first = some ⟨.error fault, left⟩ →
      m.run? fuel (first ++ second) = some ⟨.error fault, left⟩) ∧
    (∀ fuel left, m.run? fuel first = some ⟨.ok (), left⟩ →
      ∃ image start n, Image.link second = .ok image ∧ left = start.flushed ∧
        ∀ more, m.run? (n + more) (first ++ second) = image.run? more 0 start) ∧
    ((∀ fuel, m.run? fuel first = none) → ∀ fuel, m.run? fuel (first ++ second) = none) := by
  obtain ⟨image, hlink⟩ := Image.link_of_checkLabels hfirst
  obtain ⟨image', hlink'⟩ := Image.link_of_checkLabels hsecond
  have hwhole := Image.link_append hlink hlink' hapart
  have hends : ∀ n start, image.Leads n 0 m.reset image.operations.size start →
      start.finish = ⟨.ok (), start.flushed⟩ := by
    intro n start hleads
    exact finish_of_flushes (hleads.keeps Exec.flushError_perform hflush)
  simp only [run?_of_link hlink, run?_of_link hwhole]
  refine ⟨checkLabels_of_link hwhole, ?_, ?_, ?_⟩
  · intro fuel fault left hrun
    rcases Image.run?_andThen_cases hlink image' hrun with ⟨_, _, -, hboth⟩ | ⟨n, start, hleads, hhalt, -⟩
    · exact hboth
    · rw [hends n start hleads] at hhalt
      cases hhalt
  · intro fuel left hrun
    rcases Image.run?_andThen_cases hlink image' hrun with ⟨_, _, hhalt, -⟩ | ⟨n, start, hleads, hhalt, hmore⟩
    · cases hhalt
    · rw [hends n start hleads] at hhalt
      cases hhalt
      exact ⟨image', start, n, hlink', rfl, hmore⟩
  · intro hnone fuel
    exact Image.run?_andThen_eq_none hlink image' (hnone fuel)

/-- Leaves a false and a true value, and jumps over a third. -/
def leaving : List Instruction :=
  [⟨.push, some .bool, some "false"⟩, ⟨.push, some .bool, some "true"⟩, ⟨.jmp, none, some "over"⟩,
    ⟨.push, some .bool, some "true"⟩, ⟨.label, none, some "over"⟩]

/-- Takes values off the stack up to the first that is false. -/
def clearing : List Instruction :=
  [⟨.label, none, some "again"⟩, ⟨.fjmp, none, some "done"⟩, ⟨.jmp, none, some "again"⟩, ⟨.label, none, some "done"⟩]

/-- Alone the second part finds nothing to take. Behind the first it takes what that left. -/
theorem run_in_sequence_clearing :
    checkLabels (leaving ++ clearing) = .ok () ∧
    (∃ halt, (new [] .unbounded 2).run? 9 clearing = some halt ∧
      halt.outcome = .error (.stackUnderflow .fjmp)) ∧
    ∃ fuel halt, (new [] .unbounded 2).run? fuel (leaving ++ clearing) = some halt ∧ halt.outcome = .ok () ∧
      halt.machine.stack.values = [] := by
  have hapart : ∀ name ∈ definedLabels leaving, name ∉ definedLabels clearing := by decide
  have hleaving : checkLabels leaving = .ok () := rfl
  have hclearing : checkLabels clearing = .ok () := rfl
  obtain ⟨hcheck, -, hgoes, -⟩ := run_in_sequence hleaving hclearing hapart (new [] .unbounded 2) rfl
  have hleft : (new [] .unbounded 2).run? 9 leaving =
      some ⟨.ok (), ⟨.ofList [.bool true, .bool false], ⟨.empty, [], ⟨ByteArray.empty, none, none, 1⟩⟩, 2⟩⟩ := rfl
  obtain ⟨image, ⟨stack, ⟨store, input, ⟨written, room, flushError, flushes⟩⟩, limit⟩, n, hlink, hstart, hmore⟩ :=
    hgoes 9 _ hleft
  cases hstart
  cases hlink
  exact ⟨hcheck, ⟨_, rfl, rfl⟩, n + 9, _, hmore 9, rfl, rfl⟩

end Machine

end StackMachine
