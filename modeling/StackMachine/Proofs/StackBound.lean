import StackMachine.Proofs.Comparison
import StackMachine.Proofs.Straight

/-! The bound on the stack.

No run of any instructions ever has more values on the stack than the bound allows, and only what pushes without popping
can find the stack full. A larger bound is not seen otherwise: a run that does not find the stack full is the same under
every larger bound, and one that does has written what every run under a larger bound begins with. Main statement:
`Machine.stack_bound`. -/

namespace StackMachine

/-! ### A full stack -/

namespace Operation

theorem pushes_le_one (operation : Operation) : operation.pushes ≤ 1 := by
  unfold pushes
  cases operation.opcode <;> decide

theorem opcode_of_pops_lt_pushes {operation : Operation} (h : operation.pops < operation.pushes) :
    operation.opcode = .push ∨ operation.opcode = .load ∨ operation.opcode = .read := by
  cases operation with
  | binary op => simp at h
  | unary op => simp at h
  | push | load | read => simp [opcode]
  | pop | save | label | jump | branch | print => simp [pushes, opcode, Opcode.pushes] at h

end Operation

namespace Exec

variable {operation : Operation} {m m' : Machine}

/-- An operation that takes values off the stack does not find any on an empty one. -/
theorem perform_of_empty (hempty : m.stack.size = 0) (hpops : 0 < operation.pops) :
    ∃ opcode, perform operation m = .error (.stackUnderflow opcode) m := by
  have hpop : ∀ opcode, pop opcode m = .error (.stackUnderflow opcode) m := by
    intro opcode
    obtain ⟨⟨values, size, hsize⟩, world, limit⟩ := m
    cases values with
    | nil => rfl
    | cons => cases hsize.symm.trans hempty
  have hpopAs : ∀ opcode kind, popAs opcode kind m = .error (.stackUnderflow opcode) m := fun opcode kind =>
    Action.bind_error (hpop opcode)
  cases operation with
  | binary op => exact ⟨_, Action.bind_error (hpopAs _ _)⟩
  | unary op => exact ⟨_, Action.bind_error (hpopAs _ _)⟩
  | pop => exact ⟨_, Action.bind_error (hpop _)⟩
  | save kind name => exact ⟨_, Action.bind_error (hpopAs _ _)⟩
  | branch target => exact ⟨_, Action.bind_error (hpop _)⟩
  | print count =>
    have htake : take .print count m = .error (.stackUnderflow .print) m := by
      rw [take, if_neg]
      rw [hempty]
      exact Nat.not_le_of_lt hpops
    exact ⟨_, Action.bind_error htake⟩
  | push | load | label | jump | read => cases hpops

/-- Only an operation that pushes more than it pops can find the stack full. -/
theorem pops_lt_pushes_of_overflow {bound : Nat} (hroom : m.stack.size ≤ m.limit)
    (h : perform operation m = .error (.stackOverflow bound) m') : operation.pops < operation.pushes := by
  refine Nat.lt_of_not_le fun hle => ?_
  have hone := operation.pushes_le_one
  cases perform_eq_error h with
  | stackOverflow full =>
    have hempty : m.stack.size = 0 := by omega
    have hpops : 0 < operation.pops := by omega
    obtain ⟨opcode, hunderflow⟩ := perform_of_empty hempty hpops
    rw [h] at hunderflow
    cases hunderflow

/-- A full stack stops an operation before it writes. -/
theorem sink_of_overflow {bound : Nat} (hroom : m.stack.size ≤ m.limit)
    (h : perform operation m = .error (.stackOverflow bound) m') : m'.world.sink = m.world.sink := by
  have hopcode := Operation.opcode_of_pops_lt_pushes (pops_lt_pushes_of_overflow hroom h)
  have hsink : (stateAfter (perform operation m)).world.sink = m.world.sink := by
    refine Comparison.keeps_perform (P := fun m₁ => m₁.world.sink = m.world.sink) rfl (fun _ h _ => h) ?_ ?_ ?_ ?_
    · intro v m₁ h
      unfold push
      split <;> exact h
    · intro kind name v m₁ _ h
      exact h
    · rintro count values m₁ rfl
      simp [Operation.opcode] at hopcode
    · intro kind m₁ _ h
      rw [stateAfter_act]
      exact (World.sink_read kind m₁.world).trans h
  rwa [h] at hsink

end Exec

/-! ### Reachable machines -/

/-- The machine has a bound and keeps to it. -/
def Machine.Within (limit : Nat) (m : Machine) : Prop :=
  m.limit = limit ∧ m.stack.size ≤ limit

namespace Machine

variable {limit : Nat} {m m' : Machine} {instructions : List Instruction} {n j fuel : Nat} {halt : Halt}

theorem Within.perform (operation : Operation) (m : Machine) (h : m.Within limit) :
    (stateAfter (Exec.perform operation m)).Within limit := by
  refine Comparison.keeps_perform h (fun s h hsize => ⟨h.1, Nat.le_trans hsize h.2⟩) ?_ ?_ ?_ ?_
  · intro v m h
    unfold Exec.push
    split
    · rename_i hroom
      exact ⟨h.1, h.1 ▸ hroom⟩
    · exact h
  · intro kind name v m _ h
    exact h
  · intro count values m _ h
    rw [Exec.stateAfter_act]
    exact h
  · intro kind m _ h
    rw [Exec.stateAfter_act]
    exact h

theorem within_reset (m : Machine) : m.reset.Within m.limit :=
  ⟨rfl, Nat.zero_le m.limit⟩

theorem Reaches.within (h : m.Reaches instructions n j m') : m'.Within m.limit := by
  obtain ⟨image, -, hleads⟩ := h
  exact hleads.keeps Within.perform m.within_reset

theorem within_of_run? (h : m.run? fuel instructions = some halt) : halt.machine.Within m.limit := by
  unfold run? at h
  split at h
  · cases h
    exact m.within_reset
  · rename_i image hlink
    obtain ⟨n, j, m₁, hleads, hend⟩ := Image.exists_leads_of_run? h
    have hstep := image.keeps_step Within.perform j (hleads.keeps Within.perform m.within_reset)
    rcases hend with ⟨left, hs, rfl⟩ | ⟨fault, left, hs, rfl⟩
    · rw [hs] at hstep
      rw [left.machine_finish]
      exact hstep
    · rw [hs] at hstep
      rw [abort, left.machine_finish]
      exact hstep

/-- Only a `push`, a `load` or a `read` finds the stack full. -/
theorem FaultsAt.of_overflow {bound : Nat} (h : m.FaultsAt instructions j m' (.stackOverflow bound)) :
    bound = m.limit ∧ ∃ i, instructions[j]? = some i ∧ (i.opcode = .push ∨ i.opcode = .load ∨ i.opcode = .read) := by
  obtain ⟨image, n, left, hlink, hleads, hstep⟩ := h
  obtain ⟨hlimit, hsize⟩ := hleads.keeps Within.perform m.within_reset
  rcases Image.step_eq_faulted hstep with ⟨hop, -⟩ | ⟨operation, hop, hperform⟩
  · obtain ⟨i, target, -, -, hdecode⟩ := Image.exists_of_operation hlink hop
    cases Instruction.ofDecoding_of_decode hdecode
  · obtain ⟨i, target, hi, -, hdecode⟩ := Image.exists_of_operation hlink hop
    have hroom : m'.stack.size ≤ m'.limit := hlimit ▸ hsize
    have hopcode := Operation.opcode_of_pops_lt_pushes (Exec.pops_lt_pushes_of_overflow hroom hperform)
    rw [Instruction.opcode_of_decode hdecode] at hopcode
    cases Exec.perform_eq_error hperform with
    | stackOverflow full => exact ⟨hlimit, i, hi, hopcode⟩

end Machine

/-! ### A larger bound -/

/-- Equal worlds, until the first machine finds its stack full. -/
def WorldComparison.untilFull : WorldComparison where
  alike w w' := w' = w
  cut fault w w' := fault.IsOverflow ∧ w.sink.Continues w'.sink
  store_eq h := congrArg World.store h
  later h hcontinues := ⟨h.1, h.2.trans hcontinues⟩

theorem Matches.of_eq {σ α : Type} {cut : Fault → σ → σ → Prop} {result result' : EStateM.Result Fault σ α}
    (h : result' = result) : Matches (fun s s' => s' = s) cut result result' := by
  subst h
  cases result' with
  | ok a s => exact .ok rfl
  | error fault s => exact .error rfl

namespace WorldComparison

theorem lawful_untilFull : untilFull.Lawful where
  save name v _ _ h := .of_eq (congrArg (World.save name v) h)
  print values _ _ h := .of_eq (congrArg (World.print values) h)
  read kind _ _ h := .of_eq (congrArg (World.read kind) h)
  finish h := .of_eq (congrArg World.finish h)

theorem untilFull_push (v : Value) {m m' : Machine} (h : (untilFull.machines (· ≤ ·)).alike m m') :
    Matches (untilFull.machines (· ≤ ·)).alike (untilFull.machines (· ≤ ·)).cut (Exec.push v m) (Exec.push v m') := by
  obtain ⟨hstack, hlimit, hworld⟩ := h
  by_cases hroom : m.stack.size < m.limit
  · have hroom' : m'.stack.size < m'.limit := by
      rw [hstack]
      exact Nat.lt_of_lt_of_le hroom hlimit
    simp only [Exec.push, if_pos hroom, if_pos hroom']
    exact .ok ⟨by rw [hstack], hlimit, hworld⟩
  · have hfull : Exec.push v m = .error (.stackOverflow m.limit) m := if_neg hroom
    have hcontinues := Exec.continues_push v m'
    rw [show m'.world = m.world from hworld] at hcontinues
    rw [hfull]
    exact .cut ⟨trivial, hcontinues⟩

end WorldComparison

namespace Machine

variable {m : Machine} {instructions : List Instruction} {fuel bound limit : Nat} {halt : Halt}

/-- The same machine with another bound on its stack. -/
def withLimit (m : Machine) (limit : Nat) : Machine :=
  { m with limit := limit }

theorem alike_withLimit (h : m.limit ≤ limit) :
    (WorldComparison.untilFull.machines (· ≤ ·)).alike m.reset (m.withLimit limit).reset :=
  ⟨rfl, h, rfl⟩

/-- Where a run finds the stack full, it has written as much as it had before the step. -/
theorem exists_faultsAt_of_overflow (h : m.run? fuel instructions = some halt)
    (hover : halt.outcome = .error (.stackOverflow bound)) :
    ∃ j m', m.FaultsAt instructions j m' (.stackOverflow bound) ∧
      m'.world.sink.written = halt.machine.world.sink.written := by
  unfold run? at h
  split at h
  · rename_i fault hlink
    cases h
    cases hover
    cases Image.ofLinking_of_link hlink
  · rename_i image hlink
    obtain ⟨n, j, m', hleads, ⟨left, hstep, rfl⟩ | ⟨fault, left, hstep, rfl⟩⟩ := Image.exists_leads_of_run? h
    · obtain ⟨e, he⟩ := fault_of_finish hover
      cases he
    · cases hover
      refine ⟨j, m', ⟨image, n, left, hlink, hleads, hstep⟩, ?_⟩
      rw [abort, left.machine_finish]
      rcases Image.step_eq_faulted hstep with ⟨-, rfl⟩ | ⟨operation, -, hperform⟩
      · rfl
      · obtain ⟨hlimit, hsize⟩ := hleads.keeps Within.perform m.within_reset
        have hroom : m'.stack.size ≤ m'.limit := hlimit ▸ hsize
        rw [Exec.sink_of_overflow hroom hperform]

/-- A run that does not find its stack full is the same under a larger bound. -/
theorem run?_withLimit (hle : m.limit ≤ limit) (h : m.run? fuel instructions = some halt)
    (hroom : ∀ bound, halt.outcome ≠ .error (.stackOverflow bound)) :
    ∃ halt', (m.withLimit limit).run? fuel instructions = some halt' ∧ halt'.outcome = halt.outcome ∧
      halt'.machine.stack = halt.machine.stack ∧ halt'.machine.world = halt.machine.world := by
  have hlawful := WorldComparison.lawful_untilFull.machines WorldComparison.untilFull_push
  rcases hlawful.run?_cases (alike_withLimit hle) h with ⟨halt', hrun', houtcome, hstack, -, hworld⟩ |
    ⟨fault, left, m₁', rfl, ⟨hoverflow, -⟩, -⟩
  · exact ⟨halt', hrun', houtcome, hstack, hworld⟩
  · cases fault with
    | stackOverflow bound => exact absurd rfl (hroom bound)
    | _ => cases hoverflow

/-- A run under a larger bound begins as one that finds its stack full. -/
theorem continues_withLimit (hle : m.limit ≤ limit) (h : m.run? fuel instructions = some halt) {fuel' : Nat}
    {halt' : Halt} (h' : (m.withLimit limit).run? fuel' instructions = some halt') :
    halt.machine.world.sink.Continues halt'.machine.world.sink := by
  have hlawful := WorldComparison.lawful_untilFull.machines WorldComparison.untilFull_push
  rcases hlawful.run?_cases (alike_withLimit hle) h with ⟨halt'', hrun', -, -, -, hworld⟩ |
    ⟨fault, left, m₁', rfl, -, hcut⟩
  · obtain rfl := run?_unique h' hrun'
    exact .of_eq (by rw [hworld])
  · obtain ⟨-, hcontinues⟩ := hcut fuel' halt' h'
    rw [abort, left.machine_finish]
    exact hcontinues

/-- A run under a larger bound comes through the state in which the other one finds its stack full. -/
theorem exists_reaches_withLimit (hle : m.limit ≤ limit) {j : Nat} {m' : Machine} {fault : Fault}
    (h : m.FaultsAt instructions j m' fault) :
    ∃ n m₁, (m.withLimit limit).Reaches instructions n j m₁ ∧ m₁.stack = m'.stack ∧ m₁.world = m'.world := by
  have hlawful := WorldComparison.lawful_untilFull.machines WorldComparison.untilFull_push
  obtain ⟨image, n, left, hlink, hleads, -⟩ := h
  obtain ⟨m₁, hleads', hstack, -, hworld⟩ := hlawful.leads hleads (alike_withLimit hle)
  exact ⟨n, m₁, ⟨image, hlink, hleads'⟩, hstack, hworld⟩

/-- The bound on the stack. It holds in every state of a run and when the run has ended, and only a `push`, a `load` or
a `read` can find the stack full. Under a larger bound, a run that did not find it full is the same, and one that did
has written what the other run begins with. -/
theorem stack_bound (m : Machine) (instructions : List Instruction) :
    (∀ n j m', m.Reaches instructions n j m' → m'.stack.size ≤ m.limit) ∧
    (∀ fuel halt, m.run? fuel instructions = some halt → halt.machine.stack.size ≤ m.limit ∧
      ∀ bound, halt.outcome = .error (.stackOverflow bound) → bound = m.limit ∧
        ∃ j m' i, m.FaultsAt instructions j m' (.stackOverflow bound) ∧ instructions[j]? = some i ∧
          (i.opcode = .push ∨ i.opcode = .load ∨ i.opcode = .read)) ∧
    ∀ limit, m.limit ≤ limit → ∀ fuel,
      (m.run? fuel instructions = none → (m.withLimit limit).run? fuel instructions = none) ∧
      ∀ halt, m.run? fuel instructions = some halt →
        ((∀ bound, halt.outcome ≠ .error (.stackOverflow bound)) →
          ∃ halt', (m.withLimit limit).run? fuel instructions = some halt' ∧ halt'.outcome = halt.outcome ∧
            halt'.machine.stack = halt.machine.stack ∧ halt'.machine.world = halt.machine.world) ∧
        ∀ bound, halt.outcome = .error (.stackOverflow bound) →
          (∃ n j m', (m.withLimit limit).Reaches instructions n j m' ∧
            m'.world.sink.written = halt.machine.world.sink.written) ∧
          ∀ fuel' halt', (m.withLimit limit).run? fuel' instructions = some halt' →
            halt.machine.world.sink.Continues halt'.machine.world.sink := by
  have hlawful := WorldComparison.lawful_untilFull.machines WorldComparison.untilFull_push
  refine ⟨fun n j m' hreaches => hreaches.within.2, fun fuel halt hrun => ⟨(within_of_run? hrun).2, ?_⟩,
    fun limit hle fuel => ⟨hlawful.run?_eq_none (alike_withLimit hle), fun halt hrun => ⟨run?_withLimit hle hrun, ?_⟩⟩⟩
  · intro bound hover
    obtain ⟨j, m', hfaults, -⟩ := exists_faultsAt_of_overflow hrun hover
    obtain ⟨hbound, i, hi, hopcode⟩ := hfaults.of_overflow
    exact ⟨hbound, j, m', i, hfaults, hi, hopcode⟩
  · intro bound hover
    obtain ⟨j, m', hfaults, hwritten⟩ := exists_faultsAt_of_overflow hrun hover
    obtain ⟨n, m₁, hreaches, -, hworld⟩ := exists_reaches_withLimit hle hfaults
    exact ⟨⟨n, j, m₁, hreaches, by rw [hworld, hwritten]⟩, fun _ _ => continues_withLimit hle hrun⟩

/-- Code that prints a value and needs room for two others. -/
def piling : List Instruction :=
  [.push .int "1", .print 1, .push .int "2", .push .int "3", .print 1]

/-- With room for one value, the code finds the stack full after its first line, and with room for two, it begins with
the same line. -/
theorem stack_bound_piling :
    ∃ halt, (Machine.new [] .unbounded 1).run? 6 piling = some halt ∧ halt.outcome = .error (.stackOverflow 1) ∧
      (∃ j m' i, (Machine.new [] .unbounded 1).FaultsAt piling j m' (.stackOverflow 1) ∧ piling[j]? = some i ∧
        (i.opcode = .push ∨ i.opcode = .load ∨ i.opcode = .read)) ∧
      halt.machine.world.sink.written = "1\n".toUTF8 ∧
      ∃ halt', (Machine.new [] .unbounded 2).run? 6 piling = some halt' ∧ halt'.outcome = .ok () ∧
        halt.machine.world.sink.Continues halt'.machine.world.sink := by
  obtain ⟨halt, hrun, hover, hwritten⟩ : ∃ halt, (Machine.new [] .unbounded 1).run? 6 piling = some halt ∧
      halt.outcome = .error (.stackOverflow 1) ∧ halt.machine.world.sink.written = "1\n".toUTF8 :=
    ⟨_, rfl, rfl, by decide +kernel⟩
  obtain ⟨halt', hrun', houtcome'⟩ : ∃ halt', (Machine.new [] .unbounded 2).run? 6 piling = some halt' ∧
      halt'.outcome = .ok () :=
    ⟨_, rfl, rfl⟩
  obtain ⟨-, hfaults, hlarger⟩ := stack_bound (.new [] .unbounded 1) piling
  obtain ⟨-, hcontinues⟩ := (hlarger 2 (by decide) 6).2 halt hrun
  exact ⟨halt, hrun, hover, ((hfaults 6 halt hrun).2 1 hover).2, hwritten, halt', hrun', houtcome',
    (hcontinues 1 hover).2 6 halt' hrun'⟩

end Machine

end StackMachine
