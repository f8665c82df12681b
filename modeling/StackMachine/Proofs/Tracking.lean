import StackMachine.Proofs.StmtCode

/-! Evaluation and execution side by side.

`Image.Tracks` compares what a machine does from an index on with how the evaluation of a statement ends. If evaluation
ends, so does that part of the run, with the same world and the same fault; if evaluation is not seen to end with the
fuel it has, the machine takes about as many steps without ending. In all cases the machine may instead find its stack
full. -/

namespace StackMachine

open Lowering Exec

namespace Image

/-- From machine `m` at index `i`, some steps lead to one that finds the stack full. -/
def Overflows (image : Image) (i : Nat) (m : Machine) : Prop :=
  ∃ fault m', fault.IsOverflow ∧ image.Faults i m fault m'

/-- What a machine does from an index on, beside how an action on the world ends. The result of the action determines
where the machine gets and with which stack. -/
def Runs {α : Type} (image : Image) (limit i : Nat) (m : Machine) (exit : α → Nat) (after : α → Stack) :
    EStateM.Result Fault World α → Prop
  | .ok a w => image.Overflows i m ∨ ∃ n, image.Leads n i m (exit a) ⟨after a, w, limit⟩
  | .error fault w => image.Overflows i m ∨ ∃ m', image.Faults i m fault m' ∧ m'.world = w

/-- What a machine does between two indices, beside an evaluation: `least` steps at least, if that has no end yet. -/
def Tracks (image : Image) (limit : Nat) (s : Stack) (i j least : Nat) (w : World) : Evaluated → Prop
  | some result => image.Runs limit i ⟨s, w, limit⟩ (fun _ => j) (fun _ => s) result
  | none => image.Overflows i ⟨s, w, limit⟩ ∨ ∃ n k m', image.Leads n i ⟨s, w, limit⟩ k m' ∧ least ≤ n

variable {image : Image} {labels : Labels} {limit n i j k least least' start target : Nat} {m m' m₁ : Machine} {s : Stack}
  {w w' w₁ : World} {α β : Type} {exit : α → Nat} {exit' : β → Nat} {after : α → Stack} {after' : β → Stack}
  {code : List Instruction}

theorem Leads.overflows (h : image.Leads n i m j m₁) (h' : image.Overflows j m₁) : image.Overflows i m := by
  obtain ⟨fault, m', hfault, hf⟩ := h'
  exact ⟨fault, m', hfault, h.faults hf⟩

/-! ### Actions -/

theorem Runs.of_overflows {spec : EStateM.Result Fault World α} (h : image.Overflows i m) :
    image.Runs limit i m exit after spec := by
  cases spec with
  | ok a w => exact Or.inl h
  | error fault w => exact Or.inl h

theorem Leads.runs {spec : EStateM.Result Fault World α} (h : image.Leads n i m j m₁)
    (h' : image.Runs limit j m₁ exit after spec) : image.Runs limit i m exit after spec := by
  cases spec with
  | ok a w =>
    rcases h' with h' | ⟨n', h'⟩
    · exact Or.inl (h.overflows h')
    · exact Or.inr ⟨n + n', h.trans h'⟩
  | error fault w =>
    rcases h' with h' | ⟨m', h', hw⟩
    · exact Or.inl (h.overflows h')
    · exact Or.inr ⟨m', h.faults h', hw⟩

theorem Runs.bind {x : Act α} {f : α → Act β} (h : image.Runs limit i m exit after (x w))
    (hok : ∀ a w', x w = .ok a w' → image.Runs limit (exit a) ⟨after a, w', limit⟩ exit' after' (f a w')) :
    image.Runs limit i m exit' after' ((x >>= f) w) := by
  cases hx : x w with
  | ok a w' =>
    rw [Action.bind_ok hx]
    rw [hx] at h
    rcases h with h | ⟨n, h⟩
    · exact .of_overflows h
    · exact h.runs (hok a w' hx)
  | error fault w' =>
    rw [Action.bind_error hx]
    rw [hx] at h
    exact h

/-- A machine that goes on after an action without changing anything. -/
theorem Runs.leads {exit' : α → Nat} {spec : EStateM.Result Fault World α} (h : image.Runs limit i m exit after spec)
    (hon : ∀ a w, ∃ n, image.Leads n (exit a) ⟨after a, w, limit⟩ (exit' a) ⟨after a, w, limit⟩) :
    image.Runs limit i m exit' after spec := by
  cases spec with
  | ok a w =>
    rcases h with h | ⟨n, h⟩
    · exact Or.inl h
    · obtain ⟨n', h'⟩ := hon a w
      exact Or.inr ⟨n + n', h.trans h'⟩
  | error fault w => exact h

/-! ### Code with its lines -/

variable {first second emitted : Emitted}

theorem Holds.emitted_left (h : image.Holds labels start ((first ++ second).map Prod.fst)) :
    image.Holds labels start (first.map Prod.fst) := by
  rw [List.map_append] at h
  exact h.left

theorem Holds.emitted_right (h : image.Holds labels start ((first ++ second).map Prod.fst)) :
    image.Holds labels (start + first.length) (second.map Prod.fst) := by
  rw [List.map_append] at h
  have hright := h.right
  rwa [List.length_map] at hright

/-- Straight code in an image does what it does by itself. -/
theorem Holds.runs {spec : EStateM.Result Fault World α} (h : image.Holds labels start (emitted.map Prod.fst))
    (hcode : emitted.All Instruction.Straight) (hf : Follows limit spec after (straight (emitted.map Prod.fst) m)) :
    image.Runs limit start m (fun _ => start + emitted.length) after spec := by
  have hj : ∀ i ∈ emitted.map Prod.fst, i.opcode.isJump = false := fun i hi => (hcode i hi).isJump
  rw [← List.length_map Prod.fst]
  cases hs : straight (emitted.map Prod.fst) m with
  | ok u m' =>
    rw [hs] at hf
    obtain ⟨a, w, rfl, rfl⟩ := hf
    exact Or.inr ⟨_, h.leads hj hs⟩
  | error fault m' =>
    rw [hs] at hf
    rcases hf with hoverflow | rfl
    · exact .of_overflows ⟨fault, m', hoverflow, h.faults hj hs⟩
    · exact Or.inr ⟨m', h.faults hj hs, rfl⟩

/-! ### Labels and jumps -/

theorem Holds.leads_label {name : String} (h : image.Holds labels start (.label name :: code)) (m : Machine) :
    image.Leads 1 start m (start + 1) m := by
  obtain ⟨target, -, hop⟩ := h.decoded
  have hop : image.operations[start]? = some (.ok .label) := hop
  exact .single (step_next hop rfl)

theorem Holds.leads_jmp {name : String} (h : image.Holds labels start (.jmp name :: code))
    (hl : labels.lookup name = some target) (m : Machine) : image.Leads 1 start m target m := by
  obtain ⟨target', ht, hop⟩ := h.decoded
  rw [Labels.target_of_jump rfl hl] at ht
  cases ht
  have hop : image.operations[start]? = some (.ok (.jump target)) := hop
  exact .single (step_goto hop rfl)

/-- A branch takes the value that was tested off the stack. -/
theorem Holds.runs_fjmp {name : String} {v : Value} (h : image.Holds labels start (.fjmp name :: code))
    (hl : labels.lookup name = some target) :
    image.Runs limit start ⟨s.push v, w, limit⟩ (fun b => if b then start + 1 else target) (fun _ => s)
      ((match v.truthy? with
        | some b => pure b
        | none => throw (.unsupportedOperand .fjmp v.kind) : Act Bool) w) := by
  obtain ⟨target', ht, hop⟩ := h.decoded
  rw [Labels.target_of_jump rfl hl] at ht
  cases ht
  have hop : image.operations[start]? = some (.ok (.branch target)) := hop
  have hpop : pop .fjmp ⟨s.push v, w, limit⟩ = .ok v ⟨s, w, limit⟩ := by rw [pop, Stack.pop?_push]
  cases hv : v.truthy? with
  | some b =>
    cases b with
    | true =>
      have hp : perform (.branch target) ⟨s.push v, w, limit⟩ = .ok .next ⟨s, w, limit⟩ := by
        rw [perform, Action.bind_ok hpop, hv]
        rfl
      exact Or.inr ⟨1, .single (step_next hop hp)⟩
    | false =>
      have hp : perform (.branch target) ⟨s.push v, w, limit⟩ = .ok (.goto target) ⟨s, w, limit⟩ := by
        rw [perform, Action.bind_ok hpop, hv]
        rfl
      exact Or.inr ⟨1, .single (step_goto hop hp)⟩
  | none =>
    have hp : perform (.branch target) ⟨s.push v, w, limit⟩ =
        .error (.unsupportedOperand .fjmp v.kind) ⟨s, w, limit⟩ := by
      rw [perform, Action.bind_ok hpop, hv]
      rfl
    exact Or.inr ⟨⟨s, w, limit⟩, .of_step (step_faulted hop hp), rfl⟩

/-! ### Evaluations -/

variable {r before : Evaluated} {next : World → Evaluated}

theorem Tracks.of_overflows (h : image.Overflows i ⟨s, w, limit⟩) : image.Tracks limit s i j least w r := by
  cases r with
  | none => exact Or.inl h
  | some result => exact Runs.of_overflows h

/-- Nothing is asked of the machine for an evaluation without fuel. -/
theorem Tracks.unseen : image.Tracks limit s i j 0 w none :=
  Or.inr ⟨0, i, ⟨s, w, limit⟩, .refl _ _, Nat.le_refl 0⟩

theorem Tracks.stay : image.Tracks limit s i i least w (some (.ok () w)) :=
  Or.inr ⟨0, .refl _ _⟩

theorem Tracks.mono (h : image.Tracks limit s i j least w r) (hle : least' ≤ least) :
    image.Tracks limit s i j least' w r := by
  cases r with
  | some result => exact h
  | none =>
    rcases h with h | ⟨n, k, m', h, hn⟩
    · exact Or.inl h
    · exact Or.inr ⟨n, k, m', h, hle.trans hn⟩

theorem Leads.tracks (h : image.Leads n i ⟨s, w, limit⟩ j ⟨s, w₁, limit⟩) (h' : image.Tracks limit s j k least w₁ r) :
    image.Tracks limit s i k (n + least) w r := by
  cases r with
  | some result => exact h.runs h'
  | none =>
    rcases h' with h' | ⟨n', k, m', h', hn⟩
    · exact Or.inl (h.overflows h')
    · exact Or.inr ⟨n + n', k, m', h.trans h', Nat.add_le_add_left hn n⟩

theorem Tracks.leads (h : image.Tracks limit s i j least w r)
    (hon : ∀ w, ∃ n, image.Leads n j ⟨s, w, limit⟩ k ⟨s, w, limit⟩) : image.Tracks limit s i k least w r := by
  cases r with
  | some result => exact Runs.leads h fun _ => hon
  | none => exact h

theorem Tracks.andThen (h : image.Tracks limit s i j least w before)
    (hnext : ∀ w', before = some (.ok () w') → image.Tracks limit s j k least w' (next w')) :
    image.Tracks limit s i k least w (before.andThen next) := by
  cases before with
  | none => exact h
  | some result =>
    cases result with
    | ok u w' =>
      rcases h with h | ⟨n, h⟩
      · exact .of_overflows h
      · exact (h.tracks (hnext w' rfl)).mono (Nat.le_add_left least n)
    | error fault w' => exact h

theorem Runs.andThen {x : Act α} {next : α → World → Evaluated}
    (h : image.Runs limit i ⟨s, w, limit⟩ exit (fun _ => s) (x w))
    (hnext : ∀ a w', x w = .ok a w' → image.Tracks limit s (exit a) k least w' (next a w')) :
    image.Tracks limit s i k least w (x.andThen w next) := by
  unfold Act.andThen
  cases hx : x w with
  | ok a w' =>
    rw [hx] at h
    rcases h with h | ⟨n, h⟩
    · exact .of_overflows h
    · exact (h.tracks (hnext a w' hx)).mono (Nat.le_add_left least n)
  | error fault w' =>
    rw [hx] at h
    exact h

end Image

end StackMachine
