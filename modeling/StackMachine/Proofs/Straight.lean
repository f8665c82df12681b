import StackMachine.Proofs.Runs

/-! Code without jumps.

Such code can be executed by itself (`Exec.straight`), without an image and an index. `Exec.Follows` compares how it ends
with how an action on the world ends: the two agree on what is left of the world and on the fault, unless the bound on
the stack stops the code. In an image, straight code takes one step for each instruction. -/

namespace StackMachine

/-- The fault of a full stack. -/
def Fault.IsOverflow : Fault → Prop
  | .stackOverflow _ => True
  | _ => False

/-- The operations after which execution goes on with the next one. -/
def Operation.Sequential : Operation → Prop
  | .jump _ | .branch _ => False
  | _ => True

theorem Instruction.sequential_of_decode {i : Instruction} {target : Option Nat} {operation : Operation}
    (hi : i.opcode.isJump = false) (hd : i.decode target = .ok operation) : operation.Sequential := by
  have hopcode := opcode_of_decode hd
  cases operation with
  | jump | branch =>
    rw [← hopcode] at hi
    cases hi
  | _ => trivial

namespace Exec

variable {m m' : Machine} {operation : Operation} {flow : Flow} {fault : Fault} {i : Instruction}
  {code first second : List Instruction}

theorem perform_next (hop : operation.Sequential) (h : perform operation m = .ok flow m') : flow = .next := by
  rcases (perform_eq_ok h).flow with hnext | ⟨target, htarget, -⟩
  · exact hnext
  · cases operation with
    | jump | branch => cases hop
    | _ => cases htarget

/-- Executes instructions one after the other. None of them may be a jump. -/
def straight : List Instruction → Exec Unit
  | [] => pure ()
  | i :: rest => do
    let operation ← lift (i.decode none)
    let _ ← perform operation
    straight rest

theorem straight_cons_ok (hd : i.decode none = .ok operation) (hp : perform operation m = .ok flow m') :
    straight (i :: code) m = straight code m' := by
  rw [straight, Action.bind_ok (lift_eq_ok_iff.mpr ⟨hd, rfl⟩), Action.bind_ok hp]

theorem straight_cons_error (hd : i.decode none = .ok operation) (hp : perform operation m = .error fault m') :
    straight (i :: code) m = .error fault m' := by
  rw [straight, Action.bind_ok (lift_eq_ok_iff.mpr ⟨hd, rfl⟩), Action.bind_error hp]

theorem straight_cons_undecoded (hd : i.decode none = .error fault) : straight (i :: code) m = .error fault m := by
  rw [straight, hd, lift]
  exact Action.bind_error rfl

theorem straight_append (m : Machine) : straight (first ++ second) m = (straight first >>= fun _ => straight second) m := by
  induction first generalizing m with
  | nil => rfl
  | cons i rest ih =>
    rw [List.cons_append]
    cases hd : i.decode none with
    | error fault => rw [straight_cons_undecoded hd, Action.bind_error (straight_cons_undecoded hd)]
    | ok operation =>
      cases hp : perform operation m with
      | error fault m' => rw [straight_cons_error hd hp, Action.bind_error (straight_cons_error hd hp)]
      | ok flow m' =>
        rw [straight_cons_ok hd hp, ih]
        exact (Action.bind_congr (straight_cons_ok hd hp)).symm

/-! ### Code beside actions -/

variable {α β : Type} {limit : Nat} {spec : EStateM.Result Fault World α} {spec' : EStateM.Result Fault World β}
  {after : α → Stack} {after' : β → Stack}

/-- How code ends, beside how an action on the world ends: the code faults for want of room on the stack, or the two
fault alike, or both give a result, which determines the stack. -/
def Follows (limit : Nat) (spec : EStateM.Result Fault World α) (after : α → Stack) :
    EStateM.Result Fault Machine Unit → Prop
  | .ok () m => ∃ a w, spec = .ok a w ∧ m = ⟨after a, w, limit⟩
  | .error fault m => fault.IsOverflow ∨ spec = .error fault m.world

/-- Code that goes on where other code ended. -/
theorem Follows.append (h : Follows limit spec after (straight first m))
    (hok : ∀ a w, spec = .ok a w → Follows limit spec' after' (straight second ⟨after a, w, limit⟩))
    (herror : ∀ fault w, spec = .error fault w → spec' = .error fault w) :
    Follows limit spec' after' (straight (first ++ second) m) := by
  rw [straight_append]
  cases hf : straight first m with
  | ok u m' =>
    rw [Action.bind_ok hf]
    rw [hf] at h
    obtain ⟨a, w, hs, rfl⟩ := h
    exact hok a w hs
  | error fault m' =>
    rw [Action.bind_error hf]
    rw [hf] at h
    exact h.imp id (herror fault m'.world)

theorem Follows.bind {x : Act α} {f : α → Act β} {w : World} (h : Follows limit (x w) after (straight first m))
    (hok : ∀ a w', x w = .ok a w' → Follows limit (f a w') after' (straight second ⟨after a, w', limit⟩)) :
    Follows limit ((x >>= f) w) after' (straight (first ++ second) m) :=
  h.append (fun a w' hx => by rw [Action.bind_ok hx]; exact hok a w' hx) fun _ _ hx => Action.bind_error hx

end Exec

/-! ### Straight code in an image -/

namespace Image

variable {image : Image} {labels : Labels} {start : Nat} {code : List Instruction} {m m' : Machine} {fault : Fault}

theorem Holds.operation_of_not_jump (h : image.Holds labels start code) {k : Nat} {i : Instruction}
    (hk : code[k]? = some i) (hi : i.opcode.isJump = false) : image.operations[start + k]? = some (i.decode none) := by
  obtain ⟨⟨target, ht, hop⟩, -⟩ := h k i hk
  rw [Labels.target_of_not_jump hi] at ht
  cases ht
  exact hop

theorem Holds.leads (h : image.Holds labels start code) (hj : ∀ i ∈ code, i.opcode.isJump = false)
    (hs : Exec.straight code m = .ok () m') : image.Leads code.length start m (start + code.length) m' := by
  induction code generalizing start m with
  | nil =>
    cases hs
    exact .refl _ _
  | cons i rest ih =>
    have hi := hj i List.mem_cons_self
    have hop : image.operations[start]? = some (i.decode none) := h.operation_of_not_jump (k := 0) rfl hi
    cases hd : i.decode none with
    | error fault =>
      rw [Exec.straight_cons_undecoded hd] at hs
      cases hs
    | ok operation =>
      cases hp : Exec.perform operation m with
      | error fault m₁ =>
        rw [Exec.straight_cons_error hd hp] at hs
        cases hs
      | ok flow m₁ =>
        rw [Exec.straight_cons_ok hd hp] at hs
        obtain rfl := Exec.perform_next (Instruction.sequential_of_decode hi hd) hp
        have hstep : image.step start m = .running (start + 1) m₁ := step_next (hd ▸ hop) hp
        have hrest := ih h.tail (fun i hi => hj i (List.mem_cons_of_mem _ hi)) hs
        rw [Nat.add_right_comm, Nat.add_assoc] at hrest
        exact .step hstep hrest

/-- A fault comes at one of the instructions. -/
theorem Holds.leads_fault (h : image.Holds labels start code) (hj : ∀ i ∈ code, i.opcode.isJump = false)
    (hs : Exec.straight code m = .error fault m') :
    ∃ n < code.length, ∃ m₁, image.Leads n start m (start + n) m₁ ∧ image.step (start + n) m₁ = .faulted fault m' := by
  induction code generalizing start m with
  | nil => cases hs
  | cons i rest ih =>
    have hi := hj i List.mem_cons_self
    have hop : image.operations[start]? = some (i.decode none) := h.operation_of_not_jump (k := 0) rfl hi
    cases hd : i.decode none with
    | error fault =>
      rw [Exec.straight_cons_undecoded hd] at hs
      cases hs
      exact ⟨0, Nat.zero_lt_succ _, m', .refl _ _, by rw [Nat.add_zero, step, hop, hd]⟩
    | ok operation =>
      cases hp : Exec.perform operation m with
      | error fault m₁ =>
        rw [Exec.straight_cons_error hd hp] at hs
        cases hs
        exact ⟨0, Nat.zero_lt_succ _, m, .refl _ _, step_faulted (hd ▸ hop) hp⟩
      | ok flow m₁ =>
        rw [Exec.straight_cons_ok hd hp] at hs
        obtain rfl := Exec.perform_next (Instruction.sequential_of_decode hi hd) hp
        have hstep : image.step start m = .running (start + 1) m₁ := step_next (hd ▸ hop) hp
        obtain ⟨n, hn, m₂, hleads, hfault⟩ := ih h.tail (fun i hi => hj i (List.mem_cons_of_mem _ hi)) hs
        rw [Nat.add_right_comm, Nat.add_assoc] at hleads hfault
        exact ⟨n + 1, Nat.succ_lt_succ hn, m₂, .step hstep hleads, hfault⟩

theorem Holds.faults (h : image.Holds labels start code) (hj : ∀ i ∈ code, i.opcode.isJump = false)
    (hs : Exec.straight code m = .error fault m') : image.Faults start m fault m' := by
  obtain ⟨n, -, m₁, hleads, hfault⟩ := h.leads_fault hj hs
  exact ⟨n, start + n, m₁, hleads, hfault⟩

end Image

end StackMachine
