import StackMachine.Machine.Run

/-! Runs as chains of steps.

A run is a chain of steps (`Image.Leads`) that ends where the code is left or a step faults (`Image.Faults`). How much
fuel a run is given decides only whether it is seen to end. -/

namespace StackMachine.Image

/-- `n` steps lead from machine `m` at index `i` to machine `m'` at index `j`. -/
inductive Leads (image : Image) : Nat → Nat → Machine → Nat → Machine → Prop where
  | refl (i : Nat) (m : Machine) : Leads image 0 i m i m
  | step {n i j k : Nat} {m m₁ m₂ : Machine} (first : image.step i m = .running j m₁)
      (rest : Leads image n j m₁ k m₂) : Leads image (n + 1) i m k m₂

/-- From machine `m` at index `i`, some steps lead to one that faults and leaves `m'`. -/
def Faults (image : Image) (i : Nat) (m : Machine) (fault : Fault) (m' : Machine) : Prop :=
  ∃ n j m₁, image.Leads n i m j m₁ ∧ image.step j m₁ = .faulted fault m'

variable {image : Image} {n n' i j k fuel fuel' : Nat} {m m₁ m₂ : Machine} {fault : Fault} {halt halt' : Halt}

/-! ### Single steps -/

section

variable {operation : Operation} (hop : image.operations[i]? = some (.ok operation))

include hop

theorem step_next (hp : Exec.perform operation m = .ok .next m₁) : image.step i m = .running (i + 1) m₁ := by
  rw [step, hop]
  simp only [hp]

theorem step_goto (hp : Exec.perform operation m = .ok (.goto j) m₁) : image.step i m = .running j m₁ := by
  rw [step, hop]
  simp only [hp]

theorem step_faulted (hp : Exec.perform operation m = .error fault m₁) : image.step i m = .faulted fault m₁ := by
  rw [step, hop]
  simp only [hp]

end

/-! ### Chains of steps -/

theorem Leads.trans (h : image.Leads n i m j m₁) (h' : image.Leads n' j m₁ k m₂) :
    image.Leads (n + n') i m k m₂ := by
  induction h with
  | refl => rwa [Nat.zero_add]
  | step first _ ih =>
    rw [Nat.add_right_comm]
    exact .step first (ih h')

theorem Leads.single (h : image.step i m = .running j m₁) : image.Leads 1 i m j m₁ :=
  .step h (.refl j m₁)

/-- The last of some steps. -/
theorem Leads.last (h : image.Leads (n + 1) i m k m₂) :
    ∃ j m₁, image.Leads n i m j m₁ ∧ image.step j m₁ = .running k m₂ := by
  induction n generalizing i m with
  | zero =>
    obtain _ | ⟨first, ⟨⟩⟩ := h
    exact ⟨i, m, .refl i m, first⟩
  | succ n ih =>
    obtain _ | ⟨first, rest⟩ := h
    obtain ⟨j, m₁, hleads, hlast⟩ := ih rest
    exact ⟨j, m₁, .step first hleads, hlast⟩

theorem Faults.of_step (h : image.step i m = .faulted fault m₁) : image.Faults i m fault m₁ :=
  ⟨0, i, m, .refl i m, h⟩

theorem Leads.faults (h : image.Leads n i m j m₁) (h' : image.Faults j m₁ fault m₂) : image.Faults i m fault m₂ := by
  obtain ⟨n', k, m₃, hl, hs⟩ := h'
  exact ⟨n + n', k, m₃, h.trans hl, hs⟩

/-! ### Fuel -/

theorem run?_of_running (h : image.step i m = .running j m₁) : image.run? (fuel + 1) i m = image.run? fuel j m₁ := by
  rw [run?, h]

theorem run?_of_finished (h : image.step i m = .finished m₁) : image.run? (fuel + 1) i m = some m₁.finish := by
  rw [run?, h]

theorem run?_of_faulted (h : image.step i m = .faulted fault m₁) :
    image.run? (fuel + 1) i m = some (m₁.abort fault) := by
  rw [run?, h]

theorem run?_mono (h : image.run? fuel i m = some halt) (hle : fuel ≤ fuel') : image.run? fuel' i m = some halt := by
  induction fuel generalizing fuel' i m with
  | zero => cases h
  | succ fuel ih =>
    obtain ⟨fuel', rfl⟩ := Nat.exists_eq_add_of_le' (Nat.le_trans (Nat.le_add_left 1 fuel) hle)
    have hle := Nat.le_of_add_le_add_right hle
    cases hs : image.step i m with
    | running j m₁ =>
      rw [run?_of_running hs] at h ⊢
      exact ih h hle
    | finished m₁ => rwa [run?_of_finished hs] at h ⊢
    | faulted fault m₁ => rwa [run?_of_faulted hs] at h ⊢

theorem run?_unique (h : image.run? fuel i m = some halt) (h' : image.run? fuel' i m = some halt') : halt = halt' := by
  have h := run?_mono h (Nat.le_max_left fuel fuel')
  have h' := run?_mono h' (Nat.le_max_right fuel fuel')
  rw [h] at h'
  exact Option.some.inj h'

theorem Leads.run?_add (h : image.Leads n i m j m₁) : image.run? (n + fuel) i m = image.run? fuel j m₁ := by
  induction h with
  | refl => rw [Nat.zero_add]
  | step first _ ih => rw [Nat.add_right_comm, run?_of_running first, ih]

/-- A run that ends has more fuel than the steps that it is known to take, and the rest suffices from there. -/
theorem Leads.run?_rest (h : image.Leads n i m j m₁) (hrun : image.run? fuel i m = some halt) :
    ∃ rest, fuel = n + rest ∧ image.run? rest j m₁ = some halt := by
  induction h generalizing fuel with
  | refl => exact ⟨fuel, (Nat.zero_add fuel).symm, hrun⟩
  | @step n _ _ _ _ _ _ first _ ih =>
    cases fuel with
    | zero => cases hrun
    | succ fuel =>
      rw [run?_of_running first] at hrun
      obtain ⟨rest, rfl, hrest⟩ := ih hrun
      exact ⟨rest, Nat.add_right_comm n rest 1, hrest⟩

theorem Faults.run? (h : image.Faults i m fault m₁) : ∃ fuel, image.run? fuel i m = some (m₁.abort fault) := by
  obtain ⟨n, j, m₂, hl, hs⟩ := h
  exact ⟨n + 1, by rw [hl.run?_add, run?_of_faulted hs]⟩

/-- A run that ends took some steps to where the code is left or a step faults. -/
theorem exists_leads_of_run? (h : image.run? fuel i m = some halt) :
    ∃ n j m₁, image.Leads n i m j m₁ ∧
      ((∃ m₂, image.step j m₁ = .finished m₂ ∧ halt = m₂.finish) ∨
        ∃ fault m₂, image.step j m₁ = .faulted fault m₂ ∧ halt = m₂.abort fault) := by
  induction fuel generalizing i m with
  | zero => cases h
  | succ fuel ih =>
    cases hs : image.step i m with
    | running j m₁ =>
      rw [run?_of_running hs] at h
      obtain ⟨n, k, m₂, hleads, hend⟩ := ih h
      exact ⟨n + 1, k, m₂, .step hs hleads, hend⟩
    | finished m₁ =>
      rw [run?_of_finished hs] at h
      exact ⟨0, i, m, .refl i m, .inl ⟨m₁, hs, (Option.some.inj h).symm⟩⟩
    | faulted fault m₁ =>
      rw [run?_of_faulted hs] at h
      exact ⟨0, i, m, .refl i m, .inr ⟨fault, m₁, hs, (Option.some.inj h).symm⟩⟩

end StackMachine.Image

namespace StackMachine

/-- After `n` steps, a run of the instructions has machine `m'` at index `j`. -/
def Machine.Reaches (m : Machine) (instructions : List Instruction) (n j : Nat) (m' : Machine) : Prop :=
  ∃ image, Image.link instructions = .ok image ∧ image.Leads n 0 m.reset j m'

/-- A run of the instructions comes to machine `m'` at index `j`, and there it ends with a fault. -/
def Machine.FaultsAt (m : Machine) (instructions : List Instruction) (j : Nat) (m' : Machine) (fault : Fault) : Prop :=
  ∃ image n left, Image.link instructions = .ok image ∧ image.Leads n 0 m.reset j m' ∧
    image.step j m' = .faulted fault left

/-- What closes a run may fail only by the sink. -/
theorem Machine.fault_of_finish {m : Machine} {fault : Fault} (h : m.finish.outcome = .error fault) :
    ∃ e, fault = .io e := by
  obtain ⟨stack, ⟨store, input, sink⟩, limit⟩ := m
  rw [finish, Exec.act, World.finish] at h
  cases hflush : Sink.flush sink with
  | ok u sink' =>
    rw [hflush] at h
    cases h
  | error e sink' =>
    rw [hflush] at h
    cases h
    exact ⟨e, rfl⟩

theorem Machine.run?_unique {m : Machine} {instructions : List Instruction} {fuel fuel' : Nat} {halt halt' : Halt}
    (h : m.run? fuel instructions = some halt) (h' : m.run? fuel' instructions = some halt') : halt = halt' := by
  unfold run? at h h'
  split at h
  · rename_i hlink
    rw [hlink] at h'
    exact Option.some.inj (h.symm.trans h')
  · rename_i hlink
    rw [hlink] at h'
    exact Image.run?_unique h h'

end StackMachine
