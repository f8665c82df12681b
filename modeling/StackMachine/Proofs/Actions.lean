import StackMachine.Machine.Exec

/-! Opening actions: what a bind that ended, or failed, was made of. Later proofs take actions apart with these
    statements and unfold no monad. -/

namespace StackMachine

namespace Except

variable {ε α β : Type}

theorem bind_ok {x : Except ε α} {f : α → Except ε β} {a : α} (hx : x = .ok a) : (x >>= f) = f a := by
  subst hx
  rfl

theorem bind_error {x : Except ε α} {f : α → Except ε β} {e : ε} (hx : x = .error e) : (x >>= f) = .error e := by
  subst hx
  rfl

theorem bind_eq_ok {x : Except ε α} {f : α → Except ε β} {b : β} :
    (x >>= f) = .ok b ↔ ∃ a, x = .ok a ∧ f a = .ok b := by
  cases x with
  | ok a => exact ⟨fun h => ⟨a, rfl, h⟩, fun ⟨a', ha, h⟩ => by cases ha; exact h⟩
  | error e => exact ⟨fun h => (by cases h), fun ⟨_, ha, _⟩ => (by cases ha)⟩

theorem bind_eq_error {x : Except ε α} {f : α → Except ε β} {e : ε} :
    (x >>= f) = .error e ↔ x = .error e ∨ ∃ a, x = .ok a ∧ f a = .error e := by
  cases x with
  | ok a =>
    show f a = .error e ↔ _
    simp
  | error e' =>
    show Except.error e' = .error e ↔ _
    simp

theorem map_eq_ok {x : Except ε α} {f : α → β} {b : β} : x.map f = .ok b ↔ ∃ a, x = .ok a ∧ f a = b := by
  cases x with
  | ok a => exact ⟨fun h => ⟨a, rfl, Except.ok.inj h⟩, fun ⟨a', ha, h⟩ => by cases ha; exact congrArg _ h⟩
  | error e => exact ⟨fun h => (by cases h), fun ⟨_, ha, _⟩ => (by cases ha)⟩

theorem map_eq_error {x : Except ε α} {f : α → β} {e : ε} : x.map f = .error e ↔ x = .error e := by
  cases x with
  | ok a => exact ⟨fun h => (by cases h), fun h => (by cases h)⟩
  | error e => exact ⟨fun h => congrArg _ (Except.error.inj h), fun h => congrArg _ (Except.error.inj h)⟩

theorem mapError_eq_ok {ε' : Type} {x : Except ε α} {f : ε → ε'} {a : α} : x.mapError f = .ok a ↔ x = .ok a := by
  cases x with
  | ok b => exact ⟨fun h => congrArg _ (Except.ok.inj h), fun h => congrArg _ (Except.ok.inj h)⟩
  | error e => exact ⟨fun h => (by cases h), fun h => (by cases h)⟩

end Except

namespace Action

variable {ε σ α β : Type} {x : EStateM ε σ α} {f : α → EStateM ε σ β} {s t : σ} {a : α} {b : β} {e : ε}

theorem bind_ok (hx : x s = .ok a t) : (x >>= f) s = f a t := by
  show (match x s with | .ok a s => f a s | .error e s => .error e s) = f a t
  rw [hx]

theorem bind_error (hx : x s = .error e t) : (x >>= f) s = .error e t := by
  show (match x s with | .ok a s => f a s | .error e s => .error e s) = .error e t
  rw [hx]

theorem bind_congr {y : EStateM ε σ α} (h : x s = y t) : (x >>= f) s = (y >>= f) t := by
  show (match x s with | .ok a s => f a s | .error e s => .error e s) =
    (match y t with | .ok a s => f a s | .error e s => .error e s)
  rw [h]

theorem bind_eq_ok {u : σ} : (x >>= f) s = .ok b u ↔ ∃ a t, x s = .ok a t ∧ f a t = .ok b u := by
  cases hx : x s with
  | ok a t => exact ⟨fun h => ⟨a, t, rfl, bind_ok (f := f) hx ▸ h⟩, fun ⟨_, _, ha, h⟩ => by cases ha; rwa [bind_ok hx]⟩
  | error e t => exact ⟨fun h => (by rw [bind_error hx] at h; cases h), fun ⟨_, _, ha, _⟩ => (by cases ha)⟩

theorem bind_eq_error {u : σ} :
    (x >>= f) s = .error e u ↔ x s = .error e u ∨ ∃ a t, x s = .ok a t ∧ f a t = .error e u := by
  cases hx : x s with
  | ok a t =>
    rw [bind_ok hx]
    exact ⟨fun h => Or.inr ⟨a, t, rfl, h⟩, fun h => by
      rcases h with h | ⟨_, _, ha, h⟩
      · cases h
      · cases ha
        exact h⟩
  | error e' t =>
    rw [bind_error hx]
    exact ⟨fun h => by cases h; exact Or.inl rfl, fun h => by
      rcases h with h | ⟨_, _, ha, _⟩
      · cases h
        rfl
      · cases ha⟩

end Action

end StackMachine
