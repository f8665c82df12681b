import StackMachine.Machine.Value

/-!
The operand stack. It knows its size, so that the bound on it is checked in one step.
-/

namespace StackMachine

structure Stack where
  /-- The values, the top one first. -/
  values : List Value
  size : Nat
  size_eq : size = values.length

namespace Stack

def ofList (values : List Value) : Stack :=
  ⟨values, values.length, rfl⟩

def empty : Stack :=
  ofList []

instance : Inhabited Stack :=
  ⟨empty⟩

def push (s : Stack) (v : Value) : Stack :=
  ⟨v :: s.values, s.size + 1, by simp [s.size_eq]⟩

/-- The top value and what is below it. -/
def pop? : Stack → Option (Value × Stack)
  | ⟨[], _, _⟩ => none
  | ⟨v :: rest, size, h⟩ => some (v, ⟨rest, size - 1, by simp [h]⟩)

/-- The topmost `count` values, in the order in which they were pushed. -/
def top (s : Stack) (count : Nat) : List Value :=
  (s.values.take count).reverse

def drop (s : Stack) (count : Nat) : Stack :=
  ⟨s.values.drop count, s.size - count, by simp [s.size_eq]⟩

@[ext] theorem ext {s t : Stack} (h : s.values = t.values) : s = t := by
  cases s
  cases t
  simp_all

@[simp] theorem values_ofList (values : List Value) : (ofList values).values = values := rfl

@[simp] theorem values_push (s : Stack) (v : Value) : (s.push v).values = v :: s.values := rfl

@[simp] theorem values_drop (s : Stack) (count : Nat) : (s.drop count).values = s.values.drop count := rfl

end Stack

end StackMachine
