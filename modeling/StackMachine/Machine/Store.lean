import StackMachine.Machine.Value

/-!
The variable store: each variable that was saved, with its last value.
-/

namespace StackMachine

structure Store where
  /-- The variables in the order in which they were first saved. -/
  entries : List (String × Value)
  deriving DecidableEq, Inhabited

namespace Store

def empty : Store :=
  ⟨[]⟩

def get? (store : Store) (name : String) : Option Value :=
  store.entries.lookup name

/-- Puts a value under a name: in the place of an earlier one, or at the end. -/
def put (name : String) (v : Value) : List (String × Value) → List (String × Value)
  | [] => [(name, v)]
  | entry :: rest => if entry.1 = name then (name, v) :: rest else entry :: put name v rest

def insert (store : Store) (name : String) (v : Value) : Store :=
  ⟨put name v store.entries⟩

@[simp] theorem get?_empty (name : String) : empty.get? name = none := rfl

theorem lookup_put (name other : String) (v : Value) (entries : List (String × Value)) :
    (put name v entries).lookup other = if other = name then some v else entries.lookup other := by
  induction entries with
  | nil =>
    by_cases h : other = name
    · simp [put, h]
    · have ne : (other == name) = false := by simpa using h
      simp [put, List.lookup_cons, h, ne]
  | cons entry rest ih =>
    obtain ⟨key, w⟩ := entry
    by_cases hk : key = name
    · subst hk
      by_cases h : other = key
      · simp [put, h]
      · have ne : (other == key) = false := by simpa using h
        simp [put, List.lookup_cons, h, ne]
    · by_cases h : other = key
      · subst h
        simp [put, hk]
      · have ne : (other == key) = false := by simpa using h
        simp [put, hk, List.lookup_cons, ne, ih]

@[simp] theorem get?_insert (store : Store) (name other : String) (v : Value) :
    (store.insert name v).get? other = if other = name then some v else store.get? other :=
  lookup_put name other v store.entries

end Store

end StackMachine
