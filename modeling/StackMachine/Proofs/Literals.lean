import StackMachine.Lowering.Expr
import StackMachine.Machine.Value
import StackMachine.Proofs.Quoting

/-! Literals read back.

What is written for an integer, a count, a truth value or a string is read as that same integer, count, truth value or
string again. -/

namespace StackMachine

namespace Text

/-- A run of characters of one sort, up to the end or to a character of another. -/
theorem span_append {p : Char → Bool} {run rest : List Char} (inside : ∀ c ∈ run, p c = true)
    (stop : ∀ c, rest.head? = some c → p c = false) :
    (run ++ rest).takeWhile p = run ∧ (run ++ rest).dropWhile p = rest := by
  rw [List.takeWhile_append_of_pos inside, List.dropWhile_append_of_pos inside]
  cases rest with
  | nil => exact ⟨List.append_nil run, rfl⟩
  | cons c rest => simp [stop c rfl]

variable {n : Nat} {digits : List Char}

theorem isDigit_eq (c : Char) : isDigit c = c.isDigit := by
  unfold isDigit digit?
  split
  all_goals
    rename_i h
    simp only [Char.le_def, Char.isDigit, Option.isSome_some, Option.isSome_none] at h ⊢
    simpa using h

theorem getD_digit? {c : Char} (h : c.isDigit = true) : (digit? c).getD 0 = c.toNat - '0'.toNat := by
  rw [← isDigit_eq, isDigit] at h
  unfold digit? at h ⊢
  split
  · rfl
  · rename_i hc
    rw [if_neg hc] at h
    cases h

theorem foldl_digits (h : ∀ c ∈ digits, c.isDigit = true) :
    digits.foldl (fun n c => 10 * n + (digit? c).getD 0) n = Nat.ofDigitChars 10 digits n := by
  induction digits generalizing n with
  | nil => rfl
  | cons c rest ih =>
    rw [List.foldl_cons, Nat.ofDigitChars_cons, getD_digit? (h c List.mem_cons_self)]
    exact ih fun c hc => h c (List.mem_cons_of_mem _ hc)

theorem digitsValue_eq (h : ∀ c ∈ digits, c.isDigit = true) : digitsValue digits = Nat.ofDigitChars 10 digits 0 :=
  foldl_digits h

theorem natural?_eq (h : ∀ c ∈ digits, c.isDigit = true) (hne : digits ≠ []) :
    natural? digits = some (Nat.ofDigitChars 10 digits 0) := by
  have hall : digits.all isDigit = true := by
    rw [List.all_eq_true]
    intro c hc
    rw [isDigit_eq]
    exact h c hc
  have hempty : digits.isEmpty = false := by simpa using hne
  rw [natural?, hall, hempty, digitsValue_eq h]
  rfl

theorem isDigit_of_mem_repr {c : Char} (h : c ∈ n.repr.toList) : c.isDigit = true := by
  rw [Nat.toList_repr] at h
  exact Nat.isDigit_of_mem_toDigits (by decide) (by decide) h

@[simp] theorem natural?_repr (n : Nat) : natural? n.repr.toList = some n := by
  rw [natural?_eq (fun _ => isDigit_of_mem_repr) (by simp), Nat.toList_repr, Nat.ofDigitChars_ten_toDigits]

/-- A numeral starts with a digit, so it has no sign. -/
theorem repr_ne_cons (n : Nat) {c : Char} (hc : c.isDigit = false) (rest : List Char) : n.repr.toList ≠ c :: rest := by
  intro h
  have hdigit : c.isDigit = true := isDigit_of_mem_repr (n := n) (by rw [h]; exact List.mem_cons_self)
  rw [hc] at hdigit
  cases hdigit

theorem signed?_repr (z : Int) : signed? z.repr.toList = some z := by
  rw [Int.repr_eq_if]
  split
  · rename_i hz
    rw [signed?, natural?_repr, Option.map_some, Int.toNat_of_nonneg hz]
    · exact repr_ne_cons _ rfl
    · exact repr_ne_cons _ rfl
  · rename_i hz
    have hcons : ("-" ++ (-z).toNat.repr).toList = '-' :: (-z).toNat.repr.toList := by simp
    rw [hcons, signed?, natural?_repr, Option.map_some, Int.toNat_of_nonneg (by omega), Int.neg_neg]

theorem int64?_repr (n : Int64) : int64? n.toInt.repr.toList = some n := by
  rw [int64?, signed?_repr, Option.bind_some, if_pos ⟨Int64.minValue_le_toInt n, Int64.toInt_le n⟩, Int64.ofInt_toInt]

theorem count?_repr (h : n < UInt64.size) : count? n.repr.toList = some n := by
  rw [count?, natural?_repr, Option.filter_some, if_pos (decide_eq_true h)]
  exact repr_ne_cons n rfl

end Text

namespace Value

/-- The literal that generated code has for a value. -/
def literal : Value → String
  | .int n => toString n.toInt
  | .float x => Decimal.literal x
  | .string s => Text.quote s
  | .bool b => toString b

theorem ofLiteral?_int (n : Int64) : ofLiteral? .int (toString n.toInt) = some (.int n) := by
  show (Text.int64? n.toInt.repr.toList).map Value.int = _
  rw [Text.int64?_repr, Option.map_some]

theorem ofLiteral?_string (s : String) : ofLiteral? .string (Text.quote s) = some (.string s) := by
  rw [ofLiteral?, Text.unquote?_quote, Option.map_some]

theorem ofLiteral?_bool (b : Bool) : ofLiteral? .bool (toString b) = some (.bool b) := by
  cases b <;> decide

end Value

end StackMachine
