import Mathlib.Data.Int.ModEq
import StackMachine.Proofs.ExprCode

/-! Arithmetic on integers.

Sums, differences and products of integers may wrap around at every step, and still the end is right modulo 2^64: the
code of such an expression (`Polynomial`) pushes the one integer of the machine that is congruent to its value. It needs
a certain number of free places on the stack, and overflows exactly if there are fewer. Division goes toward zero, with
one quotient that wraps around. Main statement: `integers_exact`. -/

namespace StackMachine

/-- The operators that never fail on integers. -/
inductive RingOp where
  | add
  | sub
  | mul

namespace RingOp

def toBinaryOp : RingOp → BinaryOp
  | add => .add
  | sub => .sub
  | mul => .mul

def arithmetic : RingOp → Arithmetic
  | add => .add
  | sub => .sub
  | mul => .mul

def onInt : RingOp → Int → Int → Int
  | add => (· + ·)
  | sub => (· - ·)
  | mul => (· * ·)

/-- The instruction of an operator on integers. -/
def instruction (op : RingOp) : Instruction :=
  .typed op.toBinaryOp.opcode .int

theorem result?_toBinaryOp (op : RingOp) : op.toBinaryOp.result? .int .int = some .int := by
  cases op <;> rfl

theorem plan?_toBinaryOp (op : RingOp) : op.toBinaryOp.plan? .int .int = some ⟨.int, [op.instruction], .int⟩ := by
  cases op <;> rfl

theorem decode_instruction (op : RingOp) :
    op.instruction.decode none = .ok (.binary (.arithmetic op.arithmetic .int)) := by
  cases op <;> rfl

/-- Wrapping around commutes with each operator. -/
theorem apply_ofInt (op : RingOp) (a b : Int) :
    Binary.apply (.arithmetic op.arithmetic .int) (.ofInt a) (.ofInt b) = .ok (Int64.ofInt (op.onInt a b)) := by
  cases op with
  | add => exact congrArg Except.ok (Int64.ofInt_add a b).symm
  | sub => exact congrArg Except.ok (Int64.ofInt_sub a b).symm
  | mul => exact congrArg Except.ok (Int64.ofInt_mul a b).symm

end RingOp

/-- Expressions of integer literals and variables, with the operators that never fail. -/
inductive Polynomial where
  | literal (n : Int64) (span : Span)
  | var (name : String) (span : Span)
  | group (inner : Polynomial) (span : Span)
  | neg (operand : Polynomial) (span : Span)
  | binary (op : RingOp) (left right : Polynomial) (span : Span)

namespace Polynomial

def toExpr : Polynomial → Expr
  | literal n span => .int n span
  | var name span => .var name span
  | group inner span => .group inner.toExpr span
  | neg operand span => .unary .neg operand.toExpr span
  | binary op left right span => .binary op.toBinaryOp left.toExpr right.toExpr span

/-- The uses of variables: each with its name and its place. -/
def uses : Polynomial → List (String × Span)
  | literal _ _ => []
  | var name span => [(name, span)]
  | group inner _ => inner.uses
  | neg operand _ => operand.uses
  | binary _ left right _ => left.uses ++ right.uses

/-- The value over all the integers, where nothing wraps around. -/
def value (held : String → Int64) : Polynomial → Int
  | literal n _ => n.toInt
  | var name _ => (held name).toInt
  | group inner _ => inner.value held
  | neg operand _ => -operand.value held
  | binary op left right _ => op.onInt (left.value held) (right.value held)

/-- How many values the code has on the stack at most, beside those that were there before. -/
def depth : Polynomial → Nat
  | literal _ _ => 1
  | var _ _ => 1
  | group inner _ => inner.depth
  | neg operand _ => operand.depth
  | binary _ left right _ => max left.depth (right.depth + 1)

def instructions : Polynomial → List Instruction
  | literal n _ => [.push .int (toString n.toInt)]
  | var name _ => [.load .int name]
  | group inner _ => inner.instructions
  | neg operand _ => operand.instructions ++ [.typed .uminus .int]
  | binary op left right _ => left.instructions ++ (right.instructions ++ [op.instruction])

variable {p : Polynomial} {scope : Scope} {held : String → Int64}

theorem depth_pos (p : Polynomial) : 0 < p.depth := by
  induction p with
  | literal | var => exact Nat.one_pos
  | group inner span ih => exact ih
  | neg operand span ih => exact ih
  | binary op left right span ihl ihr => exact Nat.lt_of_lt_of_le ihl (Nat.le_max_left _ _)

/-! ### The code -/

theorem infer_toExpr (h : ∀ use ∈ p.uses, scope use.1 use.2 = .ok .int) : p.toExpr.infer scope = .ok .int := by
  induction p with
  | literal n span => rfl
  | var name span => exact h _ List.mem_cons_self
  | group inner span ih => exact ih h
  | neg operand span ih =>
    rw [toExpr, Expr.infer, Except.bind_ok (ih h)]
    rfl
  | binary op left right span ihl ihr =>
    obtain ⟨hl, hr⟩ := List.forall_mem_append.mp h
    rw [toExpr, Expr.infer, Except.bind_ok (ihl hl), Except.bind_ok (ihr hr)]
    exact BinaryOp.typing_eq_ok.mpr op.result?_toBinaryOp

theorem exists_lowers (h : ∀ use ∈ p.uses, scope use.1 use.2 = .ok .int) :
    ∃ l, p.toExpr.Lowers scope none l ∧ l.ty = .int ∧ l.code.map Prod.fst = p.instructions := by
  induction p with
  | literal n span => exact ⟨_, .int none n span, rfl, rfl⟩
  | var name span => exact ⟨_, .var none (h _ List.mem_cons_self) rfl, rfl, rfl⟩
  | group inner span ih =>
    obtain ⟨l, hl, hty, hcode⟩ := ih h
    exact ⟨l, .group none span hl, hty, hcode⟩
  | neg operand span ih =>
    obtain ⟨l, hl, hty, hcode⟩ := ih h
    have hi : UnaryOp.neg.instruction? l.ty = some (.typed .uminus .int) := by rw [hty]; rfl
    refine ⟨_, .unary none span hl hi, hty, ?_⟩
    rw [List.map_append, hcode]
    rfl
  | binary op left right span ihl ihr =>
    obtain ⟨hl, hr⟩ := List.forall_mem_append.mp h
    obtain ⟨l, hl', -, hlcode⟩ := ihl hl
    obtain ⟨r, hr', -, hrcode⟩ := ihr hr
    refine ⟨_, .binary none span (infer_toExpr hl) (infer_toExpr hr) op.plan?_toBinaryOp hl' hr', rfl, ?_⟩
    simp [Lowering.widening, instructions, hlcode, hrcode]

theorem isJump_instructions (p : Polynomial) : ∀ i ∈ p.instructions, i.opcode.isJump = false := by
  induction p with
  | literal | var => exact List.forall_mem_singleton.mpr rfl
  | group inner span ih => exact ih
  | neg operand span ih => exact List.forall_mem_append.mpr ⟨ih, List.forall_mem_singleton.mpr rfl⟩
  | binary op left right span ihl ihr =>
    have hop : op.instruction.opcode.isJump = false := by cases op <;> rfl
    exact List.forall_mem_append.mpr ⟨ihl, List.forall_mem_append.mpr ⟨ihr, List.forall_mem_singleton.mpr hop⟩⟩

/-! ### Execution -/

open Exec

variable {s : Stack} {w : World} {limit : Nat}

/-- The value of an expression, as the machine has it. -/
def pushed (p : Polynomial) (held : String → Int64) : Value :=
  .int (.ofInt (p.value held))

theorem straight_literal (held : String → Int64) (n : Int64) (span : Span) :
    straight (literal n span).instructions ⟨s, w, limit⟩ =
      if s.size < limit then .ok () ⟨s.push ((literal n span).pushed held), w, limit⟩
      else .error (.stackOverflow limit) ⟨s, w, limit⟩ := by
  rw [pushed, value, Int64.ofInt_toInt]
  exact straight_of_push (decode_push (.int n)) rfl

theorem straight_var {name : String} {span : Span} (h : w.store.get? name = some (.int (held name))) :
    straight (var name span).instructions ⟨s, w, limit⟩ =
      if s.size < limit then .ok () ⟨s.push ((var name span).pushed held), w, limit⟩
      else .error (.stackOverflow limit) ⟨s, w, limit⟩ := by
  have hd : (Instruction.load .int name).decode none = .ok (.load .int name) := rfl
  rw [pushed, value, Int64.ofInt_toInt]
  exact straight_of_push hd (perform_load h rfl)

theorem straight_neg (operand : Polynomial) (span : Span) (h : s.size < limit) :
    straight [.typed .uminus .int] ⟨s.push (operand.pushed held), w, limit⟩ =
      .ok () ⟨s.push ((neg operand span).pushed held), w, limit⟩ := by
  have hd : (Instruction.typed .uminus .int).decode none = .ok (.unary (.neg .int)) := rfl
  rw [pushed, pushed, value, Int64.ofInt_neg]
  exact (straight_of_push hd (perform_unary (.neg .int) (.ofInt (operand.value held)))).trans (if_pos h)

theorem straight_binary (op : RingOp) (left right : Polynomial) (span : Span) (h : s.size < limit) :
    straight [op.instruction] ⟨(s.push (left.pushed held)).push (right.pushed held), w, limit⟩ =
      .ok () ⟨s.push ((binary op left right span).pushed held), w, limit⟩ := by
  have hresult := op.apply_ofInt (left.value held) (right.value held)
  exact (straight_of_push op.decode_instruction (perform_binary hresult)).trans (if_pos h)

/-- With enough room, the code pushes the value. By induction on the expression, for any stack below. -/
theorem straight_eq_ok (hstore : ∀ use ∈ p.uses, w.store.get? use.1 = some (.int (held use.1)))
    (hroom : s.size + p.depth ≤ limit) :
    straight p.instructions ⟨s, w, limit⟩ = .ok () ⟨s.push (p.pushed held), w, limit⟩ := by
  induction p generalizing s with
  | literal n span => exact (straight_literal held n span).trans (if_pos hroom)
  | var name span => exact (straight_var (hstore _ List.mem_cons_self)).trans (if_pos hroom)
  | group inner span ih => exact ih hstore hroom
  | neg operand span ih =>
    have hplace : s.size < limit := Nat.lt_of_lt_of_le (Nat.lt_add_of_pos_right operand.depth_pos) hroom
    rw [instructions, straight_append, Action.bind_ok (ih hstore hroom), straight_neg operand span hplace]
  | binary op left right span ihl ihr =>
    obtain ⟨hl, hr⟩ := List.forall_mem_append.mp hstore
    have hleft : s.size + left.depth ≤ limit := Nat.le_trans (Nat.add_le_add_left (Nat.le_max_left _ _) _) hroom
    have hplace : s.size < limit := Nat.lt_of_lt_of_le (Nat.lt_add_of_pos_right left.depth_pos) hleft
    have hright : (s.push (left.pushed held)).size + right.depth ≤ limit := by
      show s.size + 1 + right.depth ≤ limit
      rw [depth] at hroom
      omega
    rw [instructions, straight_append, Action.bind_ok (ihl hl hleft), straight_append, Action.bind_ok (ihr hr hright),
      straight_binary op left right span hplace]

/-- Without enough room, the code finds the stack full. -/
theorem straight_eq_error (hstore : ∀ use ∈ p.uses, w.store.get? use.1 = some (.int (held use.1)))
    (hroom : limit < s.size + p.depth) :
    ∃ left, straight p.instructions ⟨s, w, limit⟩ = .error (.stackOverflow limit) left := by
  induction p generalizing s with
  | literal n span =>
    refine ⟨_, (straight_literal held n span).trans (if_neg ?_)⟩
    exact Nat.not_lt.mpr (Nat.le_of_lt_succ hroom)
  | var name span =>
    refine ⟨_, (straight_var (hstore _ List.mem_cons_self)).trans (if_neg ?_)⟩
    exact Nat.not_lt.mpr (Nat.le_of_lt_succ hroom)
  | group inner span ih => exact ih hstore hroom
  | neg operand span ih =>
    obtain ⟨left, hleft⟩ := ih hstore hroom
    exact ⟨left, by rw [instructions, straight_append, Action.bind_error hleft]⟩
  | binary op left right span ihl ihr =>
    obtain ⟨hl, hr⟩ := List.forall_mem_append.mp hstore
    rw [instructions, straight_append]
    by_cases hleft : s.size + left.depth ≤ limit
    · -- The left operand found room, so it is the right one that does not.
      have hright : limit < (s.push (left.pushed held)).size + right.depth := by
        show limit < s.size + 1 + right.depth
        rw [depth] at hroom
        omega
      obtain ⟨m, hm⟩ := ihr hr hright
      refine ⟨m, ?_⟩
      rw [Action.bind_ok (straight_eq_ok hl hleft), straight_append, Action.bind_error hm]
    · obtain ⟨m, hm⟩ := ihl hl (Nat.lt_of_not_le hleft)
      exact ⟨m, Action.bind_error hm⟩

end Polynomial

/-! ### Residues and division -/

/-- Each integer is congruent to exactly one that the machine has. -/
theorem toInt_modEq_iff (k : Int64) (z : Int) : k.toInt ≡ z [ZMOD 2 ^ 64] ↔ k = .ofInt z := by
  constructor
  · intro h
    have hmod : z % (2 ^ 64 : Nat) = k.toInt % (2 ^ 64 : Nat) := h.symm
    have hself : k.toInt.bmod (2 ^ 64) = k.toInt := (Int64.ofInt_eq_iff_bmod_eq_toInt _ _).mp (Int64.ofInt_toInt k)
    refine ((Int64.ofInt_eq_iff_bmod_eq_toInt z k).mpr ?_).symm
    rw [← Int.emod_bmod, hmod, Int.emod_bmod, hself]
  · rintro rfl
    rw [Int64.toInt_ofInt]
    exact Int.bmod_emod

/-- Quotient and remainder of a division toward zero. The quotient of the least integer by -1 is one more than the
machine has, and wraps around. -/
structure Truncated (a b q r : Int64) : Prop where
  recombined : q.toInt * b.toInt + r.toInt ≡ a.toInt [ZMOD 2 ^ 64]
  smaller : r.toInt.natAbs < b.toInt.natAbs
  same_sign : r = 0 ∨ r.toInt.sign = a.toInt.sign
  quotient : ¬(a = .minValue ∧ b = -1) → q.toInt = a.toInt.tdiv b.toInt
  wrapped : a = .minValue → b = -1 → q = .minValue ∧ r = 0

theorem truncated_div_mod {a b : Int64} (h : b ≠ 0) : Truncated a b (a / b) (a % b) where
  recombined := by
    have hquotient : (a / b).toInt ≡ a.toInt.tdiv b.toInt [ZMOD 2 ^ 64] := by
      rw [Int64.toInt_div]
      exact Int.bmod_emod
    have hproduct := (hquotient.mul_right b.toInt).add_right (a % b).toInt
    rwa [Int64.toInt_mod, Int.tdiv_mul_add_tmod, ← Int64.toInt_mod] at hproduct
  smaller := by
    have hpos : 0 < b.toInt.natAbs := Int.natAbs_pos.mpr fun hb => h (Int64.toInt_inj.mp hb)
    rw [Int64.toInt_mod, Int.natAbs_tmod]
    exact Nat.mod_lt _ hpos
  same_sign := by
    rw [Int64.toInt_mod, Int.sign_tmod]
    split
    · rename_i hdvd
      left
      apply Int64.toInt_inj.mp
      rw [Int64.toInt_mod, Int.tmod_eq_zero_of_dvd hdvd]
      rfl
    · exact Or.inr rfl
  quotient hcorner := by
    by_cases ha : a = .minValue
    · exact Int64.toInt_div_of_ne_right a b fun hb => hcorner ⟨ha, hb⟩
    · exact Int64.toInt_div_of_ne_left a b ha
  wrapped := by
    rintro rfl rfl
    exact ⟨Int64.minValue_div_neg_one, by decide⟩

/-- What an instruction does with two integers, `b` on top of `a`, wherever it stands: it faults for a division by zero
exactly if `b` is zero, and else it puts one integer in their place if the stack has room for it. -/
def Instruction.Divides (i : Instruction) (a b result : Int64) : Prop :=
  ∀ (instructions : List Instruction) (image : Image) (j : Nat) (s : Stack) (w : World) (limit : Nat),
    Image.link instructions = .ok image → instructions[j]? = some i →
    ((∃ left, image.step j ⟨(s.push (.int a)).push (.int b), w, limit⟩ = .faulted .divisionByZero left) ↔ b = 0) ∧
    (b ≠ 0 → s.size < limit →
      image.step j ⟨(s.push (.int a)).push (.int b), w, limit⟩ = .running (j + 1) ⟨s.push (.int result), w, limit⟩)

theorem Instruction.divides_of_perform {i : Instruction} {operation : Operation} {a b result : Int64}
    (hjump : i.opcode.isJump = false) (hd : i.decode none = .ok operation)
    (hzero : b = 0 → ∀ s w limit, Exec.perform operation ⟨(s.push (.int a)).push (.int b), w, limit⟩ =
      .error .divisionByZero ⟨s, w, limit⟩)
    (hresult : b ≠ 0 → ∀ s w limit, Exec.perform operation ⟨(s.push (.int a)).push (.int b), w, limit⟩ =
      (Exec.push (.int result) >>= fun _ => pure .next : Exec Flow) ⟨s, w, limit⟩) :
    i.Divides a b result := by
  intro instructions image j s w limit hlink hi
  have hop : image.operations[j]? = some (.ok operation) := by
    obtain ⟨labels, hholds, -⟩ := Image.link_holds hlink
    rw [← hd, ← hholds.operation_of_not_jump hi hjump, Nat.zero_add]
  by_cases hb : b = 0
  · have hstep := Image.step_faulted hop (hzero hb s w limit)
    exact ⟨⟨fun _ => hb, fun _ => ⟨_, hstep⟩⟩, fun hne => absurd hb hne⟩
  · have hperform := hresult hb s w limit
    refine ⟨⟨fun ⟨left, hstep⟩ => ?_, fun h => absurd h hb⟩, fun _ hroom => ?_⟩
    · by_cases hroom : s.size < limit
      · rw [Image.step_next hop (hperform.trans (Action.bind_ok (if_pos hroom)))] at hstep
        cases hstep
      · rw [Image.step_faulted hop (hperform.trans (Action.bind_error (if_neg hroom)))] at hstep
        cases hstep
    · exact Image.step_next hop (hperform.trans (Action.bind_ok (if_pos hroom)))

theorem divides_div (a b : Int64) : (Instruction.typed .div .int).Divides a b (a / b) := by
  have hd : (Instruction.typed .div .int).decode none = .ok (.binary (.arithmetic .div .int)) := rfl
  refine Instruction.divides_of_perform rfl hd (fun hb s w limit => ?_) fun hb s w limit => ?_
  · have hr : (Binary.arithmetic .div .int).apply a b = .error .divisionByZero := if_pos hb
    exact Exec.perform_binary_error hr
  · have hr : (Binary.arithmetic .div .int).apply a b = .ok (a / b) := if_neg hb
    exact Exec.perform_binary hr

theorem divides_mod (a b : Int64) : (Instruction.plain .mod).Divides a b (a % b) := by
  have hd : (Instruction.plain .mod).decode none = .ok (.binary .mod) := rfl
  refine Instruction.divides_of_perform rfl hd (fun hb s w limit => ?_) fun hb s w limit => ?_
  · have hr : Binary.mod.apply a b = .error .divisionByZero := if_pos hb
    exact Exec.perform_binary_error hr
  · have hr : Binary.mod.apply a b = .ok (a % b) := if_neg hb
    exact Exec.perform_binary hr

/-- Integers are exact modulo 2^64. The code of an expression of integers, wherever it stands, pushes the one integer of
the machine that is congruent to the value of the expression, from any machine whose store has integers for its
variables. It does so exactly if the stack has room for as many values as the expression is deep, and else it faults
because the stack is full. Division and remainder fault exactly if the divisor is zero, and else truncate. -/
theorem integers_exact :
    (∀ (p : Polynomial) (scope : Scope), (∀ use ∈ p.uses, scope use.1 use.2 = .ok .int) →
      ∃ l, p.toExpr.lower scope = .ok l ∧ l.ty = .int ∧
        ∀ (before behind : List Instruction) (image : Image) (m : Machine) (held : String → Int64),
          Image.link (before ++ l.code.map Prod.fst ++ behind) = .ok image →
          (∀ use ∈ p.uses, m.world.store.get? use.1 = some (.int (held use.1))) →
          ∃ n : Int64, (∀ k : Int64, k.toInt ≡ p.value held [ZMOD 2 ^ 64] ↔ k = n) ∧
            (m.stack.size + p.depth ≤ m.limit →
              image.Leads l.code.length before.length m (before.length + l.code.length)
                ⟨m.stack.push (.int n), m.world, m.limit⟩) ∧
            (m.limit < m.stack.size + p.depth →
              ∃ steps < l.code.length, ∃ m' left, image.Leads steps before.length m (before.length + steps) m' ∧
                image.step (before.length + steps) m' = .faulted (.stackOverflow m.limit) left)) ∧
    ∀ a b : Int64, ∃ q r : Int64,
      (Instruction.typed .div .int).Divides a b q ∧ (Instruction.plain .mod).Divides a b r ∧
      (b ≠ 0 → Truncated a b q r) := by
  refine ⟨fun p scope hscope => ?_, fun a b => ⟨a / b, a % b, divides_div a b, divides_mod a b, truncated_div_mod⟩⟩
  obtain ⟨l, hl, hty, hcode⟩ := Polynomial.exists_lowers hscope
  refine ⟨l, hl.lowerIn_eq, hty, fun before behind image m held hlink hstore => ?_⟩
  obtain ⟨labels, hwhole, -⟩ := Image.link_holds hlink
  have hholds := hwhole.left.right
  rw [hcode, Nat.zero_add] at hholds
  have hlength : l.code.length = p.instructions.length := by rw [← hcode, List.length_map]
  rw [hlength]
  refine ⟨.ofInt (p.value held), fun k => toInt_modEq_iff k _, fun hroom => ?_, fun hroom => ?_⟩
  · exact hholds.leads p.isJump_instructions (Polynomial.straight_eq_ok hstore hroom)
  · obtain ⟨left, hleft⟩ := Polynomial.straight_eq_error hstore hroom
    obtain ⟨steps, hsteps, m', hleads, hfault⟩ := hholds.leads_fault p.isJump_instructions hleft
    exact ⟨steps, hsteps, m', left, hleads, hfault⟩

/-- `(x + 1) * -x` -/
def Polynomial.wrapping : Polynomial :=
  .binary .mul (.group (.binary .add (.var "x" .unknown) (.literal 1 .unknown) .unknown) .unknown)
    (.neg (.var "x" .unknown) .unknown) .unknown

/-- With the greatest integer for `x`, the sum wraps around to the least one, and so does the product. The stack has
room for just the two values that it takes. -/
theorem integers_exact_wrapping :
    (∃ l image w, Polynomial.wrapping.toExpr.lower (fun _ _ => .ok .int : Scope) = .ok l ∧
      Image.link (l.code.map Prod.fst) = .ok image ∧ w.store.get? "x" = some (.int .maxValue) ∧
      image.Leads 6 0 ⟨.empty, w, 2⟩ 6 ⟨Stack.empty.push (.int .minValue), w, 2⟩) ∧
    (Instruction.typed .div .int).Divides .minValue (-1) .minValue ∧
    (Instruction.plain .mod).Divides .minValue (-1) 0 := by
  constructor
  · obtain ⟨l, hl, -, hrun⟩ := integers_exact.1 Polynomial.wrapping (fun _ _ => .ok .int) fun _ _ => rfl
    obtain ⟨image, hlink, hlength⟩ :
        ∃ image, Image.link ([] ++ l.code.map Prod.fst ++ []) = .ok image ∧ l.code.length = 6 := by
      cases hl
      exact ⟨_, rfl, rfl⟩
    let w : World := ⟨⟨[("x", .int .maxValue)]⟩, [], .unbounded⟩
    have hstore : ∀ use ∈ Polynomial.wrapping.uses, w.store.get? use.1 = some (.int .maxValue) := by decide
    obtain ⟨n, hn, hleads, -⟩ := hrun [] [] image ⟨.empty, w, 2⟩ (fun _ => .maxValue) hlink hstore
    obtain rfl := (hn .minValue).mp (by decide)
    have hleads := hleads (by decide)
    rw [hlength] at hleads
    exact ⟨l, image, w, hl, by simpa using hlink, rfl, hleads⟩
  · obtain ⟨q, r, hdiv, hmod, htruncated⟩ := integers_exact.2 .minValue (-1)
    obtain ⟨rfl, rfl⟩ := (htruncated (by decide)).wrapped rfl rfl
    exact ⟨hdiv, hmod⟩

end StackMachine
