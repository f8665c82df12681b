import StackMachine.Evaluation
import StackMachine.Machine.Image
import StackMachine.Proofs.Typing

/-! Operators on values, beside the operations that are chosen for them by type.

Evaluation looks at the two values and widens the integer that meets a float. Code looks at the two types. When the
values are of these types, the operation that the types select computes what evaluation does. -/

namespace StackMachine

namespace Kind

@[simp] theorem ofTy?_toTy (kind : Kind) : ofTy? kind.toTy = some kind := by
  cases kind <;> rfl

theorem ofTy?_eq_some_iff {ty : Ty} {kind : Kind} : ofTy? ty = some kind ↔ ty = kind.toTy := by
  cases ty <;> cases kind <;> simp [ofTy?, toTy]

end Kind

namespace Value

/-- An operand of the given type, brought to the kind in which it is computed with. -/
def bring (v : Value) (ty : Ty) (kind : Kind) : Value :=
  if ty = .int ∧ kind = .float then v.widen else v

variable {a b : Value} {left right : Ty} {kind : Kind}

/-- Bringing two numbers to their common kind by type is aligning them by value. -/
theorem align_of_numericKind (hk : BinaryOp.numericKind? left right = some kind) (ha : Kind.ofTy? left = some a.kind)
    (hb : Kind.ofTy? right = some b.kind) :
    ∃ numeric : Numeric, kind = numeric.kind ∧ ∃ x y : numeric.kind.Carrier,
      a.bring left kind = .of _ x ∧ b.bring right kind = .of _ y ∧ a.align b = (.of _ x, .of _ y) := by
  obtain rfl := Kind.ofTy?_eq_some_iff.mp ha
  obtain rfl := Kind.ofTy?_eq_some_iff.mp hb
  cases a with
  | int n =>
    cases b with
    | int n' =>
      cases hk
      exact ⟨.int, rfl, n, n', rfl, rfl, rfl⟩
    | float y =>
      cases hk
      exact ⟨.float, rfl, n.toFloat, y, rfl, rfl, rfl⟩
    | string | bool => cases hk
  | float x =>
    cases b with
    | int n' =>
      cases hk
      exact ⟨.float, rfl, x, n'.toFloat, rfl, rfl, rfl⟩
    | float y =>
      cases hk
      exact ⟨.float, rfl, x, y, rfl, rfl, rfl⟩
    | string | bool => cases hk
  | string | bool => cases b <;> cases hk

theorem align_of_commonKind (hk : BinaryOp.commonKind? left right = some kind) (ha : Kind.ofTy? left = some a.kind)
    (hb : Kind.ofTy? right = some b.kind) :
    ∃ x y : kind.Carrier,
      a.bring left kind = .of _ x ∧ b.bring right kind = .of _ y ∧ a.align b = (.of _ x, .of _ y) := by
  unfold BinaryOp.commonKind? at hk
  cases hn : BinaryOp.numericKind? left right with
  | some kind' =>
    rw [hn] at hk
    cases hk
    obtain ⟨numeric, rfl, x, y, h⟩ := align_of_numericKind hn ha hb
    exact ⟨x, y, h⟩
  | none =>
    rw [hn] at hk
    obtain rfl := Kind.ofTy?_eq_some_iff.mp ha
    obtain rfl := Kind.ofTy?_eq_some_iff.mp hb
    -- Two kinds that are not both numeric are equal here, and nothing is widened.
    cases a <;> cases b <;> cases hk
    · cases hn
    · cases hn
    · exact ⟨_, _, rfl, rfl, rfl⟩
    · exact ⟨_, _, rfl, rfl, rfl⟩

theorem equal?_of (kind : Kind) (x y : kind.Carrier) : (of kind x).equal? (of kind y) = some (kind.equal x y) := by
  cases kind <;> rfl

end Value

namespace Arithmetic

theorem evaluate_of (op : Arithmetic) (numeric : Numeric) (x y : numeric.kind.Carrier) :
    op.evaluate (.of numeric.kind x, .of numeric.kind y) = some ((op.apply numeric x y).map (Value.of numeric.kind)) := by
  cases numeric <;> rfl

end Arithmetic

namespace Relation

theorem evaluate_of (relation : Relation) (numeric : Numeric) (x y : numeric.kind.Carrier) :
    relation.evaluate (.of numeric.kind x, .of numeric.kind y) = some (.ok (.bool (relation.holds numeric x y))) := by
  cases numeric <;> rfl

end Relation

/-- One instruction computes the result of an operator from two operands that are of the kind it asks for. -/
def Instruction.Computes (i : Instruction) (a b : Value) (ty : Ty) (applied : Applied) : Prop :=
  ∃ (operation : Binary) (x y : operation.operand.Carrier), a = .of _ x ∧ b = .of _ y ∧
    i.decode none = .ok (.binary operation) ∧ ty = operation.result.toTy ∧
    applied = some ((operation.apply x y).map (Value.of operation.result))

namespace BinaryOp

variable {op : BinaryOp} {left right : Ty} {kind : Kind} {plan : BinaryPlan} {a b : Value}

theorem computes_arithmetic {arithmetic : Arithmetic} {opcode : Opcode} (hk : numericKind? left right = some kind)
    (ha : Kind.ofTy? left = some a.kind) (hb : Kind.ofTy? right = some b.kind)
    (hd : ∀ numeric : Numeric,
      (Instruction.typed opcode numeric.kind).decode none = .ok (.binary (.arithmetic arithmetic numeric))) :
    (Instruction.typed opcode kind).Computes (a.bring left kind) (b.bring right kind) kind.toTy
      (arithmetic.evaluate (a.align b)) := by
  obtain ⟨numeric, rfl, x, y, hx, hy, halign⟩ := Value.align_of_numericKind hk ha hb
  refine ⟨.arithmetic arithmetic numeric, x, y, hx, hy, hd numeric, rfl, ?_⟩
  rw [halign, arithmetic.evaluate_of]
  rfl

theorem computes_compare {relation : Relation} {opcode : Opcode} (hk : numericKind? left right = some kind)
    (ha : Kind.ofTy? left = some a.kind) (hb : Kind.ofTy? right = some b.kind)
    (hd : ∀ numeric : Numeric,
      (Instruction.typed opcode numeric.kind).decode none = .ok (.binary (.compare relation numeric))) :
    (Instruction.typed opcode kind).Computes (a.bring left kind) (b.bring right kind) .bool
      (relation.evaluate (a.align b)) := by
  obtain ⟨numeric, rfl, x, y, hx, hy, halign⟩ := Value.align_of_numericKind hk ha hb
  refine ⟨.compare relation numeric, x, y, hx, hy, hd numeric, rfl, ?_⟩
  rw [halign, relation.evaluate_of]
  rfl

/-- Every operator but `!=` is one instruction on operands of the kind that the plan asks for. -/
theorem computes_of_plan (hop : op ≠ .ne) (hp : op.plan? left right = some plan) (ha : Kind.ofTy? left = some a.kind)
    (hb : Kind.ofTy? right = some b.kind) :
    ∃ i, plan.instructions = [i] ∧
      i.Computes (a.bring left plan.operand) (b.bring right plan.operand) plan.result (op.evaluate a b) := by
  cases op with
  | ne => exact absurd rfl hop
  | add | sub | mul | div =>
    obtain ⟨kind, hk, rfl⟩ := Option.map_eq_some_iff.mp hp
    exact ⟨_, rfl, computes_arithmetic hk ha hb fun numeric => by cases numeric <;> rfl⟩
  | lt | le | gt | ge =>
    obtain ⟨kind, hk, rfl⟩ := Option.map_eq_some_iff.mp hp
    exact ⟨_, rfl, computes_compare hk ha hb fun numeric => by cases numeric <;> rfl⟩
  | eq =>
    obtain ⟨kind, hk, rfl⟩ := Option.map_eq_some_iff.mp hp
    obtain ⟨x, y, hx, hy, halign⟩ := Value.align_of_commonKind hk ha hb
    refine ⟨_, rfl, .equal kind, x, y, hx, hy, rfl, rfl, ?_⟩
    rw [evaluate, halign, Value.equal?_of]
    rfl
  | mod =>
    simp only [plan?] at hp
    split at hp
    · rename_i hty
      cases hp
      obtain ⟨rfl, rfl⟩ := hty
      cases a <;> cases ha
      cases b <;> cases hb
      rename_i n n'
      refine ⟨_, rfl, .mod, n, n', rfl, rfl, rfl, rfl, ?_⟩
      simp only [evaluate, Binary.apply]
      split <;> rfl
    · cases hp
  | concat =>
    simp only [plan?] at hp
    split at hp
    · rename_i hty
      cases hp
      obtain ⟨rfl, rfl⟩ := hty
      cases a <;> cases ha
      cases b <;> cases hb
      exact ⟨_, rfl, .concat, _, _, rfl, rfl, rfl, rfl, rfl⟩
    · cases hp

theorem evaluate_ne_of_plan (hp : BinaryOp.ne.plan? left right = some plan) (ha : Kind.ofTy? left = some a.kind)
    (hb : Kind.ofTy? right = some b.kind) :
    ∃ (kind : Kind) (x y : kind.Carrier), a.bring left plan.operand = .of _ x ∧ b.bring right plan.operand = .of _ y ∧
      plan = ⟨kind, [.typed .eq kind, .plain .not], .bool⟩ ∧
      BinaryOp.ne.evaluate a b = some (.ok (.bool !(kind.equal x y))) := by
  obtain ⟨kind, hk, rfl⟩ := Option.map_eq_some_iff.mp hp
  obtain ⟨x, y, hx, hy, halign⟩ := Value.align_of_commonKind hk ha hb
  refine ⟨kind, x, y, hx, hy, rfl, ?_⟩
  rw [evaluate, halign, Value.equal?_of]
  rfl

end BinaryOp

namespace UnaryOp

theorem evaluate_of_instruction {op : UnaryOp} {ty : Ty} {i : Instruction} {v : Value}
    (hi : op.instruction? ty = some i) (hv : Kind.ofTy? ty = some v.kind) :
    ∃ (operation : Unary) (x : operation.operand.Carrier), v = .of _ x ∧ i.decode none = .ok (.unary operation) ∧
      ty = operation.result.toTy ∧ op.evaluate v = some (.ok (.of _ (operation.apply x))) := by
  obtain rfl := Kind.ofTy?_eq_some_iff.mp hv
  cases op with
  | neg =>
    cases v with
    | int n =>
      cases hi
      exact ⟨.neg .int, n, rfl, rfl, rfl, rfl⟩
    | float x =>
      cases hi
      exact ⟨.neg .float, x, rfl, rfl, rfl, rfl⟩
    | string | bool => cases hi
  | not =>
    cases v with
    | bool b =>
      cases hi
      exact ⟨.not, b, rfl, rfl, rfl, rfl⟩
    | int | float | string => cases hi

end UnaryOp

end StackMachine
