import StackMachine.Proofs.Lowering
import StackMachine.Typing.Check

/-! Typed expressions.

`Expr.Typed` is the relation behind the three places where types of expressions are computed: the checker decides it, and
inference and the code generator give the type that it assigns. A larger table types whatever a smaller one types. -/

namespace StackMachine

namespace SymbolTable

/-- A variable is declared with a type. -/
def HasType (table : SymbolTable) (name : String) (ty : Ty) : Prop :=
  ∃ symbol, table.find? name = some symbol ∧ symbol.ty = ty

/-- What one table says of a variable, the other says too. -/
def Extends (larger table : SymbolTable) : Prop :=
  ∀ name symbol, table.find? name = some symbol → larger.find? name = some symbol

variable {table larger largest : SymbolTable} {name : String} {ty ty' : Ty} {span : Span}

theorem typeOf_eq_ok_iff : table.typeOf name span = .ok ty ↔ table.HasType name ty := by
  unfold typeOf HasType
  cases table.find? name with
  | none => exact ⟨fun h => (by cases h), fun ⟨_, h, _⟩ => (by cases h)⟩
  | some symbol => exact ⟨fun h => ⟨symbol, rfl, Except.ok.inj h⟩, fun ⟨_, h, hty⟩ => by cases h; exact congrArg _ hty⟩

theorem HasType.unique (h : table.HasType name ty) (h' : table.HasType name ty') : ty = ty' := by
  obtain ⟨symbol, hs, rfl⟩ := h
  obtain ⟨symbol', hs', rfl⟩ := h'
  rw [hs] at hs'
  cases hs'
  rfl

theorem HasType.mono (hx : larger.Extends table) (h : table.HasType name ty) : larger.HasType name ty := by
  obtain ⟨symbol, hs, hty⟩ := h
  exact ⟨symbol, hx name symbol hs, hty⟩

theorem Extends.refl (table : SymbolTable) : table.Extends table :=
  fun _ _ h => h

theorem Extends.trans (h : largest.Extends larger) (h' : larger.Extends table) : largest.Extends table :=
  fun name symbol hs => h name symbol (h' name symbol hs)

end SymbolTable

/-- The types of expressions, given those of the variables. -/
inductive Expr.Typed (table : SymbolTable) : Expr → Ty → Prop where
  | int (n : Int64) (span : Span) : Typed table (.int n span) .int
  | float (x : Float) (span : Span) : Typed table (.float x span) .float
  | string (s : String) (span : Span) : Typed table (.string s span) .string
  | bool (b : Bool) (span : Span) : Typed table (.bool b span) .bool
  | var {name : String} {ty : Ty} (span : Span) (declared : table.HasType name ty) : Typed table (.var name span) ty
  | binary {op : BinaryOp} {left right : Expr} {leftType rightType ty : Ty} (span : Span)
      (hl : Typed table left leftType) (hr : Typed table right rightType)
      (result : op.result? leftType rightType = some ty) : Typed table (.binary op left right span) ty
  | unary {op : UnaryOp} {operand : Expr} {operandType ty : Ty} (span : Span) (ho : Typed table operand operandType)
      (result : op.result? operandType = some ty) : Typed table (.unary op operand span) ty
  | logical {op : LogicalOp} {left right : Expr} (span : Span) (hl : Typed table left .bool)
      (hr : Typed table right .bool) : Typed table (.logical op left right span) .bool
  | group {inner : Expr} {ty : Ty} (span : Span) (h : Typed table inner ty) : Typed table (.group inner span) ty
  | assign {target : String} {value : Expr} {valueType ty : Ty} (span : Span) (declared : table.HasType target ty)
      (hv : Typed table value valueType) (fits : valueType.assignableTo ty = true) :
      Typed table (.assign target value span) ty

theorem BinaryOp.typing_eq_ok {op : BinaryOp} {left right ty : Ty} {span : Span} :
    op.typing left right span = .ok ty ↔ op.result? left right = some ty := by
  unfold typing
  cases op.result? left right with
  | none => exact ⟨fun h => (by cases h), fun h => (by cases h)⟩
  | some result => exact ⟨fun h => congrArg some (Except.ok.inj h), fun h => congrArg _ (Option.some.inj h)⟩

theorem UnaryOp.typing_eq_ok {op : UnaryOp} {operand ty : Ty} {span : Span} :
    op.typing operand span = .ok ty ↔ op.result? operand = some ty := by
  unfold typing
  cases op.result? operand with
  | none => exact ⟨fun h => (by cases h), fun h => (by cases h)⟩
  | some result => exact ⟨fun h => congrArg some (Except.ok.inj h), fun h => congrArg _ (Option.some.inj h)⟩

theorem LogicalOp.typing_eq_ok {op : LogicalOp} {left right ty : Ty} {span : Span} :
    op.typing left right span = .ok ty ↔ left = .bool ∧ right = .bool ∧ ty = .bool := by
  cases left <;> cases right <;> simp [typing, result?, eq_comm]

namespace Expr

variable {table larger : SymbolTable} {e : Expr} {ty ty' : Ty}

theorem Typed.mono (hx : larger.Extends table) (h : e.Typed table ty) : e.Typed larger ty := by
  induction h with
  | int n span => exact .int n span
  | float x span => exact .float x span
  | string s span => exact .string s span
  | bool b span => exact .bool b span
  | var span declared => exact .var span (declared.mono hx)
  | binary span _ _ result ihl ihr => exact .binary span ihl ihr result
  | unary span _ result iho => exact .unary span iho result
  | logical span _ _ ihl ihr => exact .logical span ihl ihr
  | group span _ ih => exact .group span ih
  | assign span declared _ fits ih => exact .assign span (declared.mono hx) ih fits

theorem check_eq_ok_iff : e.check table.typeOf = .ok ty ↔ e.Typed table ty := by
  constructor
  · intro h
    induction e generalizing ty with
    | int n span | float n span | string n span | bool n span =>
      cases h
      constructor
    | var name span => exact .var span (SymbolTable.typeOf_eq_ok_iff.mp h)
    | binary op left right span ihl ihr =>
      obtain ⟨leftType, hl, h⟩ := Except.bind_eq_ok.mp h
      obtain ⟨rightType, hr, h⟩ := Except.bind_eq_ok.mp h
      exact .binary span (ihl hl) (ihr hr) (BinaryOp.typing_eq_ok.mp h)
    | unary op operand span ih =>
      obtain ⟨operandType, ho, h⟩ := Except.bind_eq_ok.mp h
      exact .unary span (ih ho) (UnaryOp.typing_eq_ok.mp h)
    | logical op left right span ihl ihr =>
      obtain ⟨leftType, hl, h⟩ := Except.bind_eq_ok.mp h
      obtain ⟨rightType, hr, h⟩ := Except.bind_eq_ok.mp h
      obtain ⟨rfl, rfl, rfl⟩ := LogicalOp.typing_eq_ok.mp h
      exact .logical span (ihl hl) (ihr hr)
    | group inner span ih => exact .group span (ih h)
    | assign target value span ih =>
      obtain ⟨targetType, ht, h⟩ := Except.bind_eq_ok.mp h
      obtain ⟨valueType, hv, h⟩ := Except.bind_eq_ok.mp h
      split at h
      · rename_i fits
        cases h
        exact .assign span (SymbolTable.typeOf_eq_ok_iff.mp ht) (ih hv) fits
      · cases h
  · intro h
    induction h with
    | int | float | string | bool => rfl
    | var span declared => exact SymbolTable.typeOf_eq_ok_iff.mpr declared
    | binary span _ _ result ihl ihr =>
      rw [check, Except.bind_ok ihl, Except.bind_ok ihr]
      exact BinaryOp.typing_eq_ok.mpr result
    | unary span _ result iho =>
      rw [check, Except.bind_ok iho]
      exact UnaryOp.typing_eq_ok.mpr result
    | logical span _ _ ihl ihr =>
      rw [check, Except.bind_ok ihl, Except.bind_ok ihr]
      exact LogicalOp.typing_eq_ok.mpr ⟨rfl, rfl, rfl⟩
    | group span _ ih => exact ih
    | assign span declared _ fits ih =>
      rw [check, Except.bind_ok (SymbolTable.typeOf_eq_ok_iff.mpr declared), Except.bind_ok ih, if_pos fits]

theorem Typed.infer_eq (h : e.Typed table ty) : e.infer table.typeOf = .ok ty := by
  induction h with
  | int | float | string | bool => rfl
  | var span declared => exact SymbolTable.typeOf_eq_ok_iff.mpr declared
  | binary span _ _ result ihl ihr =>
    rw [infer, Except.bind_ok ihl, Except.bind_ok ihr]
    exact BinaryOp.typing_eq_ok.mpr result
  | unary span _ result iho =>
    rw [infer, Except.bind_ok iho]
    exact UnaryOp.typing_eq_ok.mpr result
  | logical span _ _ ihl ihr =>
    rw [infer, Except.bind_ok ihl, Except.bind_ok ihr]
    exact LogicalOp.typing_eq_ok.mpr ⟨rfl, rfl, rfl⟩
  | group span _ ih => exact ih
  | assign span declared _ _ _ => exact SymbolTable.typeOf_eq_ok_iff.mpr declared

theorem Typed.unique (h : e.Typed table ty) (h' : e.Typed table ty') : ty = ty' :=
  Except.ok.inj (h.infer_eq.symm.trans h'.infer_eq)

end Expr

/-! ### The types that code is generated for -/

/-- Exactly the operands that an operator has a type for are the ones it has code for. -/
theorem BinaryOp.map_result_plan? (op : BinaryOp) (left right : Ty) :
    (op.plan? left right).map BinaryPlan.result = op.result? left right := by
  cases op <;> cases left <;> cases right <;> rfl

theorem UnaryOp.map_instruction? (op : UnaryOp) (operand : Ty) :
    (op.instruction? operand).map (fun _ => operand) = op.result? operand := by
  cases op <;> cases operand <;> rfl

namespace Expr

open Lowering

variable {table : SymbolTable} {e : Expr} {chain : Option Span} {l : Lowered}

theorem Lowers.typed (h : e.Lowers table.typeOf chain l) : e.Typed table l.ty := by
  induction h with
  | int | float | string | bool => constructor
  | var chain hty => exact .var _ (SymbolTable.typeOf_eq_ok_iff.mp hty)
  | @binary chain op left right span leftType rightType plan l r hleft hright hplan hl hr ihl ihr =>
    -- The types asked for beforehand are those of the code that was then generated.
    obtain rfl : l.ty = leftType := Except.ok.inj (ihl.infer_eq.symm.trans hleft)
    obtain rfl : r.ty = rightType := Except.ok.inj (ihr.infer_eq.symm.trans hright)
    refine .binary span ihl ihr ?_
    rw [← BinaryOp.map_result_plan?, hplan]
    rfl
  | unary chain span _ hi ih =>
    refine .unary span ih ?_
    rw [← UnaryOp.map_instruction?, hi]
    rfl
  | logical chain span _ _ hbool ihl ihr => exact .logical span (hbool.1 ▸ ihl) (hbool.2 ▸ ihr)
  | group chain span _ ih => exact .group span ih
  | assign _ hty _ hc ih | assignWithin _ hty _ hc ih =>
    exact .assign _ (SymbolTable.typeOf_eq_ok_iff.mp hty) ih (coercion_eq_ok.mp hc).1

end Expr

end StackMachine
