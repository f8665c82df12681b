import StackMachine.Lowering.Stmt
import StackMachine.Proofs.Actions

/-! What lowering does, case by case.

`Expr.Lowers` has one rule for each form of expression, two for assignments: within a chain of assignments the value stays
in the variable. For statements there is one lemma for each form. Later proofs follow these rules and do not look into
the code generator again. -/

namespace StackMachine

open Lowering

namespace Lowering

variable {ty : Ty} {span : Span} {kind : Kind}

theorem ask_eq_ok {answer : Except TypeError Ty} : ask answer = .ok ty ↔ answer = .ok ty :=
  Except.mapError_eq_ok

theorem kindOf_eq_ok : kindOf ty span = .ok kind ↔ Kind.ofTy? ty = some kind := by
  unfold kindOf
  cases Kind.ofTy? ty with
  | none => exact ⟨fun h => (by cases h), fun h => (by cases h)⟩
  | some kind => exact ⟨fun h => congrArg some (Except.ok.inj h), fun h => congrArg _ (Option.some.inj h)⟩

/-- Whether a value is widened when it is assigned depends on the two types alone. -/
theorem coercion_eq_ok {source target : Ty} {name : String} {code : Emitted} :
    coercion source target name span = .ok code ↔
      source.assignableTo target = true ∧ code = if source = target then [] else [(.plain .itof, span.line)] := by
  cases source <;> cases target <;> simp [coercion, Ty.assignableTo, eq_comm]

end Lowering

/-! ### Expressions -/

/-- The code of an expression, with the span of the outermost assignment if it is what an assignment assigns. -/
inductive Expr.Lowers (oracle : Oracle) : Option Span → Expr → Lowered → Prop where
  | int (chain : Option Span) (n : Int64) (span : Span) :
      Lowers oracle chain (.int n span) ⟨[(.push .int (toString n.toInt), span.line)], .int, none⟩
  | float (chain : Option Span) (x : Float) (span : Span) :
      Lowers oracle chain (.float x span) ⟨[(.push .float (Decimal.literal x), span.line)], .float, none⟩
  | string (chain : Option Span) (s : String) (span : Span) :
      Lowers oracle chain (.string s span) ⟨[(.push .string (Text.quote s), span.line)], .string, none⟩
  | bool (chain : Option Span) (b : Bool) (span : Span) :
      Lowers oracle chain (.bool b span) ⟨[(.push .bool (toString b), span.line)], .bool, none⟩
  | var (chain : Option Span) {name : String} {span : Span} {ty : Ty} {kind : Kind}
      (hty : oracle.declaredType name span = .ok ty) (hkind : Kind.ofTy? ty = some kind) :
      Lowers oracle chain (.var name span) ⟨[(.load kind name, span.line)], ty, none⟩
  | binary (chain : Option Span) {op : BinaryOp} {left right : Expr} (span : Span) {leftType rightType : Ty}
      {plan : BinaryPlan} {l r : Lowered} (hleft : oracle.typeOf left = .ok leftType)
      (hright : oracle.typeOf right = .ok rightType) (hplan : op.plan? leftType rightType = some plan)
      (hl : Lowers oracle none left l) (hr : Lowers oracle none right r) :
      Lowers oracle chain (.binary op left right span)
        ⟨l.code ++ widening leftType plan.operand left.line ++ (r.code ++ widening rightType plan.operand right.line)
          ++ plan.instructions.map fun i => (i, span.line), plan.result, none⟩
  | unary (chain : Option Span) {op : UnaryOp} {operand : Expr} (span : Span) {i : Instruction} {l : Lowered}
      (hl : Lowers oracle none operand l) (hi : op.instruction? l.ty = some i) :
      Lowers oracle chain (.unary op operand span) ⟨l.code ++ [(i, span.line)], l.ty, none⟩
  | logical (chain : Option Span) {op : LogicalOp} {left right : Expr} (span : Span) {l r : Lowered}
      (hl : Lowers oracle none left l) (hr : Lowers oracle none right r) (hbool : l.ty = .bool ∧ r.ty = .bool) :
      Lowers oracle chain (.logical op left right span)
        ⟨l.code ++ r.code ++ [(.plain op.opcode, span.line)], .bool, none⟩
  | group (chain : Option Span) {inner : Expr} (span : Span) {l : Lowered} (h : Lowers oracle none inner l) :
      Lowers oracle chain (.group inner span) l
  | assign {target : String} {value : Expr} {span : Span} {source : Lowered} {ty : Ty} {kind : Kind} {coerced : Emitted}
      (hs : Lowers oracle (some span) value source) (hty : oracle.declaredType target span = .ok ty)
      (hkind : Kind.ofTy? ty = some kind) (hc : coercion source.ty ty target span = .ok coerced) :
      Lowers oracle none (.assign target value span)
        ⟨source.code ++ reload source.saved span.line ++ coerced ++ [(.save kind target, span.line)]
          ++ [(.load kind target, span.line)], ty, none⟩
  | assignWithin {target : String} {value : Expr} {span place : Span} {source : Lowered} {ty : Ty} {kind : Kind}
      {coerced : Emitted} (hs : Lowers oracle (some place) value source)
      (hty : oracle.declaredType target place = .ok ty) (hkind : Kind.ofTy? ty = some kind)
      (hc : coercion source.ty ty target place = .ok coerced) :
      Lowers oracle (some place) (.assign target value span)
        ⟨source.code ++ reload source.saved place.line ++ coerced ++ [(.save kind target, place.line)], ty,
          some (target, kind)⟩

namespace Expr

variable {oracle : Oracle} {e : Expr} {chain : Option Span} {l : Lowered}

theorem lowers_of_lowerIn (h : e.lowerIn oracle chain = .ok l) : e.Lowers oracle chain l := by
  induction e generalizing chain l with
  | int n span | float n span | string n span | bool n span =>
    cases h
    constructor
  | var name span =>
    obtain ⟨ty, hty, h⟩ := Except.bind_eq_ok.mp h
    obtain ⟨kind, hkind, h⟩ := Except.bind_eq_ok.mp h
    cases h
    exact .var chain (ask_eq_ok.mp hty) (kindOf_eq_ok.mp hkind)
  | binary op left right span ihl ihr =>
    obtain ⟨leftType, hleft, h⟩ := Except.bind_eq_ok.mp h
    obtain ⟨rightType, hright, h⟩ := Except.bind_eq_ok.mp h
    split at h
    · cases h
    · rename_i plan hplan
      obtain ⟨l, hl, h⟩ := Except.bind_eq_ok.mp h
      obtain ⟨r, hr, h⟩ := Except.bind_eq_ok.mp h
      cases h
      exact .binary chain span (ask_eq_ok.mp hleft) (ask_eq_ok.mp hright) hplan (ihl hl) (ihr hr)
  | unary op operand span ih =>
    obtain ⟨l, hl, h⟩ := Except.bind_eq_ok.mp h
    split at h
    · cases h
    · rename_i i hi
      cases h
      exact .unary chain span (ih hl) hi
  | logical op left right span ihl ihr =>
    obtain ⟨l, hl, h⟩ := Except.bind_eq_ok.mp h
    obtain ⟨r, hr, h⟩ := Except.bind_eq_ok.mp h
    split at h
    · rename_i hbool
      cases h
      exact .logical chain span (ihl hl) (ihr hr) hbool
    · cases h
  | group inner span ih => exact .group chain span (ih h)
  | assign target value span ih =>
    obtain ⟨source, hs, h⟩ := Except.bind_eq_ok.mp h
    obtain ⟨ty, hty, h⟩ := Except.bind_eq_ok.mp h
    obtain ⟨kind, hkind, h⟩ := Except.bind_eq_ok.mp h
    obtain ⟨coerced, hc, h⟩ := Except.bind_eq_ok.mp h
    cases chain with
    | none =>
      cases h
      exact .assign (ih hs) (ask_eq_ok.mp hty) (kindOf_eq_ok.mp hkind) hc
    | some place =>
      cases h
      exact .assignWithin (ih hs) (ask_eq_ok.mp hty) (kindOf_eq_ok.mp hkind) hc

theorem Lowers.lowerIn_eq (h : e.Lowers oracle chain l) : e.lowerIn oracle chain = .ok l := by
  induction h with
  | int | float | string | bool => rfl
  | var chain hty hkind =>
    rw [lowerIn, Except.bind_ok (ask_eq_ok.mpr hty), Except.bind_ok (kindOf_eq_ok.mpr hkind)]
    rfl
  | binary chain span hleft hright hplan hl hr ihl ihr =>
    rw [lowerIn, Except.bind_ok (ask_eq_ok.mpr hleft), Except.bind_ok (ask_eq_ok.mpr hright), hplan]
    dsimp only
    rw [Except.bind_ok ihl, Except.bind_ok ihr]
    rfl
  | unary chain span hl hi ih =>
    rw [lowerIn, Except.bind_ok ih, hi]
    rfl
  | logical chain span hl hr hbool ihl ihr =>
    rw [lowerIn, Except.bind_ok ihl, Except.bind_ok ihr, if_pos hbool]
    rfl
  | group chain span h ih => exact ih
  | assign hs hty hkind hc ih | assignWithin hs hty hkind hc ih =>
    rw [lowerIn]
    dsimp only [Option.getD]
    rw [Except.bind_ok ih, Except.bind_ok (ask_eq_ok.mpr hty), Except.bind_ok (kindOf_eq_ok.mpr hkind),
      Except.bind_ok hc]
    rfl

/-- Only an assignment within a chain leaves its value in a variable. -/
theorem Lowers.saved_eq_none (h : e.Lowers oracle none l) : l.saved = none := by
  generalize hchain : none = chain at h
  induction h with
  | group chain span h ih => exact ih rfl
  | assignWithin => cases hchain
  | int | float | string | bool | var | binary | unary | logical | assign => rfl

theorem Lowers.complete_eq (h : e.Lowers oracle none l) (line : Nat) :
    (l.code ++ reload l.saved line).map Prod.fst = l.code.map Prod.fst := by
  rw [h.saved_eq_none, reload, List.append_nil]

end Expr

/-! ### Parts of statements -/

namespace Lowering

variable {oracle : Oracle} {e : Expr} {code : Emitted} {line : Nat} {label name : String} {span : Span}
  {names : List String}

theorem discard_eq_ok (h : discard oracle e = .ok code) :
    ∃ l, e.Lowers oracle none l ∧ code = l.code ++ [(.plain .pop, e.line)] := by
  obtain ⟨l, hl, h⟩ := Except.bind_eq_ok.mp h
  cases h
  exact ⟨l, Expr.lowers_of_lowerIn hl, rfl⟩

/-- A clause that is there is an assignment. -/
theorem clauseCode_eq_ok {clause : Clause} {part : Option Expr} (h : clauseCode oracle clause part = .ok code) :
    (part = none ∧ code = []) ∨ ∃ e, part = some e ∧ e.isAssign = true ∧ discard oracle e = .ok code := by
  cases part with
  | none =>
    cases h
    exact Or.inl ⟨rfl, rfl⟩
  | some e =>
    rw [clauseCode] at h
    split at h
    · rename_i hassign
      exact Or.inr ⟨e, rfl, hassign, h⟩
    · cases h

theorem exitUnless_eq_ok (h : exitUnless oracle e label line = .ok code) :
    ∃ l, e.Lowers oracle none l ∧ code = l.code ++ [(.fjmp label, line)] := by
  obtain ⟨l, hl, h⟩ := Except.bind_eq_ok.mp h
  cases h
  exact ⟨l, Expr.lowers_of_lowerIn hl, rfl⟩

theorem reads_cons_eq_ok (h : reads oracle span (name :: names) = .ok code) :
    ∃ ty kind rest, oracle.declaredType name span = .ok ty ∧ Kind.ofTy? ty = some kind ∧
      reads oracle span names = .ok rest ∧ code = (.read kind, span.line) :: (.save kind name, span.line) :: rest := by
  obtain ⟨ty, hty, h⟩ := Except.bind_eq_ok.mp h
  obtain ⟨kind, hkind, h⟩ := Except.bind_eq_ok.mp h
  obtain ⟨rest, hrest, h⟩ := Except.bind_eq_ok.mp h
  cases h
  exact ⟨ty, kind, rest, ask_eq_ok.mp hty, kindOf_eq_ok.mp hkind, hrest, rfl⟩

theorem values_cons_eq_ok {exprs : List Expr} (h : values oracle (e :: exprs) = .ok code) :
    ∃ l rest, e.Lowers oracle none l ∧ values oracle exprs = .ok rest ∧ code = l.code ++ rest := by
  obtain ⟨l, hl, h⟩ := Except.bind_eq_ok.mp h
  obtain ⟨rest, hrest, h⟩ := Except.bind_eq_ok.mp h
  cases h
  exact ⟨l, rest, Expr.lowers_of_lowerIn hl, hrest, rfl⟩

end Lowering

/-! ### Statements -/

namespace Stmt

/-- The statement that writes one value. -/
def writing (e : Expr) : Stmt :=
  .write [e] (Nat.lt_of_lt_of_le Nat.one_lt_two (Nat.le_of_ble_eq_true rfl)) .unknown

variable {oracle : Oracle} {code : Emitted} {n n' : Nat} {span : Span}

theorem lower_declare {type : TypeName} {names : List String}
    (h : (Stmt.declare type names span).lower oracle n = .ok (code, n')) :
    ∃ ty kind literal, Ty.ofKeyword? type.keyword = some ty ∧ Kind.ofTy? ty = some kind ∧
      ty.defaultLiteral? = some literal ∧ code = defaults kind literal span.line names ∧ n' = n := by
  rw [lower] at h
  split at h
  · cases h
  · rename_i ty hty
    split at h
    · rename_i kind literal hkind hliteral
      cases h
      exact ⟨ty, kind, literal, hty, hkind, hliteral, rfl, rfl⟩
    · cases h

theorem lower_expr {e : Expr} (h : (Stmt.expr e span).lower oracle n = .ok (code, n')) :
    discard oracle e = .ok code ∧ n' = n := by
  rw [lower] at h
  obtain ⟨code', hcode, h⟩ := Except.bind_eq_ok.mp h
  cases h
  exact ⟨hcode, rfl⟩

theorem lower_ifElse {condition : Expr} {yes no : Stmt}
    (h : (Stmt.ifElse condition yes no span).lower oracle n = .ok (code, n')) :
    ∃ test yesCode n₁ noCode, exitUnless oracle condition (labelName n) span.line = .ok test ∧
      yes.lower oracle (n + 2) = .ok (yesCode, n₁) ∧ no.lower oracle n₁ = .ok (noCode, n') ∧
      code = test ++ yesCode ++ [(.jmp (labelName (n + 1)), span.line), (.label (labelName n), span.line)] ++ noCode
        ++ [(.label (labelName (n + 1)), span.line)] := by
  rw [lower] at h
  obtain ⟨test, htest, h⟩ := Except.bind_eq_ok.mp h
  obtain ⟨⟨yesCode, n₁⟩, hyes, h⟩ := Except.bind_eq_ok.mp h
  obtain ⟨⟨noCode, n₂⟩, hno, h⟩ := Except.bind_eq_ok.mp h
  cases h
  exact ⟨test, yesCode, n₁, noCode, htest, hyes, hno, rfl⟩

theorem lower_whileLoop {condition : Expr} {body : Stmt}
    (h : (Stmt.whileLoop condition body span).lower oracle n = .ok (code, n')) :
    ∃ test bodyCode, exitUnless oracle condition (labelName (n + 1)) span.line = .ok test ∧
      body.lower oracle (n + 2) = .ok (bodyCode, n') ∧
      code = [(.label (labelName n), span.line)] ++ test ++ bodyCode
        ++ [(.jmp (labelName n), span.line), (.label (labelName (n + 1)), span.line)] := by
  rw [lower] at h
  obtain ⟨test, htest, h⟩ := Except.bind_eq_ok.mp h
  obtain ⟨⟨bodyCode, n₁⟩, hbody, h⟩ := Except.bind_eq_ok.mp h
  cases h
  exact ⟨test, bodyCode, htest, hbody, rfl⟩

theorem lower_forLoop {init condition update : Option Expr} {body : Stmt}
    (h : (Stmt.forLoop init condition update body span).lower oracle n = .ok (code, n')) :
    ∃ initCode test bodyCode updateCode, clauseCode oracle .initializer init = .ok initCode ∧
      (condition.elim (.ok []) fun e => exitUnless oracle e (labelName (n + 1)) span.line) = .ok test ∧
      body.lower oracle (n + 2) = .ok (bodyCode, n') ∧ clauseCode oracle .update update = .ok updateCode ∧
      code = initCode ++ [(.label (labelName n), span.line)] ++ test ++ bodyCode ++ updateCode
        ++ [(.jmp (labelName n), span.line), (.label (labelName (n + 1)), span.line)] := by
  rw [lower] at h
  obtain ⟨initCode, hinit, h⟩ := Except.bind_eq_ok.mp h
  cases condition with
  | none | some =>
    obtain ⟨test, htest, h⟩ := Except.bind_eq_ok.mp h
    obtain ⟨⟨bodyCode, n₁⟩, hbody, h⟩ := Except.bind_eq_ok.mp h
    obtain ⟨updateCode, hupdate, h⟩ := Except.bind_eq_ok.mp h
    cases h
    exact ⟨initCode, test, bodyCode, updateCode, hinit, htest, hbody, hupdate, rfl⟩

theorem lower_read {names : List String} (h : (Stmt.read names span).lower oracle n = .ok (code, n')) :
    reads oracle span names = .ok code ∧ n' = n := by
  rw [lower] at h
  obtain ⟨code', hcode, h⟩ := Except.bind_eq_ok.mp h
  cases h
  exact ⟨hcode, rfl⟩

theorem lower_write {exprs : List Expr} {fits : exprs.length < maxListed}
    (h : (Stmt.write exprs fits span).lower oracle n = .ok (code, n')) :
    ∃ list, values oracle exprs = .ok list ∧ code = list ++ [(.print exprs.length, span.line)] ∧ n' = n := by
  rw [lower] at h
  obtain ⟨list, hlist, h⟩ := Except.bind_eq_ok.mp h
  cases h
  exact ⟨list, hlist, rfl, rfl⟩

theorem lowerAll_cons {s : Stmt} {rest : List Stmt} (h : lowerAll oracle (s :: rest) n = .ok (code, n')) :
    ∃ first n₁ restCode, s.lower oracle n = .ok (first, n₁) ∧ lowerAll oracle rest n₁ = .ok (restCode, n') ∧
      code = first ++ restCode := by
  rw [lowerAll] at h
  obtain ⟨⟨first, n₁⟩, hfirst, h⟩ := Except.bind_eq_ok.mp h
  obtain ⟨⟨restCode, n₂⟩, hrest, h⟩ := Except.bind_eq_ok.mp h
  cases h
  exact ⟨first, n₁, restCode, hfirst, hrest, rfl⟩

end Stmt

theorem Program.lower_eq_ok {program : Program} {oracle : Oracle} {code : Code} (h : program.lower oracle = .ok code) :
    ∃ emitted n, Stmt.lowerAll oracle program 0 = .ok (emitted, n) ∧ code = .ofPairs emitted := by
  obtain ⟨⟨emitted, n⟩, hemitted, h⟩ := Except.bind_eq_ok.mp h
  cases h
  exact ⟨emitted, n, hemitted, rfl⟩

end StackMachine
