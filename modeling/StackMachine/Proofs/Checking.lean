import StackMachine.Proofs.Typing

/-! What the check of a program promises.

A statement that is checked without error is well typed by every table that extends the one the check leaves
(`Stmt.WellTyped`). Tables only grow, so the table of a whole program types all its statements. -/

namespace StackMachine

namespace SymbolTable

variable {table table' : SymbolTable} {name : String} {ty : Ty} {span : Span} {names : List String}

theorem declare_eq_ok (h : table.declare name ty span = .ok table') : table'.Extends table ∧ table'.HasType name ty := by
  unfold declare at h
  cases hn : table.find? name with
  | some symbol =>
    rw [hn] at h
    cases h
  | none =>
    rw [hn] at h
    cases h
    refine ⟨fun other symbol hs => ?_, ⟨name, ty, span⟩, ?_, rfl⟩
    · rw [find?] at hs ⊢
      rw [List.find?_append, hs, Option.some_or]
    · rw [find?] at hn ⊢
      rw [List.find?_append, hn, Option.none_or]
      simp

theorem extends_declareAll (table : SymbolTable) : (table.declareAll ty span names).1.Extends table := by
  induction names generalizing table with
  | nil => exact .refl table
  | cons name rest ih =>
    rw [declareAll]
    split
    · rename_i table' hd
      exact (ih table').trans (declare_eq_ok hd).1
    · exact ih table

theorem hasType_declareAll (h : (table.declareAll ty span names).2 = []) :
    ∀ name ∈ names, (table.declareAll ty span names).1.HasType name ty := by
  induction names generalizing table with
  | nil => intro name hn; cases hn
  | cons first rest ih =>
    rw [declareAll] at h ⊢
    split at h
    · rename_i table' hd
      intro name hn
      rcases List.mem_cons.mp hn with rfl | hn
      · exact (declare_eq_ok hd).2.mono (extends_declareAll table')
      · exact ih h name hn
    · cases h

theorem readErrors_eq_nil (h : table.readErrors span name = []) : ∃ ty, table.HasType name ty ∧ ty.isPrimitive = true := by
  unfold readErrors at h
  split at h
  · cases h
  · rename_i ty hty
    split at h
    · rename_i hp
      exact ⟨ty, typeOf_eq_ok_iff.mp hty, hp⟩
    · cases h

end SymbolTable

namespace Expr

variable {table : SymbolTable} {e : Expr}

theorem typingErrors_eq_nil (h : typingErrors (e.check table.typeOf) = []) : ∃ ty, e.Typed table ty := by
  unfold typingErrors at h
  split at h
  · rename_i ty hty
    exact ⟨ty, check_eq_ok_iff.mp hty⟩
  · cases h

theorem writeErrors_eq_nil (h : e.writeErrors table = []) : ∃ ty, e.Typed table ty ∧ ty.isPrimitive = true := by
  unfold writeErrors at h
  split at h
  · cases h
  · rename_i ty hty
    split at h
    · rename_i hp
      exact ⟨ty, check_eq_ok_iff.mp hty, hp⟩
    · cases h

theorem conditionErrors_eq_nil {place : Conditional} (h : e.conditionErrors table place = []) : e.Typed table .bool := by
  unfold conditionErrors at h
  split at h
  · cases h
  · rename_i ty hty
    split at h
    · rename_i hb
      exact hb ▸ check_eq_ok_iff.mp hty
    · cases h

theorem clauseErrors_eq_nil {clause : Clause} (h : e.clauseErrors table clause = []) :
    e.isAssign = true ∧ ∃ ty, e.Typed table ty := by
  unfold clauseErrors at h
  split at h
  · rename_i ha
    exact ⟨ha, typingErrors_eq_nil h⟩
  · cases h

end Expr

namespace Stmt

mutual

/-- Every part of a statement has the type that its place asks for. -/
def WellTyped (table : SymbolTable) : Stmt → Prop
  | .declare type names _ =>
    ∃ ty, Ty.ofKeyword? type.keyword = some ty ∧ ∀ name ∈ names, table.HasType name ty
  | .expr e _ => ∃ ty, e.Typed table ty
  | .block body _ => AllWellTyped table body
  | .ifElse condition yes no _ => condition.Typed table .bool ∧ yes.WellTyped table ∧ no.WellTyped table
  | .whileLoop condition body _ => condition.Typed table .bool ∧ body.WellTyped table
  | .forLoop init condition update body _ =>
    (∀ e ∈ init, e.isAssign = true ∧ ∃ ty, e.Typed table ty) ∧ (∀ e ∈ condition, e.Typed table .bool) ∧
    (∀ e ∈ update, e.isAssign = true ∧ ∃ ty, e.Typed table ty) ∧ body.WellTyped table
  | .read names _ => ∀ name ∈ names, ∃ ty, table.HasType name ty ∧ ty.isPrimitive = true
  | .write exprs _ _ => ∀ e ∈ exprs, ∃ ty, e.Typed table ty ∧ ty.isPrimitive = true
  | .empty _ => True

def AllWellTyped (table : SymbolTable) : List Stmt → Prop
  | [] => True
  | s :: rest => s.WellTyped table ∧ AllWellTyped table rest

end

/-! ### Tables grow -/

mutual

theorem extends_check (s : Stmt) (table : SymbolTable) : (s.check table).1.Extends table := by
  cases s with
  | declare type names span =>
    rw [check]
    split
    · exact SymbolTable.extends_declareAll table
    · exact .refl table
  | block body span => exact extends_checkAll body table
  | ifElse condition yes no span => exact (extends_check no _).trans (extends_check yes table)
  | whileLoop condition body span => exact extends_check body table
  | forLoop init condition update body span => exact extends_check body table
  | expr | read | write | empty => exact .refl table

theorem extends_checkAll (body : List Stmt) (table : SymbolTable) : (checkAll body table).1.Extends table := by
  cases body with
  | nil => exact .refl table
  | cons s rest => exact (extends_checkAll rest _).trans (extends_check s table)

end

/-! ### Checked statements are well typed -/

theorem optionErrors_eq_nil {errors : Expr → List TypeError} {clause : Option Expr} (h : optionErrors errors clause = []) :
    ∀ e ∈ clause, errors e = [] := by
  rintro e ⟨⟩
  exact h

variable {larger : SymbolTable}

mutual

theorem wellTyped_of_check (s : Stmt) {table : SymbolTable} (h : (s.check table).2 = [])
    (hx : larger.Extends (s.check table).1) : s.WellTyped larger := by
  cases s with
  | declare type names span =>
    rw [check] at h hx
    rw [WellTyped]
    cases hty : Ty.ofKeyword? type.keyword with
    | none =>
      rw [hty] at h
      cases h
    | some ty =>
      rw [hty] at h hx
      exact ⟨ty, rfl, fun name hn => (SymbolTable.hasType_declareAll h name hn).mono hx⟩
  | expr e span =>
    obtain ⟨ty, hty⟩ := Expr.typingErrors_eq_nil h
    exact ⟨ty, hty.mono hx⟩
  | block body span => exact allWellTyped_of_checkAll body h hx
  | ifElse condition yes no span =>
    obtain ⟨h, hno⟩ := List.append_eq_nil_iff.mp h
    obtain ⟨hcondition, hyes⟩ := List.append_eq_nil_iff.mp h
    have hx' := hx.trans (extends_check no (yes.check table).1)
    refine ⟨(Expr.conditionErrors_eq_nil hcondition).mono (hx'.trans (extends_check yes table)), ?_, ?_⟩
    · exact wellTyped_of_check yes hyes hx'
    · exact wellTyped_of_check no hno hx
  | whileLoop condition body span =>
    obtain ⟨hcondition, hbody⟩ := List.append_eq_nil_iff.mp h
    refine ⟨(Expr.conditionErrors_eq_nil hcondition).mono (hx.trans (extends_check body table)), ?_⟩
    exact wellTyped_of_check body hbody hx
  | forLoop init condition update body span =>
    obtain ⟨h, hbody⟩ := List.append_eq_nil_iff.mp h
    obtain ⟨h, hupdate⟩ := List.append_eq_nil_iff.mp h
    obtain ⟨hinit, hcondition⟩ := List.append_eq_nil_iff.mp h
    have hx' := hx.trans (extends_check body table)
    have clause : ∀ {clause : Clause} {part : Option Expr}, optionErrors (Expr.clauseErrors table clause) part = [] →
        ∀ e ∈ part, e.isAssign = true ∧ ∃ ty, e.Typed larger ty := fun hpart e he => by
      obtain ⟨ha, ty, hty⟩ := Expr.clauseErrors_eq_nil (optionErrors_eq_nil hpart e he)
      exact ⟨ha, ty, hty.mono hx'⟩
    refine ⟨clause hinit, fun e he => ?_, clause hupdate, wellTyped_of_check body hbody hx⟩
    exact (Expr.conditionErrors_eq_nil (optionErrors_eq_nil hcondition e he)).mono hx'
  | read names span =>
    intro name hn
    obtain ⟨ty, hty, hp⟩ := SymbolTable.readErrors_eq_nil (List.flatMap_eq_nil_iff.mp h name hn)
    exact ⟨ty, hty.mono hx, hp⟩
  | write exprs fits span =>
    intro e he
    obtain ⟨ty, hty, hp⟩ := Expr.writeErrors_eq_nil (List.flatMap_eq_nil_iff.mp h e he)
    exact ⟨ty, hty.mono hx, hp⟩
  | empty span => trivial

theorem allWellTyped_of_checkAll (body : List Stmt) {table : SymbolTable} (h : (checkAll body table).2 = [])
    (hx : larger.Extends (checkAll body table).1) : AllWellTyped larger body := by
  cases body with
  | nil => trivial
  | cons s rest =>
    obtain ⟨hs, hrest⟩ := List.append_eq_nil_iff.mp h
    refine ⟨wellTyped_of_check s hs (hx.trans (extends_checkAll rest _)), ?_⟩
    exact allWellTyped_of_checkAll rest hrest hx

end

end Stmt

namespace Program

variable {program : Program} {table : SymbolTable}

theorem check_of_symbols (h : program.symbols = .ok table) : program.check .empty = (table, []) := by
  unfold symbols at h
  split at h
  · rename_i heq
    cases h
    exact heq
  · cases h

theorem wellTyped_of_symbols (h : program.symbols = .ok table) : Stmt.AllWellTyped table program := by
  have hc : Stmt.checkAll program .empty = (table, []) := check_of_symbols h
  have hx : table.Extends (Stmt.checkAll program .empty).1 := by
    rw [hc]
    exact .refl table
  exact Stmt.allWellTyped_of_checkAll program (congrArg Prod.snd hc) hx

end Program

end StackMachine
