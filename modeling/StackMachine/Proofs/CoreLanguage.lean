import Mathlib.Data.List.Forall2
import StackMachine.Proofs.Typing

/-! The core of the source language.

Desugaring drops groupings, writes `l != r` as `!(l == r)`, turns a `for` into its initializer and a loop whose body
ends with the update, and splices blocks into the statement lists that they stand in. It is a relation, since it leaves
the spans of the result open. Every program has a core form, and each of its core forms has the instructions of the
program (`Program.lower_desugars`): a grouped assignment comes out as a link of the chain around it, and no label
moves. This asks for more than an oracle that does not look at spans, since one may take an operand and its core form
for different types (`Program.not_always_lower_desugars`). -/

namespace StackMachine

open Lowering

/-! ### Expressions -/

/-- The core forms of an expression. -/
inductive Expr.Desugars : Expr → Expr → Prop where
  | int (n : Int64) (span span' : Span) : Desugars (.int n span) (.int n span')
  | float (x : Float) (span span' : Span) : Desugars (.float x span) (.float x span')
  | string (s : String) (span span' : Span) : Desugars (.string s span) (.string s span')
  | bool (b : Bool) (span span' : Span) : Desugars (.bool b span) (.bool b span')
  | var (name : String) (span span' : Span) : Desugars (.var name span) (.var name span')
  | notEqual {left left' right right' : Expr} (span inner outer : Span) (hl : Desugars left left')
      (hr : Desugars right right') :
      Desugars (.binary .ne left right span) (.unary .not (.binary .eq left' right' inner) outer)
  | binary {op : BinaryOp} {left left' right right' : Expr} (span span' : Span) (hop : op ≠ .ne)
      (hl : Desugars left left') (hr : Desugars right right') :
      Desugars (.binary op left right span) (.binary op left' right' span')
  | unary (op : UnaryOp) {operand operand' : Expr} (span span' : Span) (h : Desugars operand operand') :
      Desugars (.unary op operand span) (.unary op operand' span')
  | logical (op : LogicalOp) {left left' right right' : Expr} (span span' : Span) (hl : Desugars left left')
      (hr : Desugars right right') : Desugars (.logical op left right span) (.logical op left' right' span')
  | group {inner e : Expr} (span : Span) (h : Desugars inner e) : Desugars (.group inner span) e
  | assign (target : String) {value value' : Expr} (span span' : Span) (h : Desugars value value') :
      Desugars (.assign target value span) (.assign target value' span')

/-- Whether an expression is of the core language. -/
def Expr.isCore : Expr → Bool
  | .int .. | .float .. | .string .. | .bool .. | .var .. => true
  | .binary op left right _ => op != .ne && left.isCore && right.isCore
  | .unary _ operand _ => operand.isCore
  | .logical _ left right _ => left.isCore && right.isCore
  | .group .. => false
  | .assign _ value _ => value.isCore

namespace Expr

theorem exists_desugars (e : Expr) : ∃ e', e.Desugars e' := by
  induction e with
  | int n span => exact ⟨_, .int n span span⟩
  | float x span => exact ⟨_, .float x span span⟩
  | string s span => exact ⟨_, .string s span span⟩
  | bool b span => exact ⟨_, .bool b span span⟩
  | var name span => exact ⟨_, .var name span span⟩
  | binary op left right span ihl ihr =>
    obtain ⟨left', hl⟩ := ihl
    obtain ⟨right', hr⟩ := ihr
    by_cases hop : op = .ne
    · subst hop
      exact ⟨_, .notEqual span span span hl hr⟩
    · exact ⟨_, .binary span span hop hl hr⟩
  | unary op operand span ih =>
    obtain ⟨operand', h⟩ := ih
    exact ⟨_, .unary op span span h⟩
  | logical op left right span ihl ihr =>
    obtain ⟨left', hl⟩ := ihl
    obtain ⟨right', hr⟩ := ihr
    exact ⟨_, .logical op span span hl hr⟩
  | group inner span ih =>
    obtain ⟨e', h⟩ := ih
    exact ⟨e', .group span h⟩
  | assign target value span ih =>
    obtain ⟨value', h⟩ := ih
    exact ⟨_, .assign target span span h⟩

theorem Desugars.isCore {e e' : Expr} (h : e.Desugars e') : e'.isCore = true := by
  induction h with
  | int | float | string | bool | var => rfl
  | notEqual span inner outer hl hr ihl ihr => simp [Expr.isCore, ihl, ihr]
  | binary span span' hop hl hr ihl ihr => simp [Expr.isCore, hop, ihl, ihr]
  | logical op span span' hl hr ihl ihr => simp [Expr.isCore, ihl, ihr]
  | unary op span span' h ih | assign target span span' h ih => exact ih
  | group span h ih => exact ih

end Expr

/-! ### Oracles -/

/-- The types of variables do not depend on where they are used. -/
def Scope.SpanFree (scope : Scope) : Prop :=
  ∀ ⦃name : String⦄ ⦃span : Span⦄ ⦃ty : Ty⦄, scope name span = .ok ty → ∀ span', scope name span' = .ok ty

/-- An oracle that answers alike to variables wherever they are used, and to an expression and its core forms. -/
structure Oracle.Steady (oracle : Oracle) : Prop where
  declaredType : Scope.SpanFree oracle.declaredType
  typeOf : ∀ ⦃e e' : Expr⦄ ⦃ty : Ty⦄, e.Desugars e' → oracle.typeOf e = .ok ty → oracle.typeOf e' = .ok ty

theorem SymbolTable.spanFree_typeOf (table : SymbolTable) : Scope.SpanFree table.typeOf := by
  intro name span ty h span'
  exact typeOf_eq_ok_iff.mpr (typeOf_eq_ok_iff.mp h)

namespace Expr

variable {scope : Scope} {e e' : Expr} {ty : Ty}

theorem Desugars.infer_eq (hd : e.Desugars e') (hs : scope.SpanFree) (h : e.infer scope = .ok ty) :
    e'.infer scope = .ok ty := by
  induction hd generalizing ty with
  | int | float | string | bool => exact h
  | var name span span' => exact hs h span'
  | notEqual span inner outer hl hr ihl ihr =>
    obtain ⟨leftType, hleft, h⟩ := Except.bind_eq_ok.mp h
    obtain ⟨rightType, hright, h⟩ := Except.bind_eq_ok.mp h
    have hresult : BinaryOp.eq.result? leftType rightType = some ty := (BinaryOp.typing_eq_ok.mp h :)
    obtain rfl : ty = .bool := by
      rw [BinaryOp.result?] at hresult
      split at hresult
      · exact (Option.some.inj hresult).symm
      · cases hresult
    rw [infer, infer, Except.bind_ok (ihl hleft), Except.bind_ok (ihr hright),
      Except.bind_ok (BinaryOp.typing_eq_ok.mpr hresult)]
    rfl
  | binary span span' hop hl hr ihl ihr =>
    obtain ⟨leftType, hleft, h⟩ := Except.bind_eq_ok.mp h
    obtain ⟨rightType, hright, h⟩ := Except.bind_eq_ok.mp h
    rw [infer, Except.bind_ok (ihl hleft), Except.bind_ok (ihr hright)]
    exact BinaryOp.typing_eq_ok.mpr (BinaryOp.typing_eq_ok.mp h)
  | unary op span span' ho ih =>
    obtain ⟨operandType, hoperand, h⟩ := Except.bind_eq_ok.mp h
    rw [infer, Except.bind_ok (ih hoperand)]
    exact UnaryOp.typing_eq_ok.mpr (UnaryOp.typing_eq_ok.mp h)
  | logical op span span' hl hr ihl ihr =>
    obtain ⟨leftType, hleft, h⟩ := Except.bind_eq_ok.mp h
    obtain ⟨rightType, hright, h⟩ := Except.bind_eq_ok.mp h
    rw [infer, Except.bind_ok (ihl hleft), Except.bind_ok (ihr hright)]
    exact LogicalOp.typing_eq_ok.mpr (LogicalOp.typing_eq_ok.mp h)
  | group span hi ih => exact ih h
  | assign target span span' hv ih => exact hs h span'

end Expr

theorem Oracle.steady_ofScope {scope : Scope} (hs : scope.SpanFree) : (Oracle.ofScope scope).Steady :=
  ⟨hs, fun _ _ _ hd h => hd.infer_eq hs h⟩

/-! ### The code of expressions -/

/-- The instructions that leave the value of an expression on the stack. -/
def Lowered.complete (l : Lowered) : List Instruction :=
  (l.code ++ reload l.saved 0).map Prod.fst

/-- Expressions of one type, with the same instructions up to what is left in a variable. -/
structure Lowered.Alike (l l' : Lowered) : Prop where
  ty_eq : l'.ty = l.ty
  complete_eq : l'.complete = l.complete

namespace Lowering

variable {source target : Ty} {name : String} {span : Span} {code : Emitted}

@[simp]
theorem reload_none (line : Nat) : reload none line = [] :=
  rfl

@[simp]
theorem reload_some (kind : Kind) (line : Nat) : reload (some (name, kind)) line = [(.load kind name, line)] :=
  rfl

theorem map_reload (saved : Option (String × Kind)) (line line' : Nat) :
    (reload saved line).map Prod.fst = (reload saved line').map Prod.fst := by
  cases saved <;> rfl

theorem map_widening (ty : Ty) (kind : Kind) (line line' : Nat) :
    (widening ty kind line).map Prod.fst = (widening ty kind line').map Prod.fst := by
  unfold widening
  split <;> rfl

theorem coercion_elsewhere (h : coercion source target name span = .ok code) (span' : Span) :
    ∃ code', coercion source target name span' = .ok code' ∧ code'.map Prod.fst = code.map Prod.fst := by
  obtain ⟨hfits, rfl⟩ := coercion_eq_ok.mp h
  refine ⟨_, coercion_eq_ok.mpr ⟨hfits, rfl⟩, ?_⟩
  split <;> rfl

end Lowering

namespace Expr

variable {oracle : Oracle} {e e' value : Expr} {chain : Option Span} {l l' source : Lowered}

/-- Outside of chains nothing is left in a variable. -/
theorem Lowers.code_eq (h : e.Lowers oracle none l) (h' : e'.Lowers oracle none l') (ha : l.Alike l') :
    l'.code.map Prod.fst = l.code.map Prod.fst :=
  (h'.complete_eq 0).symm.trans (ha.complete_eq.trans (h.complete_eq 0))

/-- An assignment saves and loads its target wherever it stands: within a chain the load is left to the next link. -/
theorem Lowers.exists_assign {target : String} {span place : Span} {ty : Ty} {kind : Kind} {coerced : Emitted}
    (horacle : oracle.Steady) (hs : ∀ chain, ∃ source', value.Lowers oracle chain source' ∧ source.Alike source')
    (hty : oracle.declaredType target place = .ok ty) (hkind : Kind.ofTy? ty = some kind)
    (hc : coercion source.ty ty target place = .ok coerced) (chain : Option Span) :
    ∃ l, (Expr.assign target value span).Lowers oracle chain l ∧ l.ty = ty ∧
      l.complete = source.complete ++ coerced.map Prod.fst ++ [.save kind target, .load kind target] := by
  obtain ⟨source', hs', hsty, hcomplete⟩ := hs (some (chain.getD span))
  obtain ⟨coerced', hc', hcoerced⟩ := coercion_elsewhere hc (chain.getD span)
  rw [← hsty] at hc'
  rw [← hcomplete, ← hcoerced]
  cases chain with
  | none =>
    refine ⟨_, .assign hs' (horacle.declaredType hty span) hkind hc', rfl, ?_⟩
    simp [Lowered.complete, map_reload source'.saved span.line 0]
  | some place' =>
    refine ⟨_, .assignWithin hs' (horacle.declaredType hty place') hkind hc', rfl, ?_⟩
    simp [Lowered.complete, map_reload source'.saved place'.line 0]

theorem plan?_eq_of_notEqual {left right : Ty} {plan : BinaryPlan} (h : BinaryOp.ne.plan? left right = some plan) :
    ∃ kind, BinaryOp.eq.plan? left right = some ⟨kind, [.typed .eq kind], .bool⟩ ∧
      plan = ⟨kind, [.typed .eq kind, .plain .not], .bool⟩ := by
  obtain ⟨kind, hkind, rfl⟩ := Option.map_eq_some_iff.mp h
  exact ⟨kind, Option.map_eq_some_iff.mpr ⟨kind, hkind, rfl⟩, rfl⟩

/-- By induction on the rules of lowering. The place of the core form is any: a group begins a chain of its own, and
without it what it holds may continue the one around it. -/
theorem Lowers.desugar (h : e.Lowers oracle chain l) (horacle : oracle.Steady) (hd : e.Desugars e')
    (chain' : Option Span) : ∃ l', e'.Lowers oracle chain' l' ∧ l.Alike l' := by
  induction h generalizing e' chain' with
  | int chain n span =>
    cases hd with
    | int _ _ span' => exact ⟨_, .int chain' n span', rfl, rfl⟩
  | float chain x span =>
    cases hd with
    | float _ _ span' => exact ⟨_, .float chain' x span', rfl, rfl⟩
  | string chain s span =>
    cases hd with
    | string _ _ span' => exact ⟨_, .string chain' s span', rfl, rfl⟩
  | bool chain b span =>
    cases hd with
    | bool _ _ span' => exact ⟨_, .bool chain' b span', rfl, rfl⟩
  | var chain hty hkind =>
    cases hd with
    | var name span span' => exact ⟨_, .var chain' (horacle.declaredType hty span') hkind, rfl, rfl⟩
  | @binary chain op left right span leftType rightType plan l r hleft hright hplan hl hr ihl ihr =>
    cases hd with
    | @notEqual _ left' _ right' _ inner outer hdl hdr =>
      obtain ⟨l', hl', hal⟩ := ihl hdl none
      obtain ⟨r', hr', har⟩ := ihr hdr none
      obtain ⟨kind, heq, rfl⟩ := plan?_eq_of_notEqual hplan
      refine ⟨_, .unary chain' outer (.binary none inner (horacle.typeOf hdl hleft) (horacle.typeOf hdr hright) heq hl'
        hr') rfl, rfl, ?_⟩
      simp [Lowered.complete, hl.code_eq hl' hal, hr.code_eq hr' har,
        map_widening leftType kind left'.line left.line, map_widening rightType kind right'.line right.line]
    | @binary _ _ left' _ right' _ span' hop hdl hdr =>
      obtain ⟨l', hl', hal⟩ := ihl hdl none
      obtain ⟨r', hr', har⟩ := ihr hdr none
      refine ⟨_, .binary chain' span' (horacle.typeOf hdl hleft) (horacle.typeOf hdr hright) hplan hl' hr', rfl, ?_⟩
      simp [Lowered.complete, hl.code_eq hl' hal, hr.code_eq hr' har,
        map_widening leftType plan.operand left'.line left.line,
        map_widening rightType plan.operand right'.line right.line]
  | unary chain span hl hi ih =>
    cases hd with
    | unary op _ span' hdo =>
      obtain ⟨l', hl', hal⟩ := ih hdo none
      refine ⟨_, .unary chain' span' hl' (hal.ty_eq ▸ hi), hal.ty_eq, ?_⟩
      simp [Lowered.complete, hl.code_eq hl' hal]
  | logical chain span hl hr hbool ihl ihr =>
    cases hd with
    | logical op _ span' hdl hdr =>
      obtain ⟨l', hl', hal⟩ := ihl hdl none
      obtain ⟨r', hr', har⟩ := ihr hdr none
      refine ⟨_, .logical chain' span' hl' hr' ⟨hal.ty_eq.trans hbool.1, har.ty_eq.trans hbool.2⟩, rfl, ?_⟩
      simp [Lowered.complete, hl.code_eq hl' hal, hr.code_eq hr' har]
  | group chain span h ih =>
    cases hd with
    | group _ hdi => exact ih hdi chain'
  | @assign target value span source ty kind coerced hs hty hkind hc ih =>
    cases hd with
    | assign _ _ span' hdv =>
      obtain ⟨l', hl', hlty, hcl⟩ := Lowers.exists_assign horacle (ih hdv) hty hkind hc chain'
      refine ⟨l', hl', hlty, hcl.trans ?_⟩
      simp [Lowered.complete, map_reload source.saved span.line 0]
  | @assignWithin target value span place source ty kind coerced hs hty hkind hc ih =>
    cases hd with
    | assign _ _ span' hdv =>
      obtain ⟨l', hl', hlty, hcl⟩ := Lowers.exists_assign horacle (ih hdv) hty hkind hc chain'
      refine ⟨l', hl', hlty, hcl.trans ?_⟩
      simp [Lowered.complete, map_reload source.saved place.line 0]

end Expr

/-! ### Statements -/

namespace Stmt

def isBlock : Stmt → Bool
  | .block .. => true
  | _ => false

/-- What stands for a statement in a list of statements. -/
def spliced : Stmt → List Stmt
  | .block body _ => body
  | s => [s]

/-- The core forms of a part of a `for` head: the statement that evaluates it, if it is there. -/
inductive DesugarsClause : Option Expr → List Stmt → Prop where
  | absent : DesugarsClause none []
  | present {e e' : Expr} (span : Span) (h : e.Desugars e') : DesugarsClause (some e) [.expr e' span]

mutual

/-- The core forms of a statement. -/
inductive Desugars : Stmt → Stmt → Prop where
  | declare {type type' : TypeName} (names : List String) (span span' : Span) (h : type'.keyword = type.keyword) :
      Desugars (.declare type names span) (.declare type' names span')
  | expr {e e' : Expr} (span span' : Span) (h : e.Desugars e') : Desugars (.expr e span) (.expr e' span')
  | block {body body' : List Stmt} (span span' : Span) (h : DesugarsAll body body') :
      Desugars (.block body span) (.block body' span')
  | ifElse {condition condition' : Expr} {yes yes' no no' : Stmt} (span span' : Span)
      (hc : condition.Desugars condition') (hyes : Desugars yes yes') (hno : Desugars no no') :
      Desugars (.ifElse condition yes no span) (.ifElse condition' yes' no' span')
  | whileLoop {condition condition' : Expr} {body body' : Stmt} (span span' : Span)
      (hc : condition.Desugars condition') (hbody : Desugars body body') :
      Desugars (.whileLoop condition body span) (.whileLoop condition' body' span')
  | forWhile {init update : Option Expr} {condition condition' : Expr} {body body' : Stmt} {first last : List Stmt}
      (span outer loop inner : Span) (hinit : DesugarsClause init first) (hc : condition.Desugars condition')
      (hbody : Desugars body body') (hupdate : DesugarsClause update last) :
      Desugars (.forLoop init (some condition) update body span)
        (.block (first ++ [.whileLoop condition' (.block (body'.spliced ++ last) inner) loop]) outer)
  | forEver {init update : Option Expr} {body body' : Stmt} {first last : List Stmt} (span outer loop inner : Span)
      (hinit : DesugarsClause init first) (hbody : Desugars body body') (hupdate : DesugarsClause update last) :
      Desugars (.forLoop init none update body span)
        (.block (first ++ [.forLoop none none none (.block (body'.spliced ++ last) inner) loop]) outer)
  | read (names : List String) (span span' : Span) : Desugars (.read names span) (.read names span')
  | write {exprs exprs' : List Expr} (fits : exprs.length < maxListed) (fits' : exprs'.length < maxListed)
      (span span' : Span) (h : List.Forall₂ Expr.Desugars exprs exprs') :
      Desugars (.write exprs fits span) (.write exprs' fits' span')
  | empty (span span' : Span) : Desugars (.empty span) (.empty span')

/-- The core forms of a list of statements. -/
inductive DesugarsAll : List Stmt → List Stmt → Prop where
  | nil : DesugarsAll [] []
  | cons {s s' : Stmt} {rest rest' : List Stmt} (hs : Desugars s s') (hrest : DesugarsAll rest rest') :
      DesugarsAll (s :: rest) (s'.spliced ++ rest')

end

mutual

/-- Whether a statement is of the core language. -/
def isCore : Stmt → Bool
  | .declare .. | .read .. | .empty _ => true
  | .expr e _ => e.isCore
  | .block body _ => isCoreAll body
  | .ifElse condition yes no _ => condition.isCore && yes.isCore && no.isCore
  | .whileLoop condition body _ => condition.isCore && body.isCore
  | .forLoop init condition update body _ => init.isNone && condition.isNone && update.isNone && body.isCore
  | .write exprs _ _ => exprs.all Expr.isCore

def isCoreAll : List Stmt → Bool
  | [] => true
  | s :: rest => !s.isBlock && s.isCore && isCoreAll rest

end

theorem exists_desugarsClause (part : Option Expr) : ∃ stmts, DesugarsClause part stmts := by
  cases part with
  | none => exact ⟨[], .absent⟩
  | some e =>
    obtain ⟨e', h⟩ := e.exists_desugars
    exact ⟨_, .present e.span h⟩

theorem exists_forall₂_desugars (exprs : List Expr) : ∃ exprs', List.Forall₂ Expr.Desugars exprs exprs' := by
  induction exprs with
  | nil => exact ⟨[], .nil⟩
  | cons e rest ih =>
    obtain ⟨e', h⟩ := e.exists_desugars
    obtain ⟨rest', hrest⟩ := ih
    exact ⟨e' :: rest', .cons h hrest⟩

mutual

theorem exists_desugars (s : Stmt) : ∃ s', s.Desugars s' := by
  cases s with
  | declare type names span => exact ⟨_, .declare names span span rfl⟩
  | expr e span =>
    obtain ⟨e', h⟩ := e.exists_desugars
    exact ⟨_, .expr span span h⟩
  | block body span =>
    obtain ⟨body', h⟩ := exists_desugarsAll body
    exact ⟨_, .block span span h⟩
  | ifElse condition yes no span =>
    obtain ⟨condition', hc⟩ := condition.exists_desugars
    obtain ⟨yes', hyes⟩ := exists_desugars yes
    obtain ⟨no', hno⟩ := exists_desugars no
    exact ⟨_, .ifElse span span hc hyes hno⟩
  | whileLoop condition body span =>
    obtain ⟨condition', hc⟩ := condition.exists_desugars
    obtain ⟨body', hbody⟩ := exists_desugars body
    exact ⟨_, .whileLoop span span hc hbody⟩
  | forLoop init condition update body span =>
    obtain ⟨first, hinit⟩ := exists_desugarsClause init
    obtain ⟨body', hbody⟩ := exists_desugars body
    obtain ⟨last, hupdate⟩ := exists_desugarsClause update
    cases condition with
    | none => exact ⟨_, .forEver span span span span hinit hbody hupdate⟩
    | some condition =>
      obtain ⟨condition', hc⟩ := condition.exists_desugars
      exact ⟨_, .forWhile span span span span hinit hc hbody hupdate⟩
  | read names span => exact ⟨_, .read names span span⟩
  | write exprs fits span =>
    obtain ⟨exprs', h⟩ := exists_forall₂_desugars exprs
    exact ⟨_, .write fits (h.length_eq ▸ fits) span span h⟩
  | empty span => exact ⟨_, .empty span span⟩

theorem exists_desugarsAll (body : List Stmt) : ∃ body', DesugarsAll body body' := by
  cases body with
  | nil => exact ⟨[], .nil⟩
  | cons s rest =>
    obtain ⟨s', hs⟩ := exists_desugars s
    obtain ⟨rest', hrest⟩ := exists_desugarsAll rest
    exact ⟨_, .cons hs hrest⟩

end

theorem isCoreAll_append {first last : List Stmt} (hf : isCoreAll first = true) (hl : isCoreAll last = true) :
    isCoreAll (first ++ last) = true := by
  induction first with
  | nil => exact hl
  | cons s rest ih =>
    simp only [isCoreAll, Bool.and_eq_true] at hf
    simp [isCoreAll, hf.1.1, hf.1.2, ih hf.2]

theorem isCoreAll_spliced {s : Stmt} (h : s.isCore = true) : isCoreAll s.spliced = true := by
  cases s with
  | block body span =>
    rw [isCore] at h
    exact h
  | declare | expr | ifElse | whileLoop | forLoop | read | write | empty => simp [spliced, isCoreAll, isBlock, h]

theorem DesugarsClause.isCoreAll {part : Option Expr} {stmts : List Stmt} (h : DesugarsClause part stmts) :
    isCoreAll stmts = true := by
  cases h with
  | absent => rw [Stmt.isCoreAll]
  | present span h => simp [Stmt.isCoreAll, isBlock, isCore, h.isCore]

theorem forall_isCore {exprs exprs' : List Expr} (h : List.Forall₂ Expr.Desugars exprs exprs') :
    exprs'.all Expr.isCore = true := by
  induction h with
  | nil => rfl
  | cons h _ ih => simp [h.isCore, ih]

mutual

theorem isCore_of_desugars (s : Stmt) {s' : Stmt} (h : s.Desugars s') : s'.isCore = true := by
  cases h with
  | declare | read | empty => rw [isCore]
  | expr span span' h =>
    rw [isCore]
    exact h.isCore
  | block span span' h =>
    rw [isCore]
    exact isCoreAll_of_desugars _ h
  | ifElse span span' hc hyes hno => simp [isCore, hc.isCore, isCore_of_desugars _ hyes, isCore_of_desugars _ hno]
  | whileLoop span span' hc hbody => simp [isCore, hc.isCore, isCore_of_desugars _ hbody]
  | forWhile span outer loop inner hinit hc hbody hupdate =>
    have hlist := isCoreAll_append (isCoreAll_spliced (isCore_of_desugars _ hbody)) hupdate.isCoreAll
    rw [isCore]
    refine isCoreAll_append hinit.isCoreAll ?_
    simp [isCoreAll, isBlock, isCore, hc.isCore, hlist]
  | forEver span outer loop inner hinit hbody hupdate =>
    have hlist := isCoreAll_append (isCoreAll_spliced (isCore_of_desugars _ hbody)) hupdate.isCoreAll
    rw [isCore]
    refine isCoreAll_append hinit.isCoreAll ?_
    simp [isCoreAll, isBlock, isCore, hlist]
  | write fits fits' span span' h =>
    rw [isCore]
    exact forall_isCore h

theorem isCoreAll_of_desugars (body : List Stmt) {body' : List Stmt} (h : DesugarsAll body body') :
    isCoreAll body' = true := by
  cases h with
  | nil => rw [isCoreAll]
  | cons hs hrest =>
    exact isCoreAll_append (isCoreAll_spliced (isCore_of_desugars _ hs)) (isCoreAll_of_desugars _ hrest)

end

end Stmt

/-! ### The code of statements -/

namespace Lowering

variable {oracle : Oracle} {e e' : Expr} {code : Emitted}

theorem exists_lower {l : Lowered} (horacle : oracle.Steady) (hd : e.Desugars e') (h : e.Lowers oracle none l) :
    ∃ l', e'.lower oracle = .ok l' ∧ l'.code.map Prod.fst = l.code.map Prod.fst := by
  obtain ⟨l', hl', hal⟩ := h.desugar horacle hd none
  exact ⟨l', hl'.lowerIn_eq, h.code_eq hl' hal⟩

theorem discard_desugar (horacle : oracle.Steady) (hd : e.Desugars e') (h : discard oracle e = .ok code) :
    ∃ code', discard oracle e' = .ok code' ∧ code'.map Prod.fst = code.map Prod.fst := by
  obtain ⟨l, hl, rfl⟩ := discard_eq_ok h
  obtain ⟨l', hl', hcode⟩ := exists_lower horacle hd hl
  exact ⟨_, Except.bind_ok hl', by simp [hcode]⟩

theorem exitUnless_desugar {label : String} {line : Nat} (horacle : oracle.Steady) (hd : e.Desugars e')
    (h : exitUnless oracle e label line = .ok code) (line' : Nat) :
    ∃ code', exitUnless oracle e' label line' = .ok code' ∧ code'.map Prod.fst = code.map Prod.fst := by
  obtain ⟨l, hl, rfl⟩ := exitUnless_eq_ok h
  obtain ⟨l', hl', hcode⟩ := exists_lower horacle hd hl
  exact ⟨_, Except.bind_ok hl', by simp [hcode]⟩

theorem reads_elsewhere {span : Span} {names : List String} (horacle : oracle.Steady)
    (h : reads oracle span names = .ok code) (span' : Span) :
    ∃ code', reads oracle span' names = .ok code' ∧ code'.map Prod.fst = code.map Prod.fst := by
  induction names generalizing code with
  | nil =>
    cases h
    exact ⟨[], rfl, rfl⟩
  | cons name names ih =>
    obtain ⟨ty, kind, rest, hty, hkind, hrest, rfl⟩ := reads_cons_eq_ok h
    obtain ⟨rest', hrest', hcode⟩ := ih hrest
    have hask := ask_eq_ok.mpr (horacle.declaredType hty span')
    rw [reads, Except.bind_ok hask, Except.bind_ok (kindOf_eq_ok.mpr hkind), Except.bind_ok hrest']
    exact ⟨_, rfl, by simp [hcode]⟩

theorem values_desugar {exprs exprs' : List Expr} (horacle : oracle.Steady)
    (hd : List.Forall₂ Expr.Desugars exprs exprs') (h : values oracle exprs = .ok code) :
    ∃ code', values oracle exprs' = .ok code' ∧ code'.map Prod.fst = code.map Prod.fst := by
  induction hd generalizing code with
  | nil =>
    cases h
    exact ⟨[], rfl, rfl⟩
  | cons hd hds ih =>
    obtain ⟨l, rest, hl, hrest, rfl⟩ := values_cons_eq_ok h
    obtain ⟨l', hl', hcode⟩ := exists_lower horacle hd hl
    obtain ⟨rest', hrest', hrestCode⟩ := ih hrest
    rw [values, Except.bind_ok hl', Except.bind_ok hrest']
    exact ⟨_, rfl, by simp [hcode, hrestCode]⟩

end Lowering

namespace Stmt

variable {oracle : Oracle} {code : Emitted} {n n' n₁ : Nat}

theorem lowerAll_append {first last : List Stmt} {firstCode lastCode : Emitted}
    (hf : lowerAll oracle first n = .ok (firstCode, n₁)) (hl : lowerAll oracle last n₁ = .ok (lastCode, n')) :
    lowerAll oracle (first ++ last) n = .ok (firstCode ++ lastCode, n') := by
  induction first generalizing n firstCode with
  | nil =>
    rw [lowerAll] at hf
    cases hf
    exact hl
  | cons s rest ih =>
    obtain ⟨code, n₂, restCode, hs, hrest, rfl⟩ := lowerAll_cons hf
    rw [List.cons_append, lowerAll, Except.bind_ok hs]
    dsimp only
    rw [Except.bind_ok (ih hrest), List.append_assoc]
    rfl

theorem lowerAll_singleton {s : Stmt} (h : s.lower oracle n = .ok (code, n')) :
    lowerAll oracle [s] n = .ok (code, n') := by
  rw [lowerAll, Except.bind_ok h]
  dsimp only
  rw [lowerAll, Except.bind_ok rfl, List.append_nil]
  rfl

theorem lowerAll_spliced {s : Stmt} (h : s.lower oracle n = .ok (code, n')) :
    lowerAll oracle s.spliced n = .ok (code, n') := by
  cases s with
  | block body span =>
    rw [lower] at h
    exact h
  | declare | expr | ifElse | whileLoop | forLoop | read | write | empty => exact lowerAll_singleton h

theorem lower_block_spliced {body : Stmt} {last : List Stmt} {bodyCode lastCode : Emitted}
    (hbody : body.lower oracle n = .ok (bodyCode, n₁)) (hlast : lowerAll oracle last n₁ = .ok (lastCode, n'))
    (span : Span) : (Stmt.block (body.spliced ++ last) span).lower oracle n = .ok (bodyCode ++ lastCode, n') := by
  rw [lower]
  exact lowerAll_append (lowerAll_spliced hbody) hlast

/-- Clauses need no labels. -/
theorem lowerAll_clause {clause : Clause} {part : Option Expr} {stmts : List Stmt} (horacle : oracle.Steady)
    (hd : DesugarsClause part stmts) (h : clauseCode oracle clause part = .ok code) (n : Nat) :
    ∃ code', lowerAll oracle stmts n = .ok (code', n) ∧ code'.map Prod.fst = code.map Prod.fst := by
  cases hd with
  | absent =>
    cases h
    rw [lowerAll]
    exact ⟨[], rfl, rfl⟩
  | present span hd =>
    obtain ⟨hpart, -⟩ | ⟨e, hpart, -, h⟩ := clauseCode_eq_ok h
    · cases hpart
    · cases hpart
      obtain ⟨code', hcode', hcode⟩ := discard_desugar horacle hd h
      refine ⟨code', lowerAll_singleton ?_, hcode⟩
      rw [lower, Except.bind_ok hcode']
      rfl

theorem lower_whileLoop_eq {condition : Expr} {body : Stmt} {span : Span} {test bodyCode : Emitted}
    (htest : exitUnless oracle condition (labelName (n + 1)) span.line = .ok test)
    (hbody : body.lower oracle (n + 2) = .ok (bodyCode, n')) :
    (Stmt.whileLoop condition body span).lower oracle n = .ok ([(.label (labelName n), span.line)] ++ test ++ bodyCode
      ++ [(.jmp (labelName n), span.line), (.label (labelName (n + 1)), span.line)], n') := by
  rw [lower, Except.bind_ok htest, Except.bind_ok hbody]
  rfl

theorem lower_forever_eq {body : Stmt} {span : Span} {bodyCode : Emitted}
    (hbody : body.lower oracle (n + 2) = .ok (bodyCode, n')) :
    (Stmt.forLoop none none none body span).lower oracle n = .ok ([(.label (labelName n), span.line)] ++ bodyCode
      ++ [(.jmp (labelName n), span.line), (.label (labelName (n + 1)), span.line)], n') := by
  rw [lower]
  change (body.lower oracle (n + 2) >>= _) = _
  rw [Except.bind_ok hbody]
  exact congrArg (fun code => Except.ok (code, n')) (by simp)

mutual

theorem lower_desugar (s : Stmt) {s' : Stmt} {code : Emitted} {n n' : Nat} (horacle : oracle.Steady)
    (hd : s.Desugars s') (h : s.lower oracle n = .ok (code, n')) :
    ∃ code', s'.lower oracle n = .ok (code', n') ∧ code'.map Prod.fst = code.map Prod.fst := by
  cases hd with
  | declare names span span' hkeyword =>
    obtain ⟨ty, kind, literal, hty, hkind, hliteral, rfl, rfl⟩ := lower_declare h
    rw [lower, hkeyword, hty]
    dsimp only
    rw [hkind, hliteral]
    exact ⟨_, rfl, by simp [defaults, List.map_flatMap]⟩
  | expr span span' hd =>
    obtain ⟨hdiscard, rfl⟩ := lower_expr h
    obtain ⟨code', hcode', hcode⟩ := discard_desugar horacle hd hdiscard
    rw [lower, Except.bind_ok hcode']
    exact ⟨code', rfl, hcode⟩
  | block span span' hd =>
    rw [lower] at h ⊢
    exact lowerAll_desugar _ horacle hd h
  | ifElse span span' hdc hdyes hdno =>
    obtain ⟨test, yesCode, n₁, noCode, htest, hyes, hno, rfl⟩ := lower_ifElse h
    obtain ⟨test', htest', et⟩ := exitUnless_desugar horacle hdc htest span'.line
    obtain ⟨yesCode', hyes', ey⟩ := lower_desugar _ horacle hdyes hyes
    obtain ⟨noCode', hno', en⟩ := lower_desugar _ horacle hdno hno
    rw [lower, Except.bind_ok htest', Except.bind_ok hyes']
    dsimp only
    rw [Except.bind_ok hno']
    exact ⟨_, rfl, by simp [et, ey, en]⟩
  | whileLoop span span' hdc hdbody =>
    obtain ⟨test, bodyCode, htest, hbody, rfl⟩ := lower_whileLoop h
    obtain ⟨test', htest', et⟩ := exitUnless_desugar horacle hdc htest span'.line
    obtain ⟨bodyCode', hbody', eb⟩ := lower_desugar _ horacle hdbody hbody
    exact ⟨_, lower_whileLoop_eq htest' hbody', by simp [et, eb]⟩
  | forWhile span outer loop inner hdinit hdc hdbody hdupdate =>
    obtain ⟨initCode, test, bodyCode, updateCode, hinit, htest, hbody, hupdate, rfl⟩ := lower_forLoop h
    obtain ⟨initCode', hinit', ei⟩ := lowerAll_clause horacle hdinit hinit n
    obtain ⟨test', htest', et⟩ := exitUnless_desugar horacle hdc htest loop.line
    obtain ⟨bodyCode', hbody', eb⟩ := lower_desugar _ horacle hdbody hbody
    obtain ⟨updateCode', hupdate', eu⟩ := lowerAll_clause horacle hdupdate hupdate n'
    have hlist := lower_block_spliced hbody' hupdate' inner
    rw [lower, lowerAll_append hinit' (lowerAll_singleton (lower_whileLoop_eq htest' hlist))]
    exact ⟨_, rfl, by simp [ei, et, eb, eu]⟩
  | forEver span outer loop inner hdinit hdbody hdupdate =>
    obtain ⟨initCode, test, bodyCode, updateCode, hinit, htest, hbody, hupdate, rfl⟩ := lower_forLoop h
    cases htest
    obtain ⟨initCode', hinit', ei⟩ := lowerAll_clause horacle hdinit hinit n
    obtain ⟨bodyCode', hbody', eb⟩ := lower_desugar _ horacle hdbody hbody
    obtain ⟨updateCode', hupdate', eu⟩ := lowerAll_clause horacle hdupdate hupdate n'
    have hlist := lower_block_spliced hbody' hupdate' inner
    rw [lower, lowerAll_append hinit' (lowerAll_singleton (lower_forever_eq hlist))]
    exact ⟨_, rfl, by simp [ei, eb, eu]⟩
  | read names span span' =>
    obtain ⟨hreads, rfl⟩ := lower_read h
    obtain ⟨code', hcode', hcode⟩ := reads_elsewhere horacle hreads span'
    rw [lower, Except.bind_ok hcode']
    exact ⟨code', rfl, hcode⟩
  | write fits fits' span span' hd =>
    obtain ⟨list, hlist, rfl, rfl⟩ := lower_write h
    obtain ⟨list', hlist', el⟩ := values_desugar horacle hd hlist
    rw [lower, Except.bind_ok hlist']
    exact ⟨_, rfl, by simp [el, hd.length_eq]⟩
  | empty span span' =>
    rw [lower] at h ⊢
    exact ⟨code, h, rfl⟩

theorem lowerAll_desugar (body : List Stmt) {body' : List Stmt} {code : Emitted} {n n' : Nat} (horacle : oracle.Steady)
    (hd : DesugarsAll body body') (h : lowerAll oracle body n = .ok (code, n')) :
    ∃ code', lowerAll oracle body' n = .ok (code', n') ∧ code'.map Prod.fst = code.map Prod.fst := by
  cases hd with
  | nil => exact ⟨code, h, rfl⟩
  | cons hds hdrest =>
    obtain ⟨first, n₁, rest, hfirst, hrest, rfl⟩ := lowerAll_cons h
    obtain ⟨first', hfirst', ef⟩ := lower_desugar _ horacle hds hfirst
    obtain ⟨rest', hrest', er⟩ := lowerAll_desugar _ horacle hdrest hrest
    exact ⟨_, lowerAll_append (lowerAll_spliced hfirst') hrest', by simp [ef, er]⟩

end

end Stmt

/-! ### Programs -/

namespace Program

/-- A core form of a program has its instructions, whatever the oracle is, if it answers alike to both. -/
theorem lower_of_desugars {program core : Program} {oracle : Oracle} {code : Code} (hd : Stmt.DesugarsAll program core)
    (horacle : oracle.Steady) (h : program.lower oracle = .ok code) :
    ∃ code', core.lower oracle = .ok code' ∧ code'.instructions = code.instructions := by
  obtain ⟨emitted, n, hemitted, rfl⟩ := lower_eq_ok h
  obtain ⟨emitted', hemitted', he⟩ := Stmt.lowerAll_desugar program horacle hd hemitted
  exact ⟨.ofPairs emitted', Except.bind_ok hemitted', he⟩

/-- Lowering factors through the core language: every program has core forms, all of them of the core language, and they
have its instructions, down to the numbers of labels. The types of variables must be the same at all places; types of
operands are inferred from them, or an oracle gives them alike to an expression and its core forms. -/
theorem lower_desugars (program : Program) :
    (∃ core, Stmt.DesugarsAll program core) ∧ ∀ core : Program, Stmt.DesugarsAll program core →
      Stmt.isCoreAll core = true ∧
      (∀ (scope : Scope) (code : Code), scope.SpanFree → program.lower scope = .ok code →
        ∃ code', core.lower scope = .ok code' ∧ code'.instructions = code.instructions) ∧
      ∀ (oracle : Oracle) (code : Code), oracle.Steady → program.lower oracle = .ok code →
        ∃ code', core.lower oracle = .ok code' ∧ code'.instructions = code.instructions := by
  refine ⟨Stmt.exists_desugarsAll program, fun core hd => ⟨Stmt.isCoreAll_of_desugars program hd, ?_, ?_⟩⟩
  · intro scope code hs h
    exact lower_of_desugars hd (Oracle.steady_ofScope hs) h
  · intro oracle code horacle h
    exact lower_of_desugars hd horacle h

/-- A grouped assignment within an assignment, and a `for` with all its parts around a block. -/
def chaining : Program :=
  [.expr (.assign "i" (.group (.assign "j" (.int 3 (.ofLine 1)) (.ofLine 1)) (.ofLine 1)) (.ofLine 1)) (.ofLine 1),
    .forLoop (some (.assign "i" (.int 0 (.ofLine 2)) (.ofLine 2)))
      (some (.binary .ne (.var "i" (.ofLine 2)) (.var "j" (.ofLine 2)) (.ofLine 2)))
      (some (.assign "i" (.binary .add (.var "i" (.ofLine 2)) (.int 1 (.ofLine 2)) (.ofLine 2)) (.ofLine 2)))
      (.block [.block [.read ["j"] (.ofLine 3)] (.ofLine 3)] (.ofLine 2)) (.ofLine 2)]

/-- The core form of `chaining` that stands nowhere. -/
def chainingCore : Program :=
  [.expr (.assign "i" (.assign "j" (.int 3 .unknown) .unknown) .unknown) .unknown,
    .expr (.assign "i" (.int 0 .unknown) .unknown) .unknown,
    .whileLoop (.unary .not (.binary .eq (.var "i" .unknown) (.var "j" .unknown) .unknown) .unknown)
      (.block [.read ["j"] .unknown,
        .expr (.assign "i" (.binary .add (.var "i" .unknown) (.int 1 .unknown) .unknown) .unknown) .unknown] .unknown)
      .unknown]

def chainingTable : SymbolTable :=
  ⟨[⟨"i", .int, .ofLine 0⟩, ⟨"j", .int, .ofLine 0⟩]⟩

theorem desugars_chaining : Stmt.DesugarsAll chaining chainingCore := by
  have hread : (Stmt.read ["j"] (.ofLine 3)).Desugars (.read ["j"] .unknown) := .read _ _ _
  have hbody : (Stmt.block [.block [.read ["j"] (.ofLine 3)] (.ofLine 3)] (.ofLine 2)).Desugars
      (.block [.read ["j"] .unknown] .unknown) :=
    .block _ _ (.cons (.block _ .unknown (.cons hread .nil)) .nil)
  have hupdate := Expr.Desugars.assign "i" (.ofLine 2) .unknown
    (.binary (.ofLine 2) .unknown (by decide : BinaryOp.add ≠ .ne) (.var "i" (.ofLine 2) .unknown)
      (.int 1 (.ofLine 2) .unknown))
  have hcondition := Expr.Desugars.notEqual (.ofLine 2) .unknown .unknown (.var "i" (.ofLine 2) .unknown)
    (.var "j" (.ofLine 2) .unknown)
  have hinit := Expr.Desugars.assign "i" (.ofLine 2) .unknown (.int 0 (.ofLine 2) .unknown)
  have hloop := Stmt.Desugars.forWhile (.ofLine 2) .unknown .unknown .unknown (.present .unknown hinit) hcondition hbody
    (.present .unknown hupdate)
  have hchain := Expr.Desugars.assign "i" (.ofLine 1) .unknown
    (.group (.ofLine 1) (.assign "j" (.ofLine 1) .unknown (.int 3 (.ofLine 1) .unknown)))
  exact .cons (.expr (.ofLine 1) .unknown hchain) (.cons hloop .nil)

theorem lower_desugars_chaining :
    Stmt.DesugarsAll chaining chainingCore ∧ Stmt.isCoreAll chainingCore = true ∧
      ∃ code code', chaining.lower chainingTable.typeOf = .ok code ∧
        chainingCore.lower chainingTable.typeOf = .ok code' ∧ code'.instructions = code.instructions := by
  obtain ⟨hcore, hscope, -⟩ := (lower_desugars chaining).2 chainingCore desugars_chaining
  obtain ⟨code, hcode⟩ : ∃ code, chaining.lower chainingTable.typeOf = .ok code := ⟨_, rfl⟩
  obtain ⟨code', hcode', hsame⟩ := hscope chainingTable.typeOf code chainingTable.spanFree_typeOf hcode
  exact ⟨desugars_chaining, hcore, code, code', hcode, hcode', hsame⟩

end Program

/-! ### Oracles that tell an operand from its core form -/

/-- An expression without its places. -/
def Expr.unplaced : Expr → Expr
  | .int n _ => .int n .unknown
  | .float x _ => .float x .unknown
  | .string s _ => .string s .unknown
  | .bool b _ => .bool b .unknown
  | .var name _ => .var name .unknown
  | .binary op left right _ => .binary op left.unplaced right.unplaced .unknown
  | .unary op operand _ => .unary op operand.unplaced .unknown
  | .logical op left right _ => .logical op left.unplaced right.unplaced .unknown
  | .group inner _ => .group inner.unplaced .unknown
  | .assign target value _ => .assign target value.unplaced .unknown

/-- No type that the oracle gives depends on a span: neither that of a variable, nor that of an operand. -/
structure Oracle.SpanFree (oracle : Oracle) : Prop where
  declaredType : Scope.SpanFree oracle.declaredType
  typeOf : ∀ ⦃e e' : Expr⦄ ⦃ty : Ty⦄, e.unplaced = e'.unplaced → oracle.typeOf e = .ok ty → oracle.typeOf e' = .ok ty

/-- Looks at the outermost node of an operand only: a variable or a float literal is a float, and all else is an int. -/
def Oracle.shallow : Oracle where
  declaredType _ _ := .ok .float
  typeOf
    | .var .. | .float .. => .ok .float
    | _ => .ok .int

theorem Oracle.spanFree_shallow : Oracle.shallow.SpanFree where
  declaredType _ _ _ h _ := h
  typeOf e e' ty hsame h := by
    have hunplaced : ∀ e : Expr, shallow.typeOf e.unplaced = shallow.typeOf e := fun e => by cases e <;> rfl
    rw [← hunplaced, ← hsame, hunplaced, h]

namespace Program

/-- `(x) + 1;` -/
def grouped : Program :=
  [.expr (.binary .add (.group (.var "x" .unknown) .unknown) (.int 1 .unknown) .unknown) .unknown]

/-- `x + 1;` -/
def ungrouped : Program :=
  [.expr (.binary .add (.var "x" .unknown) (.int 1 .unknown) .unknown) .unknown]

theorem desugars_grouped : Stmt.DesugarsAll grouped ungrouped := by
  have hadd := Expr.Desugars.binary .unknown .unknown (by decide : BinaryOp.add ≠ .ne)
    (.group .unknown (.var "x" .unknown .unknown)) (.int 1 .unknown .unknown)
  exact .cons (.expr .unknown .unknown hadd) .nil

/-- That no type depends on a span is not enough: taken for an int, the grouped variable is added as one, and without
the group the literal is widened and added to a float. -/
theorem not_always_lower_desugars :
    ¬ ∀ (oracle : Oracle) (program core : Program) (code : Code), oracle.SpanFree → Stmt.DesugarsAll program core →
      program.lower oracle = .ok code →
        ∃ code', core.lower oracle = .ok code' ∧ code'.instructions = code.instructions := by
  intro halways
  have hgrouped : grouped.lower .shallow = .ok (.ofPairs
      [(.load .float "x", 0), (.push .int "1", 0), (.typed .add .int, 0), (.plain .pop, 0)]) := rfl
  have hungrouped : ungrouped.lower .shallow = .ok (.ofPairs
      [(.load .float "x", 0), (.push .int "1", 0), (.plain .itof, 0), (.typed .add .float, 0), (.plain .pop, 0)]) := rfl
  obtain ⟨code', hcode', hsame⟩ := halways .shallow grouped ungrouped _ Oracle.spanFree_shallow desugars_grouped hgrouped
  cases hungrouped.symm.trans hcode'
  exact absurd hsame (by decide)

end Program

end StackMachine
