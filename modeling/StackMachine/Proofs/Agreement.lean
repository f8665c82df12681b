import StackMachine.Proofs.Declarations

/-! Which expressions and which accepted programs have code.

The checker and the code generator agree on all but one thing: a file can be declared, but there is no code for it. So
lowering an accepted program stops at the first declaration of a file, if there is one, and at nothing else. Before
that declaration no variable of the table is a file, and then every expression that has a type has code. Main
statements: `Expr.typings_agree`, `Program.lowers_iff_no_file`. -/

namespace StackMachine

open Lowering

/-- A table without files. -/
def SymbolTable.FileFree (table : SymbolTable) : Prop :=
  ∀ name, ¬table.HasType name .file

/-- Lowering stops at a declaration, or gives a result if there is none to stop at. -/
def StopsAt {α : Type} : Option Declaration → Except LoweringError α → Prop
  | none, result => ∃ a, result = .ok a
  | some d, result => result = .error (.unsupportedType .file d.span)

namespace StopsAt

variable {α β : Type} {first second : Option Declaration} {x : Except LoweringError α} {f : α → Except LoweringError β}

theorem pure (a : α) : StopsAt none (.ok a) :=
  ⟨a, rfl⟩

/-- Of two parts the second counts only if the first gives a result. -/
theorem bind (hx : StopsAt first x) (hf : first = none → ∀ a, StopsAt second (f a)) :
    StopsAt (first.or second) (x >>= f) := by
  cases first with
  | none =>
    obtain ⟨a, hx⟩ := hx
    rw [Except.bind_ok hx]
    exact hf rfl a
  | some d => exact Except.bind_error hx

theorem andThen (hx : StopsAt none x) (hf : ∀ a, StopsAt first (f a)) : StopsAt first (x >>= f) :=
  bind hx fun _ => hf

theorem followedBy (hx : StopsAt first x) (hf : first = none → ∀ a, StopsAt none (f a)) : StopsAt first (x >>= f) := by
  rw [← Option.or_none (o := first)]
  exact bind hx hf

end StopsAt

/-! ### Expressions -/

theorem Kind.exists_ofTy? {ty : Ty} (h : ty ≠ .file) : ∃ kind, Kind.ofTy? ty = some kind := by
  cases ty with
  | file => exact absurd rfl h
  | int | float | bool | string => exact ⟨_, rfl⟩

namespace SymbolTable

variable {table larger : SymbolTable} {name : String} {ty : Ty}

theorem HasType.exists_kind (h : table.HasType name ty) (hfree : table.FileFree) : ∃ kind, Kind.ofTy? ty = some kind :=
  Kind.exists_ofTy? fun hty => hfree name (hty ▸ h)

theorem HasType.ask_eq (h : table.HasType name ty) (hx : larger.Extends table) (span : Span) :
    ask (Oracle.declaredType larger.typeOf name span) = .ok ty :=
  ask_eq_ok.mpr (typeOf_eq_ok_iff.mpr (h.mono hx))

end SymbolTable

namespace Expr

variable {table larger : SymbolTable} {e : Expr} {ty : Ty}

theorem Typed.ask_infer_eq (h : e.Typed table ty) (hx : larger.Extends table) :
    ask (Oracle.typeOf larger.typeOf e) = .ok ty :=
  ask_eq_ok.mpr (h.mono hx).infer_eq

/-- Where no variable is a file, an expression with a type has code that leaves a value of this type. -/
theorem Typed.lowerIn_eq_ok (h : e.Typed table ty) (hfree : table.FileFree) (hx : larger.Extends table)
    (chain : Option Span) : ∃ l, e.lowerIn larger.typeOf chain = .ok l ∧ l.ty = ty := by
  induction h generalizing chain with
  | int | float | string | bool => exact ⟨_, rfl, rfl⟩
  | var span declared =>
    obtain ⟨kind, hkind⟩ := declared.exists_kind hfree
    rw [lowerIn, Except.bind_ok (declared.ask_eq hx span), Except.bind_ok (kindOf_eq_ok.mpr hkind)]
    exact ⟨_, rfl, rfl⟩
  | @binary op left right leftType rightType ty span hl hr result ihl ihr =>
    obtain ⟨l, hl', -⟩ := ihl none
    obtain ⟨r, hr', -⟩ := ihr none
    rw [← BinaryOp.map_result_plan?] at result
    obtain ⟨plan, hplan, rfl⟩ := Option.map_eq_some_iff.mp result
    rw [lowerIn, Except.bind_ok (hl.ask_infer_eq hx), Except.bind_ok (hr.ask_infer_eq hx), hplan]
    dsimp only
    rw [Except.bind_ok hl', Except.bind_ok hr']
    exact ⟨_, rfl, rfl⟩
  | unary span ho result ih =>
    obtain ⟨l, hl, rfl⟩ := ih none
    rw [← UnaryOp.map_instruction?] at result
    obtain ⟨i, hi, rfl⟩ := Option.map_eq_some_iff.mp result
    rw [lowerIn, Except.bind_ok hl, hi]
    exact ⟨_, rfl, rfl⟩
  | logical span hl hr ihl ihr =>
    obtain ⟨l, hl', hlty⟩ := ihl none
    obtain ⟨r, hr', hrty⟩ := ihr none
    rw [lowerIn, Except.bind_ok hl', Except.bind_ok hr', if_pos ⟨hlty, hrty⟩]
    exact ⟨_, rfl, rfl⟩
  | group span _ ih => exact ih none
  | @assign target value valueType ty span declared hv fits ih =>
    obtain ⟨source, hsource, rfl⟩ := ih (some (chain.getD span))
    obtain ⟨kind, hkind⟩ := declared.exists_kind hfree
    have hcoerced : coercion source.ty ty target (chain.getD span) = .ok _ := coercion_eq_ok.mpr ⟨fits, rfl⟩
    rw [lowerIn, Except.bind_ok hsource, Except.bind_ok (declared.ask_eq hx _), Except.bind_ok (kindOf_eq_ok.mpr hkind),
      Except.bind_ok hcoerced]
    cases chain with
    | none => exact ⟨_, rfl, rfl⟩
    | some place => exact ⟨_, rfl, rfl⟩

/-- Where no variable is a file, code is generated for the expressions that have a type, and with this type. -/
theorem map_ty_lower_eq_ok (hfree : table.FileFree) :
    (e.lower table.typeOf).map Lowered.ty = .ok ty ↔ e.Typed table ty := by
  rw [Except.map_eq_ok]
  constructor
  · rintro ⟨l, hl, rfl⟩
    exact (lowers_of_lowerIn hl).typed
  · intro h
    exact h.lowerIn_eq_ok hfree (.refl table) none

/-- Whether there is an assignment anywhere in the expression. -/
def hasAssign : Expr → Bool
  | .int _ _ | .float _ _ | .string _ _ | .bool _ _ | .var _ _ => false
  | .binary _ left right _ | .logical _ left right _ => left.hasAssign || right.hasAssign
  | .unary _ operand _ => operand.hasAssign
  | .group inner _ => inner.hasAssign
  | .assign _ _ _ => true

/-- Inference differs from checking only in that it does not look at what is assigned. -/
theorem infer_eq_check (scope : Scope) (h : e.hasAssign = false) : e.infer scope = e.check scope := by
  induction e with
  | int | float | string | bool | var => rfl
  | binary op left right span ihl ihr | logical op left right span ihl ihr =>
    simp only [hasAssign, Bool.or_eq_false_iff] at h
    rw [infer, check, ihl h.1, ihr h.2]
  | unary op operand span ih =>
    rw [infer, check, ih h]
  | group inner span ih =>
    rw [infer, check, ih h]
  | assign target value span => cases h

/-- The three typings of an expression agree. Where no variable is a file, the checker accepts it with a type exactly if
the code generator does, and then this type is inferred as well. Without assignments, inference and the checker give the
same answer, be it a type or an error. -/
theorem typings_agree (hfree : table.FileFree) (e : Expr) :
    (∀ ty, e.check table.typeOf = .ok ty ↔ (e.lower table.typeOf).map Lowered.ty = .ok ty) ∧
    (∀ ty, e.check table.typeOf = .ok ty ∨ (e.lower table.typeOf).map Lowered.ty = .ok ty →
      e.infer table.typeOf = .ok ty) ∧
    (e.hasAssign = false → e.infer table.typeOf = e.check table.typeOf) := by
  refine ⟨fun ty => ?_, ?_, infer_eq_check table.typeOf⟩
  · rw [check_eq_ok_iff, map_ty_lower_eq_ok hfree]
  · intro ty h
    rw [check_eq_ok_iff, map_ty_lower_eq_ok hfree, or_self] at h
    exact h.infer_eq

end Expr

/-- The table of `int i; float f; string s;`. -/
def SymbolTable.mixed : SymbolTable :=
  ⟨[⟨"i", .int, .ofLine 1⟩, ⟨"f", .float, .ofLine 1⟩, ⟨"s", .string, .ofLine 1⟩]⟩

/-- `f = (i = 2) + 0.5`. -/
def Expr.adding : Expr :=
  .assign "f" (.binary .add (.group (.assign "i" (.int 2 (.ofLine 2)) (.ofLine 2)) (.ofLine 2))
    (.float 0.5 (.ofLine 2)) (.ofLine 2)) (.ofLine 2)

/-- `(i + f) * s`. -/
def Expr.multiplying : Expr :=
  .binary .mul (.group (.binary .add (.var "i" (.ofLine 3)) (.var "f" (.ofLine 3)) (.ofLine 3)) (.ofLine 3))
    (.var "s" (.ofLine 3)) (.ofLine 3)

open SymbolTable in
/-- An assignment of a promoted sum that holds another assignment, and a product that all three refuse. -/
theorem Expr.typings_agree_mixed :
    mixed.FileFree ∧ (adding.lower mixed.typeOf).map Lowered.ty = .ok .float ∧
      adding.infer mixed.typeOf = .ok .float ∧ multiplying.hasAssign = false ∧
      multiplying.infer mixed.typeOf = .error (.invalidOperands (.binary .mul) .float .string (.ofLine 3)) := by
  have hfree : mixed.FileFree := by
    rintro name ⟨symbol, hs, hty⟩
    have hmem : symbol ∈ mixed.symbols := List.mem_of_find?_eq_some hs
    simp [mixed] at hmem
    rcases hmem with rfl | rfl | rfl <;> cases hty
  have hcheck : adding.check mixed.typeOf = .ok .float := rfl
  obtain ⟨hlower, hinfer, -⟩ := typings_agree hfree adding
  obtain ⟨-, -, hsame⟩ := typings_agree hfree multiplying
  exact ⟨hfree, (hlower .float).mp hcheck, hinfer .float (.inl hcheck), rfl, hsame rfl⟩

/-! ### Parts of statements -/

namespace Lowering

variable {table larger : SymbolTable} {e : Expr} {ty : Ty}

theorem stopsAt_lower (h : e.Typed table ty) (hfree : table.FileFree) (hx : larger.Extends table) :
    StopsAt none (e.lower larger.typeOf) := by
  obtain ⟨l, hl, -⟩ := h.lowerIn_eq_ok hfree hx none
  exact ⟨l, hl⟩

theorem stopsAt_discard (h : e.Typed table ty) (hfree : table.FileFree) (hx : larger.Extends table) :
    StopsAt none (discard larger.typeOf e) :=
  (stopsAt_lower h hfree hx).andThen fun _ => .pure _

theorem stopsAt_exitUnless (h : e.Typed table ty) (hfree : table.FileFree) (hx : larger.Extends table) (label : String)
    (line : Nat) : StopsAt none (exitUnless larger.typeOf e label line) :=
  (stopsAt_lower h hfree hx).andThen fun _ => .pure _

theorem stopsAt_clauseCode {clause : Clause} {part : Option Expr}
    (h : optionErrors (Expr.clauseErrors table clause) part = []) (hfree : table.FileFree) (hx : larger.Extends table) :
    StopsAt none (clauseCode larger.typeOf clause part) := by
  cases part with
  | none => exact .pure []
  | some e =>
    obtain ⟨hassign, ty, hty⟩ := Expr.clauseErrors_eq_nil h
    rw [clauseCode, if_pos hassign]
    exact stopsAt_discard hty hfree hx

theorem stopsAt_reads {names : List String} {span : Span} (h : names.flatMap (table.readErrors span) = [])
    (hx : larger.Extends table) : StopsAt none (reads larger.typeOf span names) := by
  induction names with
  | nil => exact .pure []
  | cons name rest ih =>
    obtain ⟨hname, hrest⟩ := List.append_eq_nil_iff.mp h
    obtain ⟨ty, hty, hp⟩ := SymbolTable.readErrors_eq_nil hname
    have hnot : ty ≠ .file := by
      rintro rfl
      cases hp
    obtain ⟨kind, hkind⟩ := Kind.exists_ofTy? hnot
    rw [reads, Except.bind_ok (hty.ask_eq hx span), Except.bind_ok (kindOf_eq_ok.mpr hkind)]
    exact (ih hrest).andThen fun _ => .pure _

theorem stopsAt_values {exprs : List Expr} (h : exprs.flatMap (Expr.writeErrors table) = []) (hfree : table.FileFree)
    (hx : larger.Extends table) : StopsAt none (values larger.typeOf exprs) := by
  induction exprs with
  | nil => exact .pure []
  | cons e rest ih =>
    obtain ⟨he, hrest⟩ := List.append_eq_nil_iff.mp h
    obtain ⟨ty, hty, -⟩ := Expr.writeErrors_eq_nil he
    refine (stopsAt_lower hty hfree hx).andThen fun _ => ?_
    exact (ih hrest).andThen fun _ => .pure _

end Lowering

/-! ### Statements -/

namespace Stmt

/-- Without declarations of files a check leaves no files behind. -/
theorem fileFree_check {s : Stmt} {table : SymbolTable} (hfree : table.FileFree)
    (h : s.declarations.find? Declaration.isFile = none) : (s.check table).1.FileFree := by
  intro name hname
  rcases hasType_of_check s hname with hname | ⟨d, hd, -, hfile⟩
  · exact hfree name hname
  · exact List.find?_eq_none.mp h d hd (Declaration.isFile_iff.mpr hfile)

variable {larger : SymbolTable}

mutual

theorem stopsAt_lower (s : Stmt) {table : SymbolTable} (h : (s.check table).2 = []) (hfree : table.FileFree)
    (hx : larger.Extends (s.check table).1) (n : Nat) :
    StopsAt (s.declarations.find? Declaration.isFile) (s.lower larger.typeOf n) := by
  cases s with
  | declare type names span =>
    rw [declarations, lower]
    rw [check] at h
    cases hty : Ty.ofKeyword? type.keyword with
    | none =>
      rw [hty] at h
      cases h
    | some ty =>
      have hfile : Declaration.isFile ⟨type, names, span⟩ = true ↔ ty = .file :=
        Declaration.isFile_iff.trans (by rw [hty, Option.some.injEq])
      rw [List.find?_singleton]
      cases ty with
      | file =>
        rw [if_pos (hfile.mpr rfl)]
        rfl
      | int | float | bool | string =>
        rw [if_neg (fun h => nomatch hfile.mp h)]
        exact .pure _
  | expr e span =>
    obtain ⟨ty, hty⟩ := Expr.typingErrors_eq_nil h
    rw [lower]
    exact (stopsAt_discard hty hfree hx).andThen fun _ => .pure _
  | block body span =>
    rw [lower]
    exact stopsAt_lowerAll body h hfree hx n
  | ifElse condition yes no span =>
    obtain ⟨h, hno⟩ := List.append_eq_nil_iff.mp h
    obtain ⟨hcondition, hyes⟩ := List.append_eq_nil_iff.mp h
    have hx₁ := hx.trans (extends_check no (yes.check table).1)
    have hx₀ := hx₁.trans (extends_check yes table)
    rw [lower, declarations, List.find?_append]
    refine (stopsAt_exitUnless (Expr.conditionErrors_eq_nil hcondition) hfree hx₀ _ _).andThen fun test => ?_
    refine (stopsAt_lower yes hyes hfree hx₁ _).bind fun hnone ⟨yesCode, n₁⟩ => ?_
    exact (stopsAt_lower no hno (fileFree_check hfree hnone) hx n₁).followedBy fun _ _ => .pure _
  | whileLoop condition body span =>
    obtain ⟨hcondition, hbody⟩ := List.append_eq_nil_iff.mp h
    have hx₀ := hx.trans (extends_check body table)
    rw [lower]
    refine (stopsAt_exitUnless (Expr.conditionErrors_eq_nil hcondition) hfree hx₀ _ _).andThen fun test => ?_
    exact (stopsAt_lower body hbody hfree hx _).followedBy fun _ _ => .pure _
  | forLoop init condition update body span =>
    obtain ⟨h, hbody⟩ := List.append_eq_nil_iff.mp h
    obtain ⟨h, hupdate⟩ := List.append_eq_nil_iff.mp h
    obtain ⟨hinit, hcondition⟩ := List.append_eq_nil_iff.mp h
    have hx₀ := hx.trans (extends_check body table)
    rw [lower]
    -- The update was checked before the body, so it names no file that the body declares.
    have hupdated := stopsAt_clauseCode hupdate hfree hx₀
    refine (stopsAt_clauseCode hinit hfree hx₀).andThen fun initCode => ?_
    cases condition with
    | none =>
      refine (StopsAt.pure []).andThen fun test => ?_
      exact (stopsAt_lower body hbody hfree hx _).followedBy fun _ _ => hupdated.andThen fun _ => .pure _
    | some e =>
      refine (stopsAt_exitUnless (Expr.conditionErrors_eq_nil hcondition) hfree hx₀ _ _).andThen fun test => ?_
      exact (stopsAt_lower body hbody hfree hx _).followedBy fun _ _ => hupdated.andThen fun _ => .pure _
  | read names span =>
    rw [lower]
    exact (stopsAt_reads h hx).andThen fun _ => .pure _
  | write exprs fits span =>
    rw [lower]
    exact (stopsAt_values h hfree hx).andThen fun _ => .pure _
  | empty span =>
    rw [lower]
    exact .pure _

theorem stopsAt_lowerAll (body : List Stmt) {table : SymbolTable} (h : (checkAll body table).2 = [])
    (hfree : table.FileFree) (hx : larger.Extends (checkAll body table).1) (n : Nat) :
    StopsAt ((declarationsAll body).find? Declaration.isFile) (lowerAll larger.typeOf body n) := by
  cases body with
  | nil =>
    rw [lowerAll]
    exact .pure _
  | cons s rest =>
    obtain ⟨hs, hrest⟩ := List.append_eq_nil_iff.mp h
    have hx₁ := hx.trans (extends_checkAll rest _)
    rw [lowerAll, declarationsAll, List.find?_append]
    refine (stopsAt_lower s hs hfree hx₁ n).bind fun hnone ⟨code, n₁⟩ => ?_
    exact (stopsAt_lowerAll rest hrest (fileFree_check hfree hnone) hx n₁).followedBy fun _ _ => .pure _

end

end Stmt

/-! ### Programs -/

namespace Program

variable {program : Program} {table : SymbolTable}

theorem stopsAt_lower (h : program.symbols = .ok table) :
    StopsAt (program.declarations.find? Declaration.isFile) (program.lower table.typeOf) := by
  have hc : Stmt.checkAll program .empty = (table, []) := check_of_symbols h
  have hx : table.Extends (Stmt.checkAll program .empty).1 := by
    rw [hc]
    exact .refl table
  have hfree : SymbolTable.empty.FileFree := nofun
  exact (Stmt.stopsAt_lowerAll program (congrArg Prod.snd hc) hfree hx 0).followedBy fun _ _ => .pure _

/-- The checker and the code generator agree: an accepted program has code exactly if it declares no file, and the only
error there can be is the one that names the first declaration of a file. -/
theorem lowers_iff_no_file (h : program.symbols = .ok table) :
    ((∃ code, program.lower table.typeOf = .ok code) ↔ ∀ d ∈ program.declarations, d.type.keyword ≠ "file") ∧
      ∀ error, program.lower table.typeOf = .error error ↔
        ∃ d, program.declarations.find? (fun d => d.type.keyword = "file") = some d ∧
          error = .unsupportedType .file d.span := by
  have hstops : StopsAt (program.declarations.find? fun d => d.type.keyword = "file") (program.lower table.typeOf) :=
    stopsAt_lower h
  cases hfirst : program.declarations.find? fun d => d.type.keyword = "file" with
  | none =>
    rw [hfirst] at hstops
    obtain ⟨code, hcode⟩ := hstops
    have hnone : ∀ d ∈ program.declarations, d.type.keyword ≠ "file" := by
      simpa using List.find?_eq_none.mp hfirst
    rw [hcode]
    exact ⟨⟨fun _ => hnone, fun _ => ⟨code, rfl⟩⟩, fun error => ⟨nofun, nofun⟩⟩
  | some d =>
    rw [hfirst] at hstops
    have hfile : d.type.keyword = "file" := by simpa using List.find?_some hfirst
    rw [show program.lower table.typeOf = .error (.unsupportedType .file d.span) from hstops]
    refine ⟨⟨nofun, fun hnone => absurd hfile (hnone d (List.mem_of_find?_eq_some hfirst))⟩, fun error => ⟨?_, ?_⟩⟩
    · rintro ⟨⟩
      exact ⟨d, rfl, rfl⟩
    · rintro ⟨_, ⟨⟩, rfl⟩
      rfl

/-- `int x; for (x = 0; x < 2; x = x + 1) { write x; file f; } file g;`, with a line for each statement. -/
def declaringFiles : Program :=
  [.declare ⟨"int", .ofLine 1⟩ ["x"] (.ofLine 1),
    .forLoop (some (.assign "x" (.int 0 (.ofLine 2)) (.ofLine 2)))
      (some (.binary .lt (.var "x" (.ofLine 2)) (.int 2 (.ofLine 2)) (.ofLine 2)))
      (some (.assign "x" (.binary .add (.var "x" (.ofLine 2)) (.int 1 (.ofLine 2)) (.ofLine 2)) (.ofLine 2)))
      (.block [.write [.var "x" (.ofLine 3)] (by decide) (.ofLine 3),
        .declare ⟨"file", .ofLine 4⟩ ["f"] (.ofLine 4)] (.ofLine 2)) (.ofLine 2),
    .declare ⟨"file", .ofLine 6⟩ ["g"] (.ofLine 6)]

theorem lowers_iff_no_file_declaringFiles :
    ∃ table, declaringFiles.symbols = .ok table ∧
      (¬∃ code, declaringFiles.lower table.typeOf = .ok code) ∧
      declaringFiles.lower table.typeOf = .error (.unsupportedType .file (.ofLine 4)) := by
  obtain ⟨table, htable⟩ : ∃ table, declaringFiles.symbols = .ok table := ⟨_, rfl⟩
  obtain ⟨hcode, herror⟩ := lowers_iff_no_file htable
  have hfile : (⟨⟨"file", .ofLine 6⟩, ["g"], .ofLine 6⟩ : Declaration) ∈ declaringFiles.declarations :=
    .tail _ (.tail _ (.head _))
  exact ⟨table, htable, fun h => hcode.mp h _ hfile rfl, (herror _).mpr ⟨_, rfl, rfl⟩⟩

end Program

end StackMachine
