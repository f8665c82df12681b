import StackMachine.Proofs.Decimal.Readback
import StackMachine.Proofs.Linking
import StackMachine.Proofs.Lowering

/-! What generated code is made of.

The code of an expression is straight: it pushes values, loads and saves variables, and computes with operations that
take no operand. The code of a statement has labels and jumps besides, all with numbered names. The variables of the
code are those of the statement. -/

namespace StackMachine

/-! ### Variables -/

/-- The variables that occur in an expression. -/
def Expr.names : Expr → List String
  | .int _ _ | .float _ _ | .string _ _ | .bool _ _ => []
  | .var name _ => [name]
  | .binary _ left right _ | .logical _ left right _ => left.names ++ right.names
  | .unary _ operand _ => operand.names
  | .group inner _ => inner.names
  | .assign target value _ => target :: value.names

namespace Stmt

mutual

/-- The variables that occur in a statement. -/
def names : Stmt → List String
  | .declare _ names _ | .read names _ => names
  | .expr e _ => e.names
  | .block body _ => namesAll body
  | .ifElse condition yes no _ => condition.names ++ (yes.names ++ no.names)
  | .whileLoop condition body _ => condition.names ++ body.names
  | .forLoop init condition update body _ =>
    init.toList.flatMap Expr.names ++ (condition.toList.flatMap Expr.names ++
      (body.names ++ update.toList.flatMap Expr.names))
  | .write exprs _ _ => exprs.flatMap Expr.names
  | .empty _ => []

def namesAll : List Stmt → List String
  | [] => []
  | s :: rest => s.names ++ namesAll rest

end

end Stmt

/-- The variables that occur in a program. -/
def Program.names (program : Program) : List String :=
  Stmt.namesAll program

/-! ### Instructions -/

namespace Instruction

/-- The variable that an instruction loads or saves. -/
def variableName? (i : Instruction) : Option String :=
  if i.opcode.shape = .variable then i.operand else none

/-- Instructions that neither jump nor are jumped to. -/
inductive Straight : Instruction → Prop where
  | push (v : Value) : Straight (.push v.kind v.literal)
  | load (kind : Kind) (name : String) : Straight (.load kind name)
  | save (kind : Kind) (name : String) : Straight (.save kind name)
  | typed {opcode : Opcode} {kind : Kind} (takes : kind ∈ opcode.kinds) (alone : opcode.shape = .absent) :
      Straight (.typed opcode kind)
  | plain {opcode : Opcode} (bare : opcode.kinds = []) (alone : opcode.shape = .absent) : Straight (.plain opcode)
  | print {count : Nat} (fits : count < maxListed) : Straight (.print count)

/-- The instructions of generated code. -/
inductive Generated : Instruction → Prop where
  | straight {i : Instruction} (h : i.Straight) : Generated i
  | label (number : Nat) : Generated (.label (Lowering.labelName number))
  | jmp (number : Nat) : Generated (.jmp (Lowering.labelName number))
  | fjmp (number : Nat) : Generated (.fjmp (Lowering.labelName number))

variable {i : Instruction}

theorem Straight.shape_ne_label (h : i.Straight) : i.opcode.shape ≠ .label := by
  cases h with
  | typed takes alone | plain bare alone =>
    intro hlabel
    cases alone.symm.trans hlabel
  | push | load | save | print =>
    intro hlabel
    cases hlabel

theorem Straight.isJump (h : i.Straight) : i.opcode.isJump = false := by
  have hshape := h.shape_ne_label
  cases hop : i.opcode
  case jmp | fjmp =>
    rw [hop] at hshape
    exact absurd rfl hshape
  all_goals rfl

theorem Straight.labelName? (h : i.Straight) : i.labelName? = none := by
  have hshape := h.shape_ne_label
  rw [Instruction.labelName?, if_neg]
  intro hop
  rw [hop] at hshape
  exact hshape rfl

end Instruction

/-- The instructions of some code are all of one kind. -/
def Emitted.All (P : Instruction → Prop) (code : Emitted) : Prop :=
  ∀ i ∈ code.map Prod.fst, P i

/-- The variables that code loads and saves, in the order of the code. -/
def Emitted.variableNames (code : Emitted) : List String :=
  (code.map Prod.fst).filterMap Instruction.variableName?

namespace Emitted

variable {P Q : Instruction → Prop} {i : Instruction} {line : Nat} {first second code : Emitted}

@[simp] theorem all_nil : All P [] ↔ True := by
  simp [All]

@[simp] theorem all_cons : All P ((i, line) :: code) ↔ P i ∧ All P code := by
  simp [All]

@[simp] theorem all_append : All P (first ++ second) ↔ All P first ∧ All P second := by
  simp only [All, List.map_append, List.mem_append]
  exact ⟨fun h => ⟨fun i hi => h i (Or.inl hi), fun i hi => h i (Or.inr hi)⟩,
    fun h i hi => hi.elim (h.1 i) (h.2 i)⟩

theorem All.imp (h : All P code) (himp : ∀ i, P i → Q i) : All Q code :=
  fun i hi => himp i (h i hi)

@[simp] theorem variableNames_nil : variableNames [] = [] := rfl

@[simp] theorem variableNames_append : variableNames (first ++ second) = variableNames first ++ variableNames second := by
  simp [variableNames]

@[simp] theorem variableNames_cons :
    variableNames ((i, line) :: code) = i.variableName?.toList ++ variableNames code := by
  cases h : i.variableName? <;> simp [variableNames, h]

end Emitted

namespace Instruction

variable {i : Instruction}

@[simp] theorem variableName?_load (kind : Kind) (name : String) : (load kind name).variableName? = some name := rfl

@[simp] theorem variableName?_save (kind : Kind) (name : String) : (save kind name).variableName? = some name := rfl

@[simp] theorem variableName?_push (kind : Kind) (literal : String) : (push kind literal).variableName? = none := rfl

/-- Instructions that take what they need from the stack. -/
def Alone (i : Instruction) : Prop :=
  i.Straight ∧ i.operand = none

theorem variableName?_of_operand (h : i.operand = none) : i.variableName? = none := by
  rw [variableName?, h, ite_self]

end Instruction

/-! ### Expressions -/

open Lowering

theorem Kind.mem_all (kind : Kind) : kind ∈ Kind.all := by
  cases kind <;> decide

namespace BinaryOp

variable {op : BinaryOp} {left right : Ty} {kind : Kind} {plan : BinaryPlan}

theorem mem_numeric_of_numericKind? (h : numericKind? left right = some kind) : kind ∈ Kind.numeric := by
  cases left <;> cases right <;> cases h <;> decide

theorem alone_of_plan? (h : op.plan? left right = some plan) : ∀ i ∈ plan.instructions, i.Alone := by
  cases op with
  | add | sub | mul | div | lt | le | gt | ge =>
    obtain ⟨kind, hk, rfl⟩ := Option.map_eq_some_iff.mp h
    intro i hi
    obtain rfl := List.mem_singleton.mp hi
    exact ⟨.typed (mem_numeric_of_numericKind? hk) rfl, rfl⟩
  | mod | concat =>
    simp only [plan?] at h
    split at h
    · cases h
      intro i hi
      obtain rfl := List.mem_singleton.mp hi
      exact ⟨.plain rfl rfl, rfl⟩
    · cases h
  | eq =>
    obtain ⟨kind, -, rfl⟩ := Option.map_eq_some_iff.mp h
    intro i hi
    obtain rfl := List.mem_singleton.mp hi
    exact ⟨.typed kind.mem_all rfl, rfl⟩
  | ne =>
    obtain ⟨kind, -, rfl⟩ := Option.map_eq_some_iff.mp h
    intro i hi
    rcases List.mem_cons.mp hi with rfl | hi
    · exact ⟨.typed kind.mem_all rfl, rfl⟩
    · obtain rfl := List.mem_singleton.mp hi
      exact ⟨.plain rfl rfl, rfl⟩

end BinaryOp

theorem UnaryOp.alone_of_instruction? {op : UnaryOp} {ty : Ty} {i : Instruction} (h : op.instruction? ty = some i) :
    i.Alone := by
  cases op <;> cases ty <;> cases h
  · exact ⟨.typed (by decide) rfl, rfl⟩
  · exact ⟨.typed (by decide) rfl, rfl⟩
  · exact ⟨.plain rfl rfl, rfl⟩

namespace Emitted

variable {code : Emitted}

theorem All.straight (h : All Instruction.Alone code) : All Instruction.Straight code :=
  h.imp fun _ hi => hi.1

theorem All.variableNames_eq_nil (h : All Instruction.Alone code) : variableNames code = [] := by
  refine List.filterMap_eq_nil_iff.mpr fun i hi => ?_
  exact Instruction.variableName?_of_operand (h i hi).2

end Emitted

namespace Lowering

variable {ty source target : Ty} {kind : Kind} {line : Nat} {name : String} {span : Span} {code : Emitted}

theorem alone_widening : Emitted.All Instruction.Alone (widening ty kind line) := by
  unfold widening
  split
  · exact Emitted.all_cons.mpr ⟨⟨.plain rfl rfl, rfl⟩, Emitted.all_nil.mpr trivial⟩
  · exact Emitted.all_nil.mpr trivial

theorem alone_of_coercion (h : coercion source target name span = .ok code) : Emitted.All Instruction.Alone code := by
  obtain ⟨-, rfl⟩ := coercion_eq_ok.mp h
  split
  · exact Emitted.all_nil.mpr trivial
  · exact Emitted.all_cons.mpr ⟨⟨.plain rfl rfl, rfl⟩, Emitted.all_nil.mpr trivial⟩

theorem alone_of_plan {op : BinaryOp} {plan : BinaryPlan} (h : op.plan? source target = some plan) :
    Emitted.All Instruction.Alone (plan.instructions.map fun i => (i, line)) := by
  intro i hi
  exact BinaryOp.alone_of_plan? h i (by simpa using hi)

theorem straight_reload (saved : Option (String × Kind)) (line : Nat) :
    Emitted.All Instruction.Straight (reload saved line) := by
  cases saved with
  | none => exact Emitted.all_nil.mpr trivial
  | some saved => exact Emitted.all_cons.mpr ⟨.load _ _, Emitted.all_nil.mpr trivial⟩

end Lowering

namespace Expr

variable {oracle : Oracle} {e : Expr} {chain : Option Span} {l : Lowered}

theorem Lowers.all_straight (h : e.Lowers oracle chain l) : Emitted.All Instruction.Straight l.code := by
  induction h with
  | int chain n span => exact Emitted.all_cons.mpr ⟨.push (.int n), Emitted.all_nil.mpr trivial⟩
  | float chain x span => exact Emitted.all_cons.mpr ⟨.push (.float x), Emitted.all_nil.mpr trivial⟩
  | string chain text span => exact Emitted.all_cons.mpr ⟨.push (.string text), Emitted.all_nil.mpr trivial⟩
  | bool chain b span => exact Emitted.all_cons.mpr ⟨.push (.bool b), Emitted.all_nil.mpr trivial⟩
  | var chain hty hkind => exact Emitted.all_cons.mpr ⟨.load _ _, Emitted.all_nil.mpr trivial⟩
  | binary chain span hleft hright hplan hl hr ihl ihr =>
    simp only [Emitted.all_append]
    exact ⟨⟨⟨ihl, alone_widening.straight⟩, ihr, alone_widening.straight⟩, (alone_of_plan hplan).straight⟩
  | unary chain span hl hi ih =>
    simp only [Emitted.all_append, Emitted.all_cons, Emitted.all_nil, and_true]
    exact ⟨ih, (UnaryOp.alone_of_instruction? hi).1⟩
  | @logical chain op left right span l r hl hr hbool ihl ihr =>
    simp only [Emitted.all_append, Emitted.all_cons, Emitted.all_nil, and_true]
    exact ⟨⟨ihl, ihr⟩, by cases op <;> exact .plain rfl rfl⟩
  | group chain span h ih => exact ih
  | assign hs hty hkind hc ih | assignWithin hs hty hkind hc ih =>
    simp only [Emitted.all_append, Emitted.all_cons, Emitted.all_nil, and_true]
    simp only [ih, straight_reload, (alone_of_coercion hc).straight, Instruction.Straight.save,
      Instruction.Straight.load, and_true]

/-- The variables of the code, with the reload that follows it in a chain of assignments. -/
theorem Lowers.mem_variableNames_reload (h : e.Lowers oracle chain l) (line : Nat) (name : String) :
    name ∈ Emitted.variableNames (l.code ++ reload l.saved line) ↔ name ∈ e.names := by
  induction h generalizing line with
  | int | float | string | bool => simp [reload, names]
  | var chain hty hkind => simp [reload, names]
  | binary chain span hleft hright hplan hl hr ihl ihr =>
    simp only [hl.saved_eq_none, reload, List.append_nil] at ihl
    simp only [hr.saved_eq_none, reload, List.append_nil] at ihr
    simp [reload, names, alone_widening.variableNames_eq_nil, (alone_of_plan hplan).variableNames_eq_nil, ihl line,
      ihr line]
  | unary chain span hl hi ih =>
    simp only [hl.saved_eq_none, reload, List.append_nil] at ih
    simp [reload, names, Instruction.variableName?_of_operand (UnaryOp.alone_of_instruction? hi).2, ih line]
  | @logical chain op left right span l r hl hr hbool ihl ihr =>
    simp only [hl.saved_eq_none, reload, List.append_nil] at ihl
    simp only [hr.saved_eq_none, reload, List.append_nil] at ihr
    have hop : (Instruction.plain op.opcode).variableName? = none := Instruction.variableName?_of_operand rfl
    simp [reload, names, hop, ihl line, ihr line]
  | group chain span h ih => exact ih line
  | @assign target value span source ty kind coerced hs hty hkind hc ih =>
    have hnames := (alone_of_coercion hc).variableNames_eq_nil
    rw [names, List.mem_cons, ← ih span.line]
    simp [reload, hnames, or_comm, or_left_comm]
  | @assignWithin target value span place source ty kind coerced hs hty hkind hc ih =>
    have hnames := (alone_of_coercion hc).variableNames_eq_nil
    rw [names, List.mem_cons, ← ih place.line]
    simp [reload, hnames, or_comm, or_left_comm]

theorem Lowers.mem_variableNames (h : e.Lowers oracle none l) (name : String) :
    name ∈ Emitted.variableNames l.code ↔ name ∈ e.names := by
  rw [← h.mem_variableNames_reload e.line, h.saved_eq_none, reload, List.append_nil]

end Expr

/-! ### Statements -/

/-- Code that is made of instructions of one kind and whose variables are the given ones. -/
structure Emitted.Over (P : Instruction → Prop) (names : List String) (code : Emitted) : Prop where
  all : Emitted.All P code
  mem_variableNames : ∀ name, name ∈ code.variableNames ↔ name ∈ names

namespace Emitted

variable {P : Instruction → Prop} {names more : List String} {i : Instruction} {line : Nat} {first second code : Emitted}

theorem Over.nil : Over P [] [] :=
  ⟨all_nil.mpr trivial, fun _ => Iff.rfl⟩

theorem Over.append (h : Over P names first) (h' : Over P more second) : Over P (names ++ more) (first ++ second) :=
  ⟨all_append.mpr ⟨h.all, h'.all⟩, fun name => by
    rw [variableNames_append, List.mem_append, List.mem_append, h.mem_variableNames, h'.mem_variableNames]⟩

theorem Over.cons (h : Over P names code) (hi : P i) : Over P (i.variableName?.toList ++ names) ((i, line) :: code) :=
  ⟨all_cons.mpr ⟨hi, h.all⟩, fun name => by
    rw [variableNames_cons, List.mem_append, List.mem_append, h.mem_variableNames]⟩

theorem Over.generated (h : Over Instruction.Straight names code) : Over Instruction.Generated names code :=
  ⟨h.all.imp fun _ => .straight, h.mem_variableNames⟩

end Emitted

theorem Expr.Lowers.over {oracle : Oracle} {e : Expr} {l : Lowered} (h : e.Lowers oracle none l) :
    l.code.Over Instruction.Straight e.names :=
  ⟨h.all_straight, h.mem_variableNames⟩

namespace Lowering

variable {oracle : Oracle} {e : Expr} {code : Emitted} {line : Nat} {span : Span} {names : List String}

theorem over_defaults (v : Value) : (defaults v.kind v.literal line names).Over Instruction.Straight names := by
  induction names with
  | nil => exact .nil
  | cons name names ih => exact (ih.cons (.save v.kind name)).cons (.push v)

theorem over_discard (h : discard oracle e = .ok code) : code.Over Instruction.Straight e.names := by
  obtain ⟨l, hl, rfl⟩ := discard_eq_ok h
  have hstraight : (Instruction.plain .pop).Straight := .plain rfl rfl
  have hpop : Emitted.Over Instruction.Straight [] [(.plain .pop, e.line)] := Emitted.Over.nil.cons hstraight
  simpa using hl.over.append hpop

theorem over_clauseCode {clause : Clause} {part : Option Expr} (h : clauseCode oracle clause part = .ok code) :
    code.Over Instruction.Straight (part.toList.flatMap Expr.names) := by
  rcases clauseCode_eq_ok h with ⟨rfl, rfl⟩ | ⟨e, rfl, -, h⟩
  · exact .nil
  · simpa using over_discard h

theorem over_exitUnless {number : Nat} (h : exitUnless oracle e (labelName number) line = .ok code) :
    code.Over Instruction.Generated e.names := by
  obtain ⟨l, hl, rfl⟩ := exitUnless_eq_ok h
  have hexit : Emitted.Over Instruction.Generated [] [(.fjmp (labelName number), line)] :=
    Emitted.Over.nil.cons (Instruction.Generated.fjmp number)
  simpa using hl.over.generated.append hexit

theorem over_label (n line : Nat) : Emitted.Over Instruction.Generated [] [(.label (labelName n), line)] :=
  Emitted.Over.nil.cons (Instruction.Generated.label n)

/-- The jump back that a loop ends with, and the label after it. -/
theorem over_end (n line : Nat) :
    Emitted.Over Instruction.Generated [] [(.jmp (labelName n), line), (.label (labelName (n + 1)), line)] :=
  (Emitted.Over.nil.cons (Instruction.Generated.label (n + 1))).cons (.jmp n)

theorem over_reads (h : reads oracle span names = .ok code) : code.Over Instruction.Straight names := by
  induction names generalizing code with
  | nil =>
    cases h
    exact .nil
  | cons name names ih =>
    obtain ⟨ty, kind, rest, -, -, hrest, rfl⟩ := reads_cons_eq_ok h
    have hread : (Instruction.read kind).Straight := .typed kind.mem_all rfl
    exact ((ih hrest).cons (.save kind name)).cons hread

theorem over_values {exprs : List Expr} (h : values oracle exprs = .ok code) :
    code.Over Instruction.Straight (exprs.flatMap Expr.names) := by
  induction exprs generalizing code with
  | nil =>
    cases h
    exact .nil
  | cons e exprs ih =>
    obtain ⟨l, rest, hl, hrest, rfl⟩ := values_cons_eq_ok h
    rw [List.flatMap_cons]
    exact hl.over.append (ih hrest)

end Lowering

namespace Stmt

variable {oracle : Oracle}

mutual

/-- The code of a statement has exactly its variables. -/
theorem over_lower (s : Stmt) {n n' : Nat} {code : Emitted} (h : s.lower oracle n = .ok (code, n')) :
    code.Over Instruction.Generated s.names := by
  cases s with
  | declare type names span =>
    obtain ⟨ty, kind, literal, -, hkind, hliteral, rfl, -⟩ := lower_declare h
    obtain ⟨v, -, rfl, rfl⟩ := Value.default?_of_literal hkind hliteral
    exact (over_defaults v).generated
  | expr e span => exact (over_discard (lower_expr h).1).generated
  | block body span => exact over_lowerAll body h
  | ifElse condition yes no span =>
    obtain ⟨test, yesCode, n₁, noCode, htest, hyes, hno, rfl⟩ := lower_ifElse h
    have hmiddle : Emitted.Over Instruction.Generated [] [(.jmp (labelName (n + 1)), span.line),
        (.label (labelName n), span.line)] :=
      (Emitted.Over.nil.cons (Instruction.Generated.label n)).cons (.jmp (n + 1))
    have hend := over_label (n + 1) span.line
    have hcode := ((((over_exitUnless htest).append (over_lower yes hyes)).append hmiddle).append
      (over_lower no hno)).append hend
    simpa [names] using hcode
  | whileLoop condition body span =>
    obtain ⟨test, bodyCode, htest, hbody, rfl⟩ := lower_whileLoop h
    have hstart := over_label n span.line
    have hend := over_end n span.line
    have hcode := ((hstart.append (over_exitUnless htest)).append (over_lower body hbody)).append hend
    simpa [names] using hcode
  | forLoop init condition update body span =>
    obtain ⟨initCode, test, bodyCode, updateCode, hinit, htest, hbody, hupdate, rfl⟩ := lower_forLoop h
    have htest : test.Over Instruction.Generated (condition.toList.flatMap Expr.names) := by
      cases condition with
      | none =>
        cases htest
        exact .nil
      | some e => simpa using over_exitUnless htest
    have hstart := over_label n span.line
    have hend := over_end n span.line
    have hcode := (((((over_clauseCode hinit).generated.append hstart).append htest).append (over_lower body hbody)).append
      (over_clauseCode hupdate).generated).append hend
    simpa [names] using hcode
  | read names span => exact (over_reads (lower_read h).1).generated
  | write exprs fits span =>
    obtain ⟨list, hlist, rfl, -⟩ := lower_write h
    have hprint : Emitted.Over Instruction.Generated [] [(.print exprs.length, span.line)] :=
      Emitted.Over.nil.cons (Instruction.Generated.straight (.print fits))
    simpa [names] using (over_values hlist).generated.append hprint
  | empty span =>
    cases h
    exact .nil

theorem over_lowerAll (body : List Stmt) {n n' : Nat} {code : Emitted} (h : lowerAll oracle body n = .ok (code, n')) :
    code.Over Instruction.Generated (namesAll body) := by
  cases body with
  | nil =>
    cases h
    exact .nil
  | cons s rest =>
    obtain ⟨first, n₁, restCode, hs, hrest, rfl⟩ := lowerAll_cons h
    exact (over_lower s hs).append (over_lowerAll rest hrest)

end

end Stmt

end StackMachine
