import StackMachine.Proofs.Declarations

/-! Checking goes from left to right.

What a check carries from one statement to the next is the symbol table, and nothing else (`Checked.andThen`). So a check
of any program can be cut at any place (`Stmt.Place`): the place is entered with some table, the statement there is
checked against it, and the check goes on with the table that this leaves. Blocks have no part in it, since they open no
scope. Main statement: `Program.check_left_to_right`. -/

namespace StackMachine

/-- Goes on with another check. The errors of the two come one after the other. -/
def Checked.andThen (first : Checked) (next : SymbolTable → Checked) : Checked :=
  ((next first.1).1, first.2 ++ (next first.1).2)

namespace Checked

@[simp] theorem fst_andThen (first : Checked) (next : SymbolTable → Checked) :
    (first.andThen next).1 = (next first.1).1 :=
  rfl

@[simp] theorem snd_andThen (first : Checked) (next : SymbolTable → Checked) :
    (first.andThen next).2 = first.2 ++ (next first.1).2 :=
  rfl

theorem andThen_assoc (first : Checked) (next last : SymbolTable → Checked) :
    (first.andThen next).andThen last = first.andThen fun table => (next table).andThen last := by
  ext1
  · rfl
  · exact List.append_assoc _ _ _

/-- A check that declares nothing and finds no error. -/
theorem nothing_andThen (table : SymbolTable) (next : SymbolTable → Checked) : andThen (table, []) next = next table :=
  rfl

theorem andThen_nothing (first : Checked) : first.andThen (fun table => (table, [])) = first := by
  ext1
  · rfl
  · exact List.append_nil _

end Checked

namespace Stmt

theorem checkAll_cons (s : Stmt) (rest : List Stmt) (table : SymbolTable) :
    checkAll (s :: rest) table = (s.check table).andThen (checkAll rest) :=
  rfl

theorem checkAll_append (first last : List Stmt) (table : SymbolTable) :
    checkAll (first ++ last) table = (checkAll first table).andThen (checkAll last) := by
  induction first generalizing table with
  | nil => exact (Checked.nothing_andThen table _).symm
  | cons s rest ih =>
    rw [List.cons_append, checkAll_cons, checkAll_cons, Checked.andThen_assoc]
    exact congrArg _ (funext ih)

theorem checkAll_around (before : List Stmt) (s : Stmt) (behind : List Stmt) (table : SymbolTable) :
    checkAll (before ++ s :: behind) table =
      (checkAll before table).andThen fun table => (s.check table).andThen (checkAll behind) :=
  checkAll_append before (s :: behind) table

/-- Blocks open no scope. -/
theorem checkAll_splice (first body last : List Stmt) (span : Span) (table : SymbolTable) :
    checkAll (first ++ .block body span :: last) table = checkAll (first ++ body ++ last) table := by
  rw [checkAll_around, checkAll_append, checkAll_append, Checked.andThen_assoc]
  rfl

theorem check_ifElse (condition : Expr) (yes no : Stmt) (span : Span) (table : SymbolTable) :
    (Stmt.ifElse condition yes no span).check table =
      Checked.andThen (table, condition.conditionErrors table .ifStatement) fun table =>
        (yes.check table).andThen no.check := by
  ext1
  · rfl
  · exact List.append_assoc _ _ _

/-! ### Places in a statement -/

/-- A place in a statement where another statement stands. -/
inductive Place where
  | here
  | inBlock (before : List Stmt) (place : Place) (behind : List Stmt) (span : Span)
  | inThen (condition : Expr) (place : Place) (no : Stmt) (span : Span)
  | inElse (condition : Expr) (yes : Stmt) (place : Place) (span : Span)
  | inWhile (condition : Expr) (place : Place) (span : Span)
  | inFor (init condition update : Option Expr) (place : Place) (span : Span)

namespace Place

/-- The whole, with the given statement at the place. -/
def fill : Place → Stmt → Stmt
  | here, s => s
  | inBlock before place behind span, s => .block (before ++ place.fill s :: behind) span
  | inThen condition place no span, s => .ifElse condition (place.fill s) no span
  | inElse condition yes place span, s => .ifElse condition yes (place.fill s) span
  | inWhile condition place span, s => .whileLoop condition (place.fill s) span
  | inFor init condition update place span, s => .forLoop init condition update (place.fill s) span

/-- The check of what comes before the place: the table at the place, and the errors so far. -/
def enter : Place → SymbolTable → Checked
  | here, table => (table, [])
  | inBlock before place _ _, table => (checkAll before table).andThen place.enter
  | inThen condition place _ _, table =>
    Checked.andThen (table, condition.conditionErrors table .ifStatement) place.enter
  | inElse condition yes place _, table =>
    Checked.andThen (table, condition.conditionErrors table .ifStatement) fun table =>
      (yes.check table).andThen place.enter
  | inWhile condition place _, table =>
    Checked.andThen (table, condition.conditionErrors table .whileLoop) place.enter
  | inFor init condition update place _, table =>
    Checked.andThen
      (table, optionErrors (Expr.clauseErrors table .initializer) init
        ++ optionErrors (Expr.conditionErrors table .forLoop) condition
        ++ optionErrors (Expr.clauseErrors table .update) update) place.enter

/-- The check of what comes behind the place, given the table there. -/
def leave : Place → SymbolTable → Checked
  | here, table => (table, [])
  | inBlock _ place behind _, table => (place.leave table).andThen (checkAll behind)
  | inThen _ place no _, table => (place.leave table).andThen no.check
  | inElse _ _ place _, table | inWhile _ place _, table | inFor _ _ _ place _, table => place.leave table

/-- By induction on the place: the statements around it only come before it or behind it. -/
theorem check_fill (place : Place) (s : Stmt) (table : SymbolTable) :
    (place.fill s).check table = (place.enter table).andThen fun table => (s.check table).andThen place.leave := by
  induction place generalizing table with
  | here => exact (Checked.andThen_nothing (s.check table)).symm
  | inBlock before place behind span ih =>
    show checkAll (before ++ place.fill s :: behind) table = _
    rw [checkAll_around]
    simp only [enter, leave, ih, Checked.andThen_assoc]
  | inThen condition place no span ih =>
    rw [fill, check_ifElse]
    simp only [enter, leave, ih, Checked.andThen_assoc]
  | inElse condition yes place span ih =>
    have ih : (place.fill s).check = _ := funext ih
    rw [fill, check_ifElse, ih]
    simp only [enter, leave, Checked.andThen_assoc]
  | inWhile condition place span ih =>
    have ih : (place.fill s).check = _ := funext ih
    show Checked.andThen (table, condition.conditionErrors table .whileLoop) (place.fill s).check = _
    rw [ih, enter, Checked.andThen_assoc]
    rfl
  | inFor init condition update place span ih =>
    have ih : (place.fill s).check = _ := funext ih
    show Checked.andThen (table, _) (place.fill s).check = _
    rw [ih, enter, Checked.andThen_assoc]
    rfl

end Place

/-! ### Statements without declarations -/

mutual

theorem fst_check_of_no_declarations (s : Stmt) (h : s.declarations = []) (table : SymbolTable) :
    (s.check table).1 = table := by
  cases s with
  | declare type names span => cases h
  | block body span => exact fst_checkAll_of_no_declarations body h table
  | ifElse condition yes no span =>
    obtain ⟨hyes, hno⟩ := List.append_eq_nil_iff.mp h
    exact (fst_check_of_no_declarations no hno _).trans (fst_check_of_no_declarations yes hyes table)
  | whileLoop condition body span => exact fst_check_of_no_declarations body h table
  | forLoop init condition update body span => exact fst_check_of_no_declarations body h table
  | expr | read | write | empty => rfl

theorem fst_checkAll_of_no_declarations (body : List Stmt) (h : declarationsAll body = []) (table : SymbolTable) :
    (checkAll body table).1 = table := by
  cases body with
  | nil => rfl
  | cons s rest =>
    obtain ⟨hs, hrest⟩ := List.append_eq_nil_iff.mp h
    exact (fst_checkAll_of_no_declarations rest hrest _).trans (fst_check_of_no_declarations s hs table)

end

end Stmt

namespace Program

/-- A place in a program where a statement stands, at any depth. -/
structure Place where
  before : List Stmt
  place : Stmt.Place
  behind : List Stmt

namespace Place

def fill (p : Place) (s : Stmt) : Program :=
  p.before ++ p.place.fill s :: p.behind

/-- The check of what comes before the place: the table at the place, and the errors so far. -/
def enter (p : Place) (table : SymbolTable) : Checked :=
  (check p.before table).andThen p.place.enter

/-- The check of what comes behind the place, given the table there. -/
def leave (p : Place) (table : SymbolTable) : Checked :=
  (p.place.leave table).andThen (check p.behind)

theorem check_fill (p : Place) (s : Stmt) (table : SymbolTable) :
    check (p.fill s) table = (p.enter table).andThen fun table => (s.check table).andThen p.leave := by
  rw [check, fill, Stmt.checkAll_around]
  simp only [enter, p.place.check_fill s, Checked.andThen_assoc]
  rfl

theorem check_fill_of_no_declarations (p : Place) {s : Stmt} (h : s.declarations = []) (table : SymbolTable) :
    check (p.fill s) table =
      ((p.leave (p.enter table).1).1,
        (p.enter table).2 ++ (s.check (p.enter table).1).2 ++ (p.leave (p.enter table).1).2) := by
  have htable := Stmt.fst_check_of_no_declarations s h (p.enter table).1
  rw [check_fill, Checked.andThen, Checked.fst_andThen, Checked.snd_andThen, htable, List.append_assoc]

end Place

/-- Checking goes from left to right and knows no nested scopes. To check two programs in one is to check the second after
the first. A block can be replaced by its statements, in the program itself or in a block at any place of it. And where a
statement without declarations is replaced by the empty statement, the errors that it has by itself, against the table
at that place, are gone, and everything else stays as it is. -/
theorem check_left_to_right (table : SymbolTable) :
    (∀ first last : Program,
      check (first ++ last) table =
        ((check last (check first table).1).1, (check first table).2 ++ (check last (check first table).1).2)) ∧
    (∀ (first body last : List Stmt) (span : Span),
      check (first ++ .block body span :: last) table = check (first ++ body ++ last) table ∧
      ∀ (p : Place) (outer : Span),
        check (p.fill (.block (first ++ .block body span :: last) outer)) table =
          check (p.fill (.block (first ++ body ++ last) outer)) table) ∧
    ∀ (p : Place) (s : Stmt) (span : Span), s.declarations = [] →
      check (p.fill s) table =
        ((p.leave (p.enter table).1).1,
          (p.enter table).2 ++ (s.check (p.enter table).1).2 ++ (p.leave (p.enter table).1).2) ∧
      check (p.fill (.empty span)) table =
        ((p.leave (p.enter table).1).1, (p.enter table).2 ++ (p.leave (p.enter table).1).2) := by
  refine ⟨fun first last => Stmt.checkAll_append first last table, fun first body last span => ⟨?_, fun p outer => ?_⟩,
    fun p s span h => ⟨p.check_fill_of_no_declarations h table, ?_⟩⟩
  · exact Stmt.checkAll_splice first body last span table
  · have hsame : (Stmt.block (first ++ .block body span :: last) outer).check =
        (Stmt.block (first ++ body ++ last) outer).check := funext (Stmt.checkAll_splice first body last span)
    rw [p.check_fill, p.check_fill, hsame]
  · have hempty : (Stmt.empty span).declarations = [] := rfl
    rw [p.check_fill_of_no_declarations hempty, Stmt.check, List.append_nil]

/-- `int a; if (c) int b; else { □ } float a;` -/
def redeclaringAround : Place where
  before := [.declare ⟨"int", .ofLine 1⟩ ["a"] (.ofLine 1)]
  place := .inElse (.var "c" (.ofLine 2)) (.declare ⟨"int", .ofLine 3⟩ ["b"] (.ofLine 3))
    (.inBlock [] .here [] (.ofLine 4)) (.ofLine 2)
  behind := [.declare ⟨"float", .ofLine 5⟩ ["a"] (.ofLine 5)]

/-- `while (b) d = a;` -/
def misusingLoop : Stmt :=
  .whileLoop (.var "b" (.ofLine 4)) (.expr (.assign "d" (.var "a" (.ofLine 4)) (.ofLine 4)) (.ofLine 4)) (.ofLine 4)

/-- The loop stands where `b` was declared by the other branch. Its condition and its body have an error each, and these
come between those of the program around. -/
theorem check_left_to_right_redeclaring :
    misusingLoop.declarations = [] ∧
    (check (redeclaringAround.fill misusingLoop) .empty).2 =
      [.undeclared "c" (.ofLine 2)] ++
        [.general (.conditionNotBool .whileLoop .int) (.ofLine 4), .undeclared "d" (.ofLine 4)] ++
        [.alreadyDeclared "a" (.ofLine 5) (.ofLine 1)] ∧
    (check (redeclaringAround.fill (.empty .unknown)) .empty).2 =
      [.undeclared "c" (.ofLine 2)] ++ [.alreadyDeclared "a" (.ofLine 5) (.ofLine 1)] := by
  have hdeclarations : misusingLoop.declarations = [] := rfl
  obtain ⟨hfilled, hempty⟩ := (check_left_to_right .empty).2.2 redeclaringAround misusingLoop .unknown hdeclarations
  refine ⟨hdeclarations, ?_, ?_⟩
  · rw [hfilled]
    decide
  · rw [hempty]
    decide

end Program

end StackMachine
