import Mathlib.Data.List.Dedup
import StackMachine.Proofs.Declarations

/-! What the symbol table records.

A check meets the declared names one after the other. The first time, a name goes into the table with the type and the
span of its declaration. Every further time it is an error that points back to the first, and the table stays as it is.
Nothing else in a program has a part in this, whatever errors it has. Main statement:
`Program.table_of_declarations`. -/

namespace StackMachine

/-! ### Declared symbols -/

/-- What a declaration says of each of its names: nothing, if its keyword names no type. -/
def Declaration.symbols (d : Declaration) : List Symbol :=
  match Ty.ofKeyword? d.type.keyword with
  | some ty => d.names.map fun name => ⟨name, ty, d.span⟩
  | none => []

def Stmt.declaredSymbols (s : Stmt) : List Symbol :=
  s.declarations.flatMap Declaration.symbols

def Stmt.declaredSymbolsAll (body : List Stmt) : List Symbol :=
  (declarationsAll body).flatMap Declaration.symbols

/-- Everything that a program declares, in source order and with repetitions. -/
def Program.declaredSymbols (program : Program) : List Symbol :=
  Stmt.declaredSymbolsAll program

namespace Stmt

theorem declaredSymbols_ifElse (condition : Expr) (yes no : Stmt) (span : Span) :
    (Stmt.ifElse condition yes no span).declaredSymbols = yes.declaredSymbols ++ no.declaredSymbols := by
  simp [declaredSymbols, declarations]

theorem declaredSymbolsAll_cons (s : Stmt) (rest : List Stmt) :
    declaredSymbolsAll (s :: rest) = s.declaredSymbols ++ declaredSymbolsAll rest := by
  simp [declaredSymbols, declaredSymbolsAll, declarationsAll]

end Stmt

namespace Symbol

/-- Each of some symbols together with all that come earlier, of which `before` are the first. -/
def withEarlier (before : List Symbol) : List Symbol → List (List Symbol × Symbol)
  | [] => []
  | s :: rest => (before, s) :: withEarlier (before ++ [s]) rest

/-- The symbols whose names do not occur earlier. -/
def firsts (before symbols : List Symbol) : List Symbol :=
  (withEarlier before symbols).filterMap fun (earlier, s) =>
    if earlier.any fun other => other.name = s.name then none else some s

/-- An error for each symbol whose name occurs earlier, which points back to the first one of that name. -/
def redeclarations (before symbols : List Symbol) : List TypeError :=
  (withEarlier before symbols).filterMap fun (earlier, s) =>
    (earlier.find? fun other => other.name = s.name).map fun first =>
      .alreadyDeclared s.name s.declaredAt first.declaredAt

variable {before symbols : List Symbol} {s : Symbol} {name : String}

theorem withEarlier_append (before xs ys : List Symbol) :
    withEarlier before (xs ++ ys) = withEarlier before xs ++ withEarlier (before ++ xs) ys := by
  induction xs generalizing before with
  | nil => simp [withEarlier]
  | cons s rest ih => simp [withEarlier, ih]

theorem firsts_append (before xs ys : List Symbol) :
    firsts before (xs ++ ys) = firsts before xs ++ firsts (before ++ xs) ys := by
  rw [firsts, withEarlier_append, List.filterMap_append]
  rfl

theorem redeclarations_append (before xs ys : List Symbol) :
    redeclarations before (xs ++ ys) = redeclarations before xs ++ redeclarations (before ++ xs) ys := by
  rw [redeclarations, withEarlier_append, List.filterMap_append]
  rfl

theorem firsts_cons_of_new (h : before.find? (fun other => other.name = s.name) = none) :
    firsts before (s :: symbols) = s :: firsts (before ++ [s]) symbols := by
  have hnew : ¬before.any (fun other => other.name = s.name) = true := by
    simpa using h
  simp only [firsts, withEarlier, List.filterMap_cons, hnew]
  rfl

theorem firsts_cons_of_old {first : Symbol} (h : before.find? (fun other => other.name = s.name) = some first) :
    firsts before (s :: symbols) = firsts (before ++ [s]) symbols := by
  have hname : first.name = s.name := by simpa using List.find?_some h
  have hold : before.any (fun other => other.name = s.name) = true :=
    List.any_eq_true.mpr ⟨first, List.mem_of_find?_eq_some h, decide_eq_true hname⟩
  simp only [firsts, withEarlier, List.filterMap_cons, hold]
  rfl

theorem firsts_eq_nil (h : ∀ s ∈ symbols, s.name ∈ before.map Symbol.name) : firsts before symbols = [] := by
  induction symbols generalizing before with
  | nil => rfl
  | cons s rest ih =>
    obtain ⟨hs, hrest⟩ := List.forall_mem_cons.mp h
    obtain ⟨other, hother, hname⟩ := List.mem_map.mp hs
    cases hfind : before.find? fun other => other.name = s.name with
    | none => exact absurd hname (by simpa using List.find?_eq_none.mp hfind other hother)
    | some first =>
      rw [firsts_cons_of_old hfind]
      refine ih fun s' hs' => ?_
      rw [List.map_append]
      exact List.mem_append_left _ (hrest s' hs')

/-- What is looked up among the first symbols is what would be found among all. -/
theorem find?_firsts (h : before.find? (fun s => s.name = name) = none) :
    (firsts before symbols).find? (fun s => s.name = name) = symbols.find? fun s => s.name = name := by
  induction symbols generalizing before with
  | nil => rfl
  | cons s rest ih =>
    by_cases hname : s.name = name
    · subst hname
      rw [firsts_cons_of_new h]
      simp
    · have hnext : (before ++ [s]).find? (fun s => s.name = name) = none := by
        simp [List.find?_append, h, hname]
      cases hfind : before.find? fun other => other.name = s.name with
      | none => simp [firsts_cons_of_new hfind, hname, ih hnext]
      | some first => simp [firsts_cons_of_old hfind, hname, ih hnext]

theorem mem_names_firsts_iff : name ∈ (firsts [] symbols).map Symbol.name ↔ name ∈ symbols.map Symbol.name := by
  have hmem : ∀ list : List Symbol, name ∈ list.map Symbol.name ↔ (list.find? fun s => s.name = name).isSome := by
    simp
  rw [hmem, hmem, find?_firsts rfl]

/-- No name that occurs earlier is among the first symbols. -/
theorem name_ne_of_mem_firsts (hs : s ∈ firsts before symbols) {other : Symbol} (hother : other ∈ before) :
    other.name ≠ s.name := by
  induction symbols generalizing before with
  | nil => cases hs
  | cons s' rest ih =>
    cases hfind : before.find? fun other => other.name = s'.name with
    | none =>
      rw [firsts_cons_of_new hfind] at hs
      rcases List.mem_cons.mp hs with rfl | hs
      · simpa using List.find?_eq_none.mp hfind other hother
      · exact ih hs (List.mem_append_left _ hother)
    | some first =>
      rw [firsts_cons_of_old hfind] at hs
      exact ih hs (List.mem_append_left _ hother)

theorem nodup_firsts (before symbols : List Symbol) : ((firsts before symbols).map Symbol.name).Nodup := by
  induction symbols generalizing before with
  | nil => exact .nil
  | cons s rest ih =>
    cases hfind : before.find? fun other => other.name = s.name with
    | none =>
      rw [firsts_cons_of_new hfind, List.map_cons, List.nodup_cons]
      refine ⟨fun hmem => ?_, ih _⟩
      obtain ⟨s', hs', hname⟩ := List.mem_map.mp hmem
      exact name_ne_of_mem_firsts hs' (List.mem_append_right before (List.mem_singleton_self s)) hname.symm
    | some first =>
      rw [firsts_cons_of_old hfind]
      exact ih _

/-- There are as many first symbols as there are different names. -/
theorem length_firsts (symbols : List Symbol) :
    (firsts [] symbols).length = (symbols.map Symbol.name).dedup.length := by
  have hperm : ((firsts [] symbols).map Symbol.name).Perm (symbols.map Symbol.name).dedup := by
    refine (List.perm_ext_iff_of_nodup (nodup_firsts [] symbols) (List.nodup_dedup _)).mpr fun name => ?_
    rw [mem_names_firsts_iff, List.mem_dedup]
  rw [← hperm.length_eq, List.length_map]

end Symbol

/-! ### Errors of other kinds -/

/-- Whether an error says that a name was declared before. -/
def TypeError.isRedeclaration : TypeError → Bool
  | .alreadyDeclared _ _ _ => true
  | _ => false

/-- No error of a list is about a name that was declared before. -/
def Unrelated (errors : List TypeError) : Prop :=
  ∀ error ∈ errors, error.isRedeclaration = false

theorem Unrelated.filter_eq {errors : List TypeError} (h : Unrelated errors) :
    errors.filter TypeError.isRedeclaration = [] :=
  List.filter_eq_nil_iff.mpr fun error herror => by simp [h error herror]

theorem Unrelated.append {errors errors' : List TypeError} (h : Unrelated errors) (h' : Unrelated errors') :
    Unrelated (errors ++ errors') :=
  List.forall_mem_append.mpr ⟨h, h'⟩

theorem Unrelated.nil : Unrelated [] :=
  nofun

theorem Unrelated.single {error : TypeError} (h : error.isRedeclaration = false) : Unrelated [error] :=
  List.forall_mem_singleton.mpr h

theorem Unrelated.flatMap {α : Type} {list : List α} {errors : α → List TypeError}
    (h : ∀ a ∈ list, Unrelated (errors a)) : Unrelated (list.flatMap errors) := by
  intro error herror
  obtain ⟨a, ha, herror⟩ := List.mem_flatMap.mp herror
  exact h a ha error herror

section

variable {table : SymbolTable} {error : TypeError}

theorem SymbolTable.typeOf_unrelated {name : String} {span : Span} (h : table.typeOf name span = .error error) :
    error.isRedeclaration = false := by
  unfold typeOf at h
  split at h
  · cases h
  · cases h
    rfl

namespace Expr

theorem check_unrelated {e : Expr} (h : e.check table.typeOf = .error error) : error.isRedeclaration = false := by
  induction e with
  | int | float | string | bool => cases h
  | var name span => exact SymbolTable.typeOf_unrelated h
  | binary op left right span ihl ihr =>
    rcases Except.bind_eq_error.mp h with h | ⟨leftType, -, h⟩
    · exact ihl h
    · rcases Except.bind_eq_error.mp h with h | ⟨rightType, -, h⟩
      · exact ihr h
      · unfold BinaryOp.typing at h
        split at h <;> cases h
        rfl
  | unary op operand span ih =>
    rcases Except.bind_eq_error.mp h with h | ⟨operandType, -, h⟩
    · exact ih h
    · unfold UnaryOp.typing at h
      split at h <;> cases h
      rfl
  | logical op left right span ihl ihr =>
    rcases Except.bind_eq_error.mp h with h | ⟨leftType, -, h⟩
    · exact ihl h
    · rcases Except.bind_eq_error.mp h with h | ⟨rightType, -, h⟩
      · exact ihr h
      · unfold LogicalOp.typing at h
        split at h <;> cases h
        rfl
  | group inner span ih => exact ih h
  | assign target value span ih =>
    rcases Except.bind_eq_error.mp h with h | ⟨targetType, -, h⟩
    · exact SymbolTable.typeOf_unrelated h
    · rcases Except.bind_eq_error.mp h with h | ⟨valueType, -, h⟩
      · exact ih h
      · split at h <;> cases h
        rfl

theorem typingErrors_unrelated (e : Expr) : Unrelated (typingErrors (e.check table.typeOf)) := by
  cases h : e.check table.typeOf with
  | ok ty => exact .nil
  | error error => exact .single (check_unrelated h)

theorem writeErrors_unrelated (e : Expr) : Unrelated (e.writeErrors table) := by
  unfold writeErrors
  split
  · rename_i h
    exact .single (check_unrelated h)
  · split
    · exact .nil
    · exact .single rfl

theorem conditionErrors_unrelated (table : SymbolTable) (place : Conditional) (e : Expr) :
    Unrelated (e.conditionErrors table place) := by
  unfold conditionErrors
  split
  · rename_i h
    exact .single (check_unrelated h)
  · split
    · exact .nil
    · exact .single rfl

theorem clauseErrors_unrelated (table : SymbolTable) (clause : Clause) (e : Expr) :
    Unrelated (e.clauseErrors table clause) := by
  unfold clauseErrors
  split
  · exact typingErrors_unrelated e
  · exact .single rfl

end Expr

theorem SymbolTable.readErrors_unrelated (span : Span) (name : String) : Unrelated (table.readErrors span name) := by
  unfold readErrors
  split
  · rename_i h
    exact .single (typeOf_unrelated h)
  · split
    · exact .nil
    · exact .single rfl

end

theorem optionErrors_unrelated {errors : Expr → List TypeError} (h : ∀ e, Unrelated (errors e)) (part : Option Expr) :
    Unrelated (optionErrors errors part) := by
  cases part with
  | none => exact .nil
  | some e => exact h e

/-! ### What a check records -/

/-- What the check of a piece of program that declares `symbols` leaves, if `before` was declared before. -/
structure Recorded (before symbols : List Symbol) (checked : Checked) : Prop where
  table : checked.1.symbols = Symbol.firsts [] (before ++ symbols)
  errors : checked.2.filter TypeError.isRedeclaration = Symbol.redeclarations before symbols

namespace Recorded

variable {before symbols more : List Symbol} {table table' : SymbolTable} {errors errors' : List TypeError}

/-- A piece of program that declares nothing. -/
theorem of_unrelated (htable : table.symbols = Symbol.firsts [] before) (herrors : Unrelated errors) :
    Recorded before [] (table, errors) where
  table := by simpa using htable
  errors := herrors.filter_eq

theorem append (h : Recorded before symbols (table, errors))
    (h' : Recorded (before ++ symbols) more (table', errors')) :
    Recorded before (symbols ++ more) (table', errors ++ errors') where
  table := by
    rw [← List.append_assoc]
    exact h'.table
  errors := by
    rw [List.filter_append, h.errors, h'.errors, Symbol.redeclarations_append]

/-- Errors about other things that come first. -/
theorem after (herrors : Unrelated errors) (h : Recorded before symbols (table, errors')) :
    Recorded before symbols (table, errors ++ errors') where
  table := h.table
  errors := by
    rw [List.filter_append, herrors.filter_eq, List.nil_append, h.errors]

end Recorded

/-- Names that are declared one after the other. -/
theorem SymbolTable.recorded_declareAll {table : SymbolTable} {before : List Symbol} (ty : Ty) (span : Span)
    (names : List String) (h : table.symbols = Symbol.firsts [] before) :
    Recorded before (names.map fun name => ⟨name, ty, span⟩) (table.declareAll ty span names) := by
  induction names generalizing table before with
  | nil => exact .of_unrelated h .nil
  | cons name rest ih =>
    have hfind : table.find? name = before.find? fun s => s.name = name := by
      rw [find?, h, Symbol.find?_firsts rfl]
    have hfirsts := Symbol.firsts_append [] before [⟨name, ty, span⟩]
    rw [declareAll, declare, hfind, List.map_cons, ← List.singleton_append]
    cases hold : before.find? fun s => s.name = name with
    | some first =>
      rw [List.nil_append, Symbol.firsts_cons_of_old hold] at hfirsts
      have hname : Recorded before [⟨name, ty, span⟩] (table, [.alreadyDeclared name span first.declaredAt]) := by
        refine ⟨?_, by simp [Symbol.redeclarations, Symbol.withEarlier, hold, TypeError.isRedeclaration]⟩
        rw [hfirsts, h]
        exact (List.append_nil _).symm
      exact hname.append (ih hname.table)
    | none =>
      rw [List.nil_append, Symbol.firsts_cons_of_new hold] at hfirsts
      have hname : Recorded before [⟨name, ty, span⟩] (⟨table.symbols ++ [⟨name, ty, span⟩]⟩, []) := by
        refine ⟨?_, by simp [Symbol.redeclarations, Symbol.withEarlier, hold]⟩
        rw [hfirsts, h]
        rfl
      exact hname.append (ih hname.table)

namespace Stmt

mutual

theorem recorded_check (s : Stmt) {table : SymbolTable} {before : List Symbol}
    (h : table.symbols = Symbol.firsts [] before) : Recorded before s.declaredSymbols (s.check table) := by
  cases s with
  | declare type names span =>
    rw [check, declaredSymbols, declarations, List.flatMap_singleton, Declaration.symbols]
    cases Ty.ofKeyword? type.keyword with
    | none => exact .of_unrelated h (.single rfl)
    | some ty => exact SymbolTable.recorded_declareAll ty span names h
  | expr e span => exact .of_unrelated h (Expr.typingErrors_unrelated e)
  | block body span => exact recorded_checkAll body h
  | ifElse condition yes no span =>
    have hyes := recorded_check yes h
    rw [check, declaredSymbols_ifElse]
    exact (hyes.after (Expr.conditionErrors_unrelated _ _ condition)).append (recorded_check no hyes.table)
  | whileLoop condition body span =>
    exact (recorded_check body h).after (Expr.conditionErrors_unrelated _ _ condition)
  | forLoop init condition update body span =>
    have hinit := optionErrors_unrelated (Expr.clauseErrors_unrelated table .initializer) init
    have hcondition := optionErrors_unrelated (Expr.conditionErrors_unrelated table .forLoop) condition
    have hupdate := optionErrors_unrelated (Expr.clauseErrors_unrelated table .update) update
    exact (recorded_check body h).after ((hinit.append hcondition).append hupdate)
  | read names span => exact .of_unrelated h (.flatMap fun name _ => SymbolTable.readErrors_unrelated span name)
  | write exprs fits span => exact .of_unrelated h (.flatMap fun e _ => Expr.writeErrors_unrelated e)
  | empty span => exact .of_unrelated h .nil

theorem recorded_checkAll (body : List Stmt) {table : SymbolTable} {before : List Symbol}
    (h : table.symbols = Symbol.firsts [] before) :
    Recorded before (declaredSymbolsAll body) (checkAll body table) := by
  cases body with
  | nil => exact .of_unrelated h .nil
  | cons s rest =>
    have hs := recorded_check s h
    rw [declaredSymbolsAll_cons]
    exact hs.append (recorded_checkAll rest hs.table)

end

end Stmt

namespace Program

/-- The table after programs were checked one after the other, whatever errors they had. -/
def tableAfter (programs : List Program) : SymbolTable :=
  programs.foldl (fun table program => (program.check table).1) .empty

theorem symbols_foldl_check (table : SymbolTable) (before : List Symbol) (programs : List Program)
    (h : table.symbols = Symbol.firsts [] before) :
    (programs.foldl (fun table program => (program.check table).1) table).symbols =
      Symbol.firsts [] (before ++ programs.flatMap declaredSymbols) := by
  induction programs generalizing table before with
  | nil => simpa using h
  | cons program rest ih =>
    rw [List.foldl_cons, List.flatMap_cons, ← List.append_assoc]
    exact ih _ _ (Stmt.recorded_checkAll program h).table

/-- The symbol table lists the first declaration of every name, in source order, and the number of names is its size.
This is so however many programs are checked and whatever errors they have. Each further occurrence of a name in a
declaration yields one error, in order, that points back to the first. If a program declares no new name, its check
leaves the table as it was. -/
theorem table_of_declarations (programs : List Program) :
    (tableAfter programs).symbols = Symbol.firsts [] (programs.flatMap declaredSymbols) ∧
    ((tableAfter programs).symbols.map Symbol.name).Nodup ∧
    (∀ name, (tableAfter programs).find? name = (programs.flatMap declaredSymbols).find? fun s => s.name = name) ∧
    (tableAfter programs).size = ((programs.flatMap declaredSymbols).map Symbol.name).dedup.length ∧
    ∀ program : Program,
      (program.check (tableAfter programs)).2.filter TypeError.isRedeclaration =
        Symbol.redeclarations (programs.flatMap declaredSymbols) program.declaredSymbols ∧
      ((∀ s ∈ program.declaredSymbols, s.name ∈ (programs.flatMap declaredSymbols).map Symbol.name) →
        (program.check (tableAfter programs)).1 = tableAfter programs) := by
  have hsymbols : (tableAfter programs).symbols = Symbol.firsts [] (programs.flatMap declaredSymbols) :=
    symbols_foldl_check .empty [] programs rfl
  refine ⟨hsymbols, ?_, fun name => ?_, ?_, fun program => ?_⟩
  · rw [hsymbols]
    exact Symbol.nodup_firsts [] _
  · rw [SymbolTable.find?, hsymbols, Symbol.find?_firsts rfl]
  · rw [SymbolTable.size, hsymbols, Symbol.length_firsts]
  · have hchecked := Stmt.recorded_checkAll program hsymbols
    refine ⟨hchecked.errors, fun hold => ?_⟩
    have hsame : (program.check (tableAfter programs)).1.symbols = (tableAfter programs).symbols := by
      refine hchecked.table.trans ((Symbol.firsts_append [] _ _).trans ?_)
      rw [List.nil_append, hsymbols]
      exact (congrArg _ (Symbol.firsts_eq_nil hold)).trans (List.append_nil _)
    exact congrArg SymbolTable.mk hsame

/-- `int a, b, a; if (a) float b; double c;` with a statement on each line. -/
def redeclaring : Program :=
  [.declare ⟨"int", .ofLine 1⟩ ["a", "b", "a"] (.ofLine 1),
    .ifElse (.var "a" (.ofLine 2)) (.declare ⟨"float", .ofLine 2⟩ ["b"] (.ofLine 2)) (.empty .unknown) (.ofLine 2),
    .declare ⟨"double", .ofLine 3⟩ ["c"] (.ofLine 3)]

/-- The condition and the keyword are errors too, but only the repeated names count. When the program is checked for a
second time, every name is repeated. -/
theorem table_of_declarations_redeclaring :
    (tableAfter [redeclaring]).symbols = [⟨"a", .int, .ofLine 1⟩, ⟨"b", .int, .ofLine 1⟩] ∧
    (redeclaring.check (tableAfter [])).2.filter TypeError.isRedeclaration =
      [.alreadyDeclared "a" (.ofLine 1) (.ofLine 1), .alreadyDeclared "b" (.ofLine 2) (.ofLine 1)] ∧
    (redeclaring.check (tableAfter [redeclaring])).1 = tableAfter [redeclaring] := by
  refine ⟨?_, ?_, ?_⟩
  · exact (table_of_declarations [redeclaring]).1.trans (by decide)
  · exact ((table_of_declarations []).2.2.2.2 redeclaring).1.trans (by decide)
  · exact ((table_of_declarations [redeclaring]).2.2.2.2 redeclaring).2 (by decide)

end Program

end StackMachine
