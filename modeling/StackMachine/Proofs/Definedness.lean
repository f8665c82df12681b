import StackMachine.Proofs.Declarations
import StackMachine.Proofs.Soundness

/-! Variables that may lack a value.

A declaration gives its variables their first values when it is executed. A declaration that lies inside a branch or the
body of a loop may not be executed, although the check counts it as made from there on. So of the variables in the
table, all but those of guarded declarations hold a value, and no other variable can be found undefined. -/

namespace StackMachine

/-- A variable that some declaration of a list names. -/
def NamedIn (declarations : List Declaration) (name : String) : Prop :=
  ∃ d ∈ declarations, name ∈ d.names

/-- Every variable of a table holds a value, those of guarded declarations aside. -/
def World.Covers (guarded : List Declaration) (table : SymbolTable) (w : World) : Prop :=
  ∀ name ty, table.HasType name ty → NamedIn guarded name ∨ ∃ v, w.store.get? name = some v

/-- If a variable is undefined, its declaration is guarded. -/
def Fault.Explained (guarded : List Declaration) : Fault → Prop
  | .undefinedVariable name => NamedIn guarded name
  | _ => True

/-- An action ends with the variables of a table covered, or with a fault that is explained. -/
def Defined {α : Type} (guarded : List Declaration) (table : SymbolTable) : EStateM.Result Fault World α → Prop :=
  Ends (Fault.Explained guarded) fun _ w => w.Covers guarded table

variable {guarded : List Declaration} {table larger : SymbolTable} {scope : Scope} {w : World} {name : String}

theorem World.Covers.mono (hx : larger.Extends table) (h : w.Covers guarded larger) : w.Covers guarded table :=
  fun name ty hty => h name ty (hty.mono hx)

theorem World.Covers.insert (h : w.Covers guarded table) (name : String) (v : Value) :
    World.Covers guarded table { w with store := w.store.insert name v } := by
  intro other ty hty
  refine (h other ty hty).imp_right ?_
  rintro ⟨v', hv'⟩
  dsimp only
  rw [Store.get?_insert]
  split
  · exact ⟨v, rfl⟩
  · exact ⟨v', hv'⟩

/-! ### Actions -/

theorem Arithmetic.fault_of_evaluate {op : Arithmetic} {operands : Value × Value} {fault : Fault}
    (h : op.evaluate operands = some (.error fault)) : fault = .divisionByZero := by
  unfold evaluate at h
  split at h
  · rename_i a b
    have hint : op.apply .int a b = .error fault := Except.map_eq_error.mp (Option.some.inj h)
    exact fault_of_apply hint
  · rename_i a b
    have hfloat : op.apply .float a b = .error fault := Except.map_eq_error.mp (Option.some.inj h)
    exact fault_of_apply hfloat
  · cases h

theorem Relation.evaluate_ne_error {relation : Relation} {operands : Value × Value} {fault : Fault} :
    relation.evaluate operands ≠ some (.error fault) := by
  unfold evaluate
  split <;> exact nofun

theorem BinaryOp.fault_of_evaluate {op : BinaryOp} {a b : Value} {fault : Fault}
    (h : op.evaluate a b = some (.error fault)) : fault = .divisionByZero := by
  cases op with
  | add | sub | mul | div => exact Arithmetic.fault_of_evaluate h
  | lt | le | gt | ge => exact absurd h Relation.evaluate_ne_error
  | mod =>
    simp only [evaluate] at h
    split at h
    · split at h <;> cases h
      rfl
    · cases h
  | concat =>
    simp only [evaluate] at h
    split at h <;> cases h
  | eq | ne =>
    obtain ⟨_, -, h⟩ := Option.map_eq_some_iff.mp h
    cases h

namespace World

theorem defined_fetch (hw : w.Covers guarded table) {ty : Ty} (hty : table.HasType name ty) :
    Defined guarded table (fetch name w) := by
  unfold fetch
  split
  · exact hw
  · rename_i hnone
    rcases hw name ty hty with h | ⟨v, hv⟩
    · exact h
    · rw [hnone] at hv
      cases hv

theorem defined_save (hw : w.Covers guarded table) (name : String) (v : Value) :
    Defined guarded table (save name v w) :=
  hw.insert name v

theorem defined_write (hw : w.Covers guarded table) (text : String) : Defined guarded table (write text w) := by
  obtain ⟨store, input, sink⟩ := w
  unfold write
  dsimp only
  cases Sink.write text sink with
  | ok u sink' => exact hw
  | error e sink' => trivial

theorem defined_read (hw : w.Covers guarded table) (kind : Kind) : Defined guarded table (read kind w) := by
  have hline : Defined guarded table (readLine w) := by
    unfold readLine
    split
    · trivial
    · dsimp only
      split
      · exact hw
      · trivial
  refine hline.bind fun line w' hw' => ?_
  cases Value.ofLine? kind line with
  | some v => exact hw'
  | none => trivial

end World

/-! ### Expressions -/

namespace Expr

variable {e : Expr} {ty : Ty}

theorem defined_result (hw : w.Covers guarded table) {opcode : Opcode} {operand : Value} {applied : Applied}
    (h : ∀ fault, applied = some (.error fault) → fault = .divisionByZero) :
    Defined guarded table (result opcode operand applied w) := by
  rcases applied with _ | (fault | v)
  · trivial
  · obtain rfl := h fault rfl
    trivial
  · exact hw

theorem defined_eval (h : e.Typed table ty) (hw : w.Covers guarded table) : Defined guarded table (e.eval scope w) := by
  induction h generalizing w with
  | int | float | string | bool => exact hw
  | var span declared => exact World.defined_fetch hw declared
  | binary span _ _ _ ihl ihr =>
    refine (ihl hw).bind fun a w₁ hw₁ => (ihr hw₁).bind fun b w₂ hw₂ => ?_
    exact defined_result hw₂ fun fault => BinaryOp.fault_of_evaluate
  | @unary op _ _ _ span _ _ ih =>
    refine (ih hw).bind fun a w₁ hw₁ => defined_result hw₁ fun fault h => ?_
    cases op <;> cases a <;> cases h
  | @logical op _ _ span _ _ ihl ihr =>
    refine (ihl hw).bind fun a w₁ hw₁ => (ihr hw₁).bind fun b w₂ hw₂ => defined_result hw₂ fun fault h => ?_
    cases op <;> cases a <;> cases b <;> cases h
  | group span _ ih => exact ih hw
  | assign span _ _ _ ih =>
    refine (ih hw).bind fun v w₁ hw₁ => ?_
    exact (World.defined_save hw₁ _ _).bind fun _ w₂ hw₂ => hw₂

theorem defined_holds (h : e.Typed table ty) (hw : w.Covers guarded table) : Defined guarded table (e.holds scope w) := by
  refine (defined_eval h hw).bind fun v w₁ hw₁ => ?_
  cases v.truthy? with
  | some b => exact hw₁
  | none => trivial

theorem defined_evalAll {exprs : List Expr} (h : exprs.flatMap (writeErrors table) = []) (hw : w.Covers guarded table) :
    Defined guarded table (evalAll scope exprs w) := by
  induction exprs generalizing w with
  | nil => exact hw
  | cons e rest ih =>
    obtain ⟨he, hrest⟩ := List.append_eq_nil_iff.mp h
    obtain ⟨ty, hty, -⟩ := writeErrors_eq_nil he
    refine (defined_eval hty hw).bind fun v w₁ hw₁ => ?_
    exact (ih hrest hw₁).bind fun values w₂ hw₂ => hw₂

theorem defined_clause {clause : Clause} {part : Option Expr}
    (h : optionErrors (clauseErrors table clause) part = []) (hw : w.Covers guarded table) :
    Defined guarded table (evalOption scope part w) := by
  cases part with
  | none => exact hw
  | some e =>
    obtain ⟨-, ty, hty⟩ := clauseErrors_eq_nil h
    exact (defined_eval hty hw).bind fun v w₁ hw₁ => hw₁

theorem defined_test {place : Conditional} {condition : Option Expr}
    (h : optionErrors (conditionErrors table place) condition = []) (hw : w.Covers guarded table) :
    Defined guarded table (condition.elim (pure true) (holds scope) w) := by
  cases condition with
  | none => exact hw
  | some e => exact defined_holds (conditionErrors_eq_nil h) hw

end Expr

theorem World.defined_readAll {names : List String} {span : Span} (hw : w.Covers guarded table) :
    Defined guarded table (readAll scope span names w) := by
  induction names generalizing w with
  | nil => exact hw
  | cons name rest ih =>
    rw [readAll]
    cases scope name span with
    | error => exact ih hw
    | ok ty =>
      dsimp only
      cases Kind.ofTy? ty with
      | none => exact ih hw
      | some kind =>
        refine (defined_read hw kind).bind fun v w₁ hw₁ => ?_
        exact (defined_save hw₁ name v).bind fun _ w₂ hw₂ => ih hw₂

/-- After a declaration its variables hold values, and the others hold what they held. -/
theorem World.saveAll_eq_ok (v : Value) (names : List String) (w : World) :
    ∃ w', saveAll v names w = .ok () w' ∧ (∀ name ∈ names, ∃ v, w'.store.get? name = some v) ∧
      ∀ name v, w.store.get? name = some v → ∃ v, w'.store.get? name = some v := by
  induction names generalizing w with
  | nil => exact ⟨w, rfl, nofun, fun name v hv => ⟨v, hv⟩⟩
  | cons first rest ih =>
    obtain ⟨w', heq, hnames, hothers⟩ := ih { w with store := w.store.insert first v }
    have hkept : ∀ name u, w.store.get? name = some u → ∃ u, w'.store.get? name = some u := by
      intro name u hu
      by_cases hn : name = first
      · exact hothers name v (by rw [Store.get?_insert, if_pos hn])
      · exact hothers name u (by rw [Store.get?_insert, if_neg hn, hu])
    refine ⟨w', heq, fun name hn => ?_, hkept⟩
    rcases List.mem_cons.mp hn with rfl | hn
    · exact hothers name v (by rw [Store.get?_insert, if_pos rfl])
    · exact hnames name hn

/-! ### Statements -/

theorem Declares.namedIn {ds : List Declaration} {ty : Ty} (h : Declares ds name ty) (hs : ds ⊆ guarded) :
    NamedIn guarded name := by
  obtain ⟨d, hd, hn, -⟩ := h
  exact ⟨d, hs hd, hn⟩

/-- What guarded declarations add to the table need not be covered. -/
theorem World.Covers.check (h : w.Covers guarded table) {s : Stmt} (hs : s.declarations ⊆ guarded) :
    w.Covers guarded (s.check table).1 := by
  intro name ty hty
  rcases Stmt.hasType_of_check s hty with hty | hd
  · exact h name ty hty
  · exact Or.inl (hd.namedIn hs)

theorem World.defined_declare {ty : Ty} {span : Span} {names : List String} (hw : w.Covers guarded table) (v : Value) :
    Defined guarded (table.declareAll ty span names).1 (World.saveAll v names w) := by
  obtain ⟨w', heq, hnames, hothers⟩ := World.saveAll_eq_ok v names w
  rw [heq]
  intro name ty' hty
  rcases hty.of_declareAll with hty | ⟨hn, -⟩
  · exact (hw name ty' hty).imp_right fun ⟨u, hu⟩ => hothers name u hu
  · exact Or.inr (hnames name hn)

/-- The two clauses of a loop are held to the same rule. -/
theorem Expr.clauseErrors_eq_nil_of {clause clause' : Clause} {part : Option Expr}
    (h : optionErrors (clauseErrors table clause) part = []) : optionErrors (clauseErrors table clause') part = [] := by
  cases part with
  | none => rfl
  | some e =>
    obtain ⟨hassign, ty, hty⟩ := clauseErrors_eq_nil h
    rw [optionErrors, clauseErrors, if_pos hassign, check_eq_ok_iff.mpr hty]
    rfl

namespace Stmt

/-- By induction on the fuel, for statements and lists of them together, and for any table that the check may start from.
A loop goes on with the variables of its body in the table, some of which it may leave without value again. -/
theorem defined_eval? (fuel : Nat) :
    (∀ (s : Stmt) (table : SymbolTable) (w : World) result, (s.check table).2 = [] →
      (∀ d ∈ s.declarations, d.isFile = false) → s.guardedDeclarations ⊆ guarded → w.Covers guarded table →
      s.eval? scope fuel w = some result → Defined guarded (s.check table).1 result) ∧
    (∀ (body : List Stmt) (table : SymbolTable) (w : World) result, (checkAll body table).2 = [] →
      (∀ d ∈ declarationsAll body, d.isFile = false) → guardedDeclarationsAll body ⊆ guarded → w.Covers guarded table →
      evalAll? scope fuel body w = some result → Defined guarded (checkAll body table).1 result) := by
  induction fuel with
  | zero => exact ⟨fun _ _ _ _ _ _ _ _ he => (by cases he), fun _ _ _ _ _ _ _ _ he => (by cases he)⟩
  | succ fuel ih =>
    obtain ⟨ih, ihAll⟩ := ih
    refine ⟨fun s table w result h hfile hguarded hw he => ?_, fun body table w result h hfile hguarded hw he => ?_⟩
    · cases s with
      | declare type names span =>
        rw [check] at h ⊢
        rw [eval?] at he
        cases hty : Ty.ofKeyword? type.keyword with
        | none =>
          rw [hty] at h
          cases h
        | some ty =>
          rw [hty, Option.bind_some] at he
          cases hd : Value.default? ty with
          | none =>
            -- Only a file has no default.
            have hnot := hfile _ (List.mem_singleton_self _)
            cases ty <;> cases hd
            rw [Declaration.isFile_iff.mpr hty] at hnot
            cases hnot
          | some v =>
            rw [hd] at he
            cases he
            exact World.defined_declare hw v
      | expr e span =>
        obtain ⟨ty, hty⟩ := Expr.typingErrors_eq_nil h
        cases he
        exact (Expr.defined_eval hty hw).bind fun _ w' hw' => hw'
      | block body span => exact ihAll body table w result h hfile hguarded hw he
      | ifElse condition yes no span =>
        obtain ⟨h, hno⟩ := List.append_eq_nil_iff.mp h
        obtain ⟨hcondition, hyes⟩ := List.append_eq_nil_iff.mp h
        obtain ⟨hyesFile, hnoFile⟩ := List.forall_mem_append.mp hfile
        obtain ⟨hyesGuarded, hnoGuarded⟩ := List.append_subset.mp hguarded
        have hyesInner := List.Subset.trans (guardedDeclarations_subset yes) hyesGuarded
        have hnoInner := List.Subset.trans (guardedDeclarations_subset no) hnoGuarded
        have htyped := Expr.conditionErrors_eq_nil hcondition
        refine Ends.act_andThen he (Expr.defined_holds htyped hw) fun b w' hw' he => ?_
        cases b with
        | true =>
          have hdefined := ih yes table w' result hyes hyesFile hyesInner hw' he
          cases result with
          | ok u w'' => exact World.Covers.check hdefined hnoGuarded
          | error fault w'' => exact hdefined
        | false =>
          exact ih no _ w' result hno hnoFile hnoInner (hw'.check hyesGuarded) he
      | whileLoop condition body span =>
        obtain ⟨hcondition, hbody⟩ := List.append_eq_nil_iff.mp h
        have htyped := Expr.conditionErrors_eq_nil hcondition
        have hinner := List.Subset.trans (guardedDeclarations_subset body) hguarded
        refine Ends.act_andThen he (Expr.defined_holds htyped hw) fun b w' hw' he => ?_
        cases b with
        | true =>
          refine Ends.evaluated_andThen he (fun r => ih body table w' r hbody hfile hinner hw') fun w'' hw'' he => ?_
          exact ih _ table w'' result h hfile hguarded (hw''.mono (extends_check body table)) he
        | false =>
          cases he
          exact hw'.check hguarded
      | forLoop init condition update body span =>
        obtain ⟨hhead, hbody⟩ := List.append_eq_nil_iff.mp h
        obtain ⟨hhead, hupdate⟩ := List.append_eq_nil_iff.mp hhead
        obtain ⟨hinit, hcondition⟩ := List.append_eq_nil_iff.mp hhead
        have hinner := List.Subset.trans (guardedDeclarations_subset body) hguarded
        have hagain : ((forLoop update condition update body span).check table).2 = [] := by
          rw [check, Expr.clauseErrors_eq_nil_of hupdate, hcondition, hupdate]
          exact hbody
        refine Ends.act_andThen he (Expr.defined_clause hinit hw) fun _ w' hw' he => ?_
        refine Ends.act_andThen he (Expr.defined_test hcondition hw') fun b w' hw' he => ?_
        cases b with
        | true =>
          refine Ends.evaluated_andThen he (fun r => ih body table w' r hbody hfile hinner hw') fun w'' hw'' he => ?_
          have hw'' := hw''.mono (extends_check body table)
          exact ih (.forLoop update condition update body span) table w'' result hagain hfile hguarded hw'' he
        | false =>
          cases he
          exact hw'.check hguarded
      | read names span =>
        cases he
        exact World.defined_readAll hw
      | write exprs fits span =>
        refine Ends.act_andThen he (Expr.defined_evalAll h hw) fun values w' hw' he => ?_
        cases he
        exact World.defined_write hw' _
      | empty span =>
        cases he
        exact hw
    · cases body with
      | nil =>
        cases he
        exact hw
      | cons s rest =>
        obtain ⟨hs, hrest⟩ := List.append_eq_nil_iff.mp h
        obtain ⟨hsFile, hrestFile⟩ := List.forall_mem_append.mp hfile
        obtain ⟨hsGuarded, hrestGuarded⟩ := List.append_subset.mp hguarded
        refine Ends.evaluated_andThen he (fun r => ih s table w r hs hsFile hsGuarded hw) fun w' hw' he => ?_
        exact ihAll rest _ w' result hrest hrestFile hrestGuarded hw' he

end Stmt

end StackMachine
