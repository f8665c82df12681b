import StackMachine.Proofs.Tracking

/-! The code of statements does what the statements do.

The proof is by recursion on the statement, with a rule for loops that is itself an induction on the fuel. A `while` loop
is a `for` loop without its first and last part, in evaluation and in code, so there is one rule. -/

namespace StackMachine

open Lowering Exec

namespace Stmt

mutual

/-- How many levels of evaluation a statement may take beyond the steps of its code. -/
def slack : Stmt → Nat
  | .block body _ => slackAll body + 1
  | .ifElse _ yes no _ => yes.slack + no.slack + 1
  | .whileLoop _ body _ | .forLoop _ _ _ body _ => body.slack + 1
  | .declare _ _ _ | .expr _ _ | .read _ _ | .write _ _ _ | .empty _ => 0

def slackAll : List Stmt → Nat
  | [] => 0
  | s :: rest => s.slack + slackAll rest + 1

end

variable {scope : Scope} {condition : Expr} {body : Stmt} {span : Span}

/-! ### `while` as `for` -/

theorem eval?_whileLoop (fuel : Nat) (w : World) :
    (whileLoop condition body span).eval? scope fuel w =
      (forLoop none (some condition) none body span).eval? scope fuel w := by
  induction fuel generalizing w with
  | zero => rfl
  | succ fuel ih =>
    have hloop : eval? scope fuel (whileLoop condition body span) =
        fun w => eval? scope fuel (forLoop none (some condition) none body span) w := funext ih
    rw [eval?, eval?, hloop]
    rfl

end Stmt

/-! ### Loops -/

namespace Image

variable {image : Image} {labels : Labels} {limit start : Nat} {s : Stack} {w : World} {table : SymbolTable}

/-- A test and the branch after it, which goes on or jumps. -/
theorem Holds.runs_exitUnless {e : Expr} {name : String} {line target : Nat} {code : Emitted}
    (h : image.Holds labels start (code.map Prod.fst)) (hcode : exitUnless table.typeOf e name line = .ok code)
    (hl : labels.lookup name = some target) (hw : w.store.Typed table) :
    image.Runs limit start ⟨s, w, limit⟩ (fun b => if b then start + code.length else target) (fun _ => s)
      (e.holds table.typeOf w) := by
  obtain ⟨l, hlowers, rfl⟩ := exitUnless_eq_ok hcode
  rw [List.length_append]
  exact (h.emitted_left.runs hlowers.all_straight (hlowers.follows hw s)).bind fun v w' _ => h.emitted_right.runs_fjmp hl

theorem Holds.runs_clauseCode {clause : Clause} {part : Option Expr} {code : Emitted}
    (h : image.Holds labels start (code.map Prod.fst)) (hcode : clauseCode table.typeOf clause part = .ok code)
    (hw : w.store.Typed table) :
    image.Runs limit start ⟨s, w, limit⟩ (fun _ => start + code.length) (fun _ => s)
      (Expr.evalOption table.typeOf part w) :=
  h.runs (over_clauseCode hcode).all (follows_clauseCode hcode hw)

section Loop

variable {condition update : Option Expr} {body : Stmt} {span : Span} {head bodyStart updateStart exit : Nat}

/-- The rule for loops. Whatever part comes first leads to the head of the loop, where a label stands; from there the
test leads into the body or out of the loop, and from the end of the body the last part leads to the head again. -/
theorem tracks_loop (hlabel : ∀ m, image.Leads 1 head m (head + 1) m)
    (htest : ∀ w, w.store.Typed table → image.Runs limit (head + 1) ⟨s, w, limit⟩
      (fun b => if b then bodyStart else exit) (fun _ => s) (condition.elim (pure true) (Expr.holds table.typeOf) w))
    (hbody : ∀ fuel w, w.store.Typed table →
      image.Tracks limit s bodyStart updateStart (fuel - body.slack) w (body.eval? table.typeOf fuel w))
    (hupdate : ∀ w, w.store.Typed table → image.Runs limit updateStart ⟨s, w, limit⟩ (fun _ => head) (fun _ => s)
      (Expr.evalOption table.typeOf update w))
    {init : Option Expr} (ht : (Stmt.forLoop init condition update body span).WellTyped table)
    (hinit : ∀ w, w.store.Typed table → image.Runs limit start ⟨s, w, limit⟩ (fun _ => head) (fun _ => s)
      (Expr.evalOption table.typeOf init w)) (fuel : Nat) (hw : w.store.Typed table) :
    image.Tracks limit s start exit (fuel - (body.slack + 1)) w
      ((Stmt.forLoop init condition update body span).eval? table.typeOf fuel w) := by
  obtain ⟨typedInit, typedTest, typedUpdate, typedBody⟩ := ht
  induction fuel generalizing init start w with
  | zero =>
    rw [Nat.zero_sub]
    exact .unseen
  | succ fuel ih =>
    refine (hinit w hw).andThen fun _ w₁ hfirst => ?_
    have hw₁ := (Expr.sound_evalOption (fun e he => (typedInit e he).2) hw).typed hfirst
    -- The step over the label makes up for the level of evaluation that each round takes.
    have hround : fuel + 1 - (body.slack + 1) ≤ 1 + (fuel - (body.slack + 1)) := by omega
    refine Tracks.mono ((hlabel _).tracks ((htest w₁ hw₁).andThen fun b w₂ htested => ?_)) hround
    have hw₂ := (Expr.sound_test typedTest hw₁).typed htested
    cases b with
    | true =>
      have hinner : fuel - (body.slack + 1) ≤ fuel - body.slack := by omega
      refine ((hbody fuel w₂ hw₂).mono hinner).andThen fun w₃ hevaluated => ?_
      have hw₃ := ((Stmt.sound_eval? fuel).1 body w₂ _ typedBody hw₂ hevaluated).typed rfl
      exact ih hupdate hw₃ typedUpdate
    | false => exact .stay

/-- The rule applied to the code of a loop. -/
theorem Holds.tracks_loop {init : Option Expr} {code initCode test bodyCode updateCode : Emitted} {n line : Nat}
    (h : image.Holds labels start (code.map Prod.fst))
    (hcode : code = initCode ++ [(.label (labelName n), line)] ++ test ++ bodyCode ++ updateCode
      ++ [(.jmp (labelName n), line), (.label (labelName (n + 1)), line)])
    (hinit : clauseCode table.typeOf .initializer init = .ok initCode)
    (htest : (condition.elim (.ok []) fun e => exitUnless table.typeOf e (labelName (n + 1)) line) = .ok test)
    (hupdate : clauseCode table.typeOf .update update = .ok updateCode)
    (hbody : ∀ {start}, image.Holds labels start (bodyCode.map Prod.fst) → ∀ fuel w, w.store.Typed table →
      image.Tracks limit s start (start + bodyCode.length) (fuel - body.slack) w (body.eval? table.typeOf fuel w))
    (ht : (Stmt.forLoop init condition update body span).WellTyped table) (fuel : Nat) (hw : w.store.Typed table) :
    image.Tracks limit s start (start + code.length) (fuel - (body.slack + 1)) w
      ((Stmt.forLoop init condition update body span).eval? table.typeOf fuel w) := by
  have hexit : start + code.length =
      start + initCode.length + 1 + test.length + bodyCode.length + updateCode.length + 1 + 1 := by
    simp only [hcode, List.length_append, List.length_cons, List.length_nil]
    omega
  simp only [hcode, List.append_assoc] at h
  have hhead := h.emitted_right
  have htested := hhead.emitted_right
  have hinner := htested.emitted_right
  have hlast := hinner.emitted_right
  have hback := hlast.emitted_right
  have hstart : labels.lookup (labelName n) = some (start + initCode.length) := hhead.defined rfl
  have hend : labels.lookup (labelName (n + 1)) = some (start + initCode.length + 1 + test.length + bodyCode.length +
      updateCode.length + 1) := hback.tail.defined rfl
  rw [hexit]
  refine Image.tracks_loop hhead.leads_label ?_ (hbody hinner.emitted_left) ?_ ht ?_ fuel hw
  · intro w hw
    cases condition with
    | none =>
      cases htest
      exact Or.inr ⟨0, .refl _ _⟩
    | some e =>
      refine (htested.emitted_left.runs_exitUnless htest hend hw).leads fun b w => ?_
      cases b with
      | true => exact ⟨0, .refl _ _⟩
      | false => exact ⟨1, hback.tail.leads_label _⟩
  · intro w hw
    exact (hlast.emitted_left.runs_clauseCode hupdate hw).leads fun _ w => ⟨1, hback.leads_jmp hstart _⟩
  · intro w hw
    exact h.emitted_left.runs_clauseCode hinit hw

end Loop

/-! ### Statements -/

/-- The code of a choice between two evaluations. -/
theorem Holds.tracks_choice {condition : Expr} {code test yesCode noCode : Emitted} {n line least : Nat}
    {yes no : World → Evaluated} (h : image.Holds labels start (code.map Prod.fst))
    (hcode : code = test ++ yesCode ++ [(.jmp (labelName (n + 1)), line), (.label (labelName n), line)] ++ noCode
      ++ [(.label (labelName (n + 1)), line)])
    (htest : exitUnless table.typeOf condition (labelName n) line = .ok test)
    (hyes : ∀ {start}, image.Holds labels start (yesCode.map Prod.fst) → ∀ w, w.store.Typed table →
      image.Tracks limit s start (start + yesCode.length) least w (yes w))
    (hno : ∀ {start}, image.Holds labels start (noCode.map Prod.fst) → ∀ w, w.store.Typed table →
      image.Tracks limit s start (start + noCode.length) least w (no w))
    (ht : condition.Typed table .bool) (hw : w.store.Typed table) :
    image.Tracks limit s start (start + code.length) least w
      (Act.andThen (condition.holds table.typeOf) w fun b w => if b then yes w else no w) := by
  have hexit : start + code.length = start + test.length + yesCode.length + 1 + 1 + noCode.length + 1 := by
    simp only [hcode, List.length_append, List.length_cons, List.length_nil]
    omega
  simp only [hcode, List.append_assoc] at h
  have hthen := h.emitted_right
  have hmiddle := hthen.emitted_right
  have helse := hmiddle.emitted_right
  have hlast := helse.emitted_right
  have htarget : labels.lookup (labelName n) = some (start + test.length + yesCode.length + 1) :=
    hmiddle.tail.defined rfl
  have hend : labels.lookup (labelName (n + 1)) = some (start + test.length + yesCode.length + 1 + 1 + noCode.length) :=
    hlast.defined rfl
  rw [hexit]
  refine (h.emitted_left.runs_exitUnless htest htarget hw).andThen fun b w' htested => ?_
  have hw' := (Expr.sound_holds ht hw).typed htested
  cases b with
  | true =>
    exact (hyes hthen.emitted_left w' hw').leads fun w =>
      ⟨1 + 1, (hmiddle.leads_jmp hend _).trans (hlast.leads_label _)⟩
  | false =>
    refine ((hmiddle.tail.leads_label _).tracks (Tracks.leads (hno helse.emitted_left w' hw') fun w => ?_)).mono ?_
    · exact ⟨1, hlast.leads_label _⟩
    · exact Nat.le_add_left least 1

theorem Holds.tracks_straight {code : Emitted} {r : EStateM.Result Fault World Unit} {least : Nat}
    (h : image.Holds labels start (code.map Prod.fst)) (hcode : code.All Instruction.Straight)
    (hf : Follows limit r (fun _ => s) (straight (code.map Prod.fst) ⟨s, w, limit⟩)) :
    image.Tracks limit s start (start + code.length) least w (some r) :=
  h.runs hcode hf

mutual

theorem tracks_lower (stmt : Stmt) {n n' start : Nat} {code : Emitted}
    (hcode : stmt.lower table.typeOf n = .ok (code, n')) (h : image.Holds labels start (code.map Prod.fst))
    (ht : stmt.WellTyped table) (fuel : Nat) (w : World) (hw : w.store.Typed table) :
    image.Tracks limit s start (start + code.length) (fuel - stmt.slack) w (stmt.eval? table.typeOf fuel w) := by
  cases fuel with
  | zero =>
    rw [Nat.zero_sub, Stmt.eval?]
    exact .unseen
  | succ fuel =>
    cases stmt with
    | declare type names span =>
      obtain ⟨ty, kind, literal, hty, hkind, hliteral, rfl, -⟩ := Stmt.lower_declare hcode
      obtain ⟨v, hv, rfl, rfl⟩ := Value.default?_of_literal hkind hliteral
      rw [Stmt.eval?, hty, Option.bind_some, hv]
      exact h.tracks_straight (over_defaults v).all (follows_defaults v span.line names)
    | expr e span =>
      have hcode := (Stmt.lower_expr hcode).1
      exact h.tracks_straight (over_discard hcode).all (follows_discard hcode hw)
    | block body span =>
      refine (tracks_lowerAll body hcode h ht fuel w hw).mono ?_
      rw [Stmt.slack]
      omega
    | ifElse condition yes no span =>
      obtain ⟨test, yesCode, n₁, noCode, htest, hyes, hno, rfl⟩ := Stmt.lower_ifElse hcode
      have hle : fuel + 1 - (Stmt.ifElse condition yes no span).slack ≤ fuel - yes.slack ∧
          fuel + 1 - (Stmt.ifElse condition yes no span).slack ≤ fuel - no.slack := by
        rw [Stmt.slack]
        omega
      refine h.tracks_choice rfl htest (fun h w hw => ?_) (fun h w hw => ?_) ht.1 hw
      · exact (tracks_lower yes hyes h ht.2.1 fuel w hw).mono hle.1
      · exact (tracks_lower no hno h ht.2.2 fuel w hw).mono hle.2
    | whileLoop condition body span =>
      obtain ⟨test, bodyCode, htest, hbody, rfl⟩ := Stmt.lower_whileLoop hcode
      have ht' : (Stmt.forLoop none (some condition) none body span).WellTyped table :=
        ⟨fun _ he => (by cases he), fun _ he => (by cases he; exact ht.1), fun _ he => (by cases he), ht.2⟩
      have htest : ((some condition).elim (.ok []) fun e =>
          exitUnless table.typeOf e (labelName (n + 1)) span.line) = .ok test := htest
      rw [Stmt.eval?_whileLoop]
      refine h.tracks_loop ?_ rfl htest rfl (fun h => tracks_lower body hbody h ht.2) ht' (fuel + 1) hw
      rw [List.append_nil]
      rfl
    | forLoop init condition update body span =>
      obtain ⟨initCode, test, bodyCode, updateCode, hinit, htest, hbody, hupdate, rfl⟩ := Stmt.lower_forLoop hcode
      exact h.tracks_loop rfl hinit htest hupdate (fun h => tracks_lower body hbody h ht.2.2.2) ht (fuel + 1) hw
    | read names span =>
      have hcode := (Stmt.lower_read hcode).1
      exact h.tracks_straight (over_reads hcode).all (follows_reads hcode hw)
    | write exprs fits span =>
      obtain ⟨list, hlist, rfl, -⟩ := Stmt.lower_write hcode
      have hstraight : Emitted.All Instruction.Straight (list ++ [(.print exprs.length, span.line)]) :=
        Emitted.all_append.mpr ⟨(over_values hlist).all, Emitted.all_cons.mpr ⟨.print fits, Emitted.all_nil.mpr trivial⟩⟩
      rw [Stmt.eval?, Act.andThen_some]
      refine h.tracks_straight hstraight ?_
      rw [List.map_append]
      exact follows_write hlist fits hw
    | empty span =>
      cases hcode
      exact .stay

theorem tracks_lowerAll (body : List Stmt) {n n' start : Nat} {code : Emitted}
    (hcode : Stmt.lowerAll table.typeOf body n = .ok (code, n')) (h : image.Holds labels start (code.map Prod.fst))
    (ht : Stmt.AllWellTyped table body) (fuel : Nat) (w : World) (hw : w.store.Typed table) :
    image.Tracks limit s start (start + code.length) (fuel - Stmt.slackAll body) w
      (Stmt.evalAll? table.typeOf fuel body w) := by
  cases fuel with
  | zero =>
    rw [Nat.zero_sub, Stmt.evalAll?]
    exact .unseen
  | succ fuel =>
    cases body with
    | nil =>
      cases hcode
      exact .stay
    | cons stmt rest =>
      obtain ⟨first, n₁, restCode, hfirst, hrest, rfl⟩ := Stmt.lowerAll_cons hcode
      rw [List.length_append, ← Nat.add_assoc]
      have hle : fuel + 1 - Stmt.slackAll (stmt :: rest) ≤ fuel - stmt.slack := by
        rw [Stmt.slackAll]
        omega
      refine ((tracks_lower stmt hfirst h.emitted_left ht.1 fuel w hw).mono hle).andThen fun w' hw' => ?_
      have hw' := ((Stmt.sound_eval? fuel).1 stmt w _ ht.1 hw hw').typed rfl
      refine (tracks_lowerAll rest hrest h.emitted_right ht.2 fuel w' hw').mono ?_
      rw [Stmt.slackAll]
      omega

end

end Image

end StackMachine
