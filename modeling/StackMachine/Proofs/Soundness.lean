import StackMachine.Proofs.Checking
import StackMachine.Proofs.Effects
import StackMachine.Proofs.Evaluation
import StackMachine.Proofs.Operators

/-! Evaluation keeps types.

If every variable holds a value of its type, a typed expression gives a value of its type, a well-typed statement leaves
such variables again, and the faults that can come up are not about types. -/

namespace StackMachine

/-- Every variable holds a value of its type, if it holds one. -/
def Store.Typed (table : SymbolTable) (store : Store) : Prop :=
  ∀ name v ty, store.get? name = some v → table.HasType name ty → Kind.ofTy? ty = some v.kind

/-- The faults that evaluation may meet when all types are in order. -/
def Fault.OfEvaluation : Fault → Prop
  | .undefinedVariable _ | .divisionByZero | .invalidInput _ _ | .endOfInput | .io _ => True
  | _ => False

/-- An action ends with a proper result and typed variables, or with a fault that has nothing to do with types. -/
def Sound {α : Type} (table : SymbolTable) (proper : α → Prop) : EStateM.Result Fault World α → Prop :=
  Ends Fault.OfEvaluation fun a w => proper a ∧ w.store.Typed table

variable {table : SymbolTable} {w : World} {α β : Type} {proper : α → Prop} {proper' : β → Prop}

theorem Store.Typed.empty (table : SymbolTable) : Store.empty.Typed table := by
  intro name v ty hv
  cases hv

theorem Store.Typed.insert {store : Store} {name : String} {v : Value} {ty : Ty} (h : store.Typed table)
    (hty : table.HasType name ty) (hv : Kind.ofTy? ty = some v.kind) : (store.insert name v).Typed table := by
  intro other v' ty' hv' hty'
  rw [Store.get?_insert] at hv'
  split at hv'
  · rename_i heq
    cases hv'
    subst heq
    exact hty.unique hty' ▸ hv
  · exact h other v' ty' hv' hty'

theorem Sound.bind {x : Act α} {f : α → Act β} (h : Sound table proper (x w))
    (hf : ∀ a w', proper a → w'.store.Typed table → Sound table proper' (f a w')) :
    Sound table proper' ((x >>= f) w) :=
  Ends.bind h fun a w' ha => hf a w' ha.1 ha.2

theorem Sound.typed {a : α} {w' : World} {r : EStateM.Result Fault World α} (h : Sound table proper r) (hr : r = .ok a w') :
    w'.store.Typed table := by
  subst hr
  exact h.2

/-! ### Actions on the world -/

namespace World

variable {name : String} {ty : Ty} {kind : Kind} {v : Value}

theorem sound_fetch (hw : w.store.Typed table) (hty : table.HasType name ty) :
    Sound table (fun v => Kind.ofTy? ty = some v.kind) (fetch name w) := by
  unfold fetch
  split
  · rename_i v hv
    exact ⟨hw name v ty hv hty, hw⟩
  · trivial

theorem sound_save (hw : w.store.Typed table) (hty : table.HasType name ty) (hv : Kind.ofTy? ty = some v.kind) :
    Sound table (fun _ => True) (save name v w) :=
  ⟨trivial, hw.insert hty hv⟩

theorem sound_write (hw : w.store.Typed table) (text : String) : Sound table (fun _ => True) (write text w) := by
  obtain ⟨store, input, sink⟩ := w
  unfold write
  dsimp only
  cases Sink.write text sink with
  | ok u sink' => exact ⟨trivial, hw⟩
  | error e sink' => trivial

theorem sound_readLine (hw : w.store.Typed table) : Sound table (fun _ => True) (readLine w) := by
  unfold readLine
  split
  · trivial
  · dsimp only
    split
    · exact ⟨trivial, hw⟩
    · trivial

end World

theorem Value.kind_of_ofLine? {kind : Kind} {line : String} {v : Value} (h : Value.ofLine? kind line = some v) :
    v.kind = kind := by
  cases kind with
  | int | float =>
    obtain ⟨_, -, rfl⟩ := Option.map_eq_some_iff.mp h
    rfl
  | string =>
    cases h
    rfl
  | bool =>
    unfold Value.ofLine? at h
    dsimp only at h
    split at h
    · cases h
      rfl
    · split at h
      · cases h
        rfl
      · cases h

theorem World.sound_read (hw : w.store.Typed table) (kind : Kind) :
    Sound table (fun v => v.kind = kind) (World.read kind w) := by
  refine (sound_readLine hw).bind fun line w' _ hw' => ?_
  cases hv : Value.ofLine? kind line with
  | some v => exact ⟨Value.kind_of_ofLine? hv, hw'⟩
  | none => trivial

/-! ### Operators -/

theorem Value.ofTy?_kind_of (kind : Kind) (data : kind.Carrier) :
    Kind.ofTy? kind.toTy = some (Value.of kind data).kind := by
  rw [Kind.ofTy?_toTy, Value.kind_of]

theorem Instruction.Computes.sound {i : Instruction} {a b operand : Value} {ty : Ty} {applied : Applied} {opcode : Opcode}
    (h : i.Computes a b ty applied) (hw : w.store.Typed table) :
    Sound table (fun v => Kind.ofTy? ty = some v.kind) (Expr.result opcode operand applied w) := by
  obtain ⟨operation, x, y, -, -, -, rfl, rfl⟩ := h
  cases hr : operation.apply x y with
  | ok data => exact ⟨Value.ofTy?_kind_of _ data, hw⟩
  | error fault =>
    obtain rfl := Binary.fault_of_apply hr
    trivial

namespace Expr

variable {e : Expr} {ty : Ty}

theorem kind_convert {v : Value} {source target : Ty} (hv : Kind.ofTy? source = some v.kind)
    (fits : source.assignableTo target = true) : Kind.ofTy? target = some (v.convert target).kind := by
  obtain rfl := Kind.ofTy?_eq_some_iff.mp hv
  cases v <;> cases target <;> first | rfl | cases fits

theorem sound_eval (h : e.Typed table ty) (hw : w.store.Typed table) :
    Sound table (fun v => Kind.ofTy? ty = some v.kind) (e.eval table.typeOf w) := by
  induction h generalizing w with
  | int | float | string | bool => exact ⟨rfl, hw⟩
  | var span declared => exact World.sound_fetch hw declared
  | @binary op left right leftType rightType ty span _ _ result ihl ihr =>
    refine (ihl hw).bind fun a w₁ ha hw₁ => (ihr hw₁).bind fun b w₂ hb hw₂ => ?_
    rw [← BinaryOp.map_result_plan?] at result
    obtain ⟨plan, hp, rfl⟩ := Option.map_eq_some_iff.mp result
    by_cases hop : op = .ne
    · subst hop
      obtain ⟨kind, x, y, -, -, rfl, hv⟩ := BinaryOp.evaluate_ne_of_plan hp ha hb
      rw [hv]
      exact ⟨rfl, hw₂⟩
    · obtain ⟨i, -, hi⟩ := BinaryOp.computes_of_plan hop hp ha hb
      exact hi.sound hw₂
  | unary span _ result iho =>
    refine (iho hw).bind fun a w₁ ha hw₁ => ?_
    rw [← UnaryOp.map_instruction?] at result
    obtain ⟨i, hi, rfl⟩ := Option.map_eq_some_iff.mp result
    obtain ⟨operation, x, rfl, -, rfl, hv⟩ := UnaryOp.evaluate_of_instruction hi ha
    rw [hv]
    exact ⟨Value.ofTy?_kind_of _ (operation.apply x), hw₁⟩
  | @logical op left right span _ _ ihl ihr =>
    refine (ihl hw).bind fun a w₁ ha hw₁ => (ihr hw₁).bind fun b w₂ hb hw₂ => ?_
    cases a <;> cases ha
    cases b <;> cases hb
    cases op <;> exact ⟨rfl, hw₂⟩
  | group span _ ih => exact ih hw
  | @assign target value valueType ty span declared _ fits ih =>
    refine (ih hw).bind fun v w₁ hv hw₁ => ?_
    rw [SymbolTable.typeOf_eq_ok_iff.mpr declared]
    have hk := kind_convert hv fits
    exact (World.sound_save hw₁ declared hk).bind fun _ _ _ hw₂ => ⟨hk, hw₂⟩

theorem sound_holds (h : e.Typed table .bool) (hw : w.store.Typed table) :
    Sound table (fun _ => True) (e.holds table.typeOf w) := by
  refine (sound_eval h hw).bind fun v w₁ hv hw₁ => ?_
  cases v <;> cases hv
  exact ⟨trivial, hw₁⟩

/-- The test of a loop, which may be left out. -/
theorem sound_test {condition : Option Expr} (h : ∀ e ∈ condition, e.Typed table .bool) (hw : w.store.Typed table) :
    Sound table (fun _ => True) (condition.elim (pure true) (holds table.typeOf) w) := by
  cases condition with
  | none => exact ⟨trivial, hw⟩
  | some e => exact sound_holds (h e rfl) hw

theorem sound_evalAll {exprs : List Expr} (h : ∀ e ∈ exprs, ∃ ty, e.Typed table ty ∧ ty.isPrimitive = true)
    (hw : w.store.Typed table) : Sound table (fun _ => True) (evalAll table.typeOf exprs w) := by
  induction exprs generalizing w with
  | nil => exact ⟨trivial, hw⟩
  | cons e rest ih =>
    obtain ⟨ty, hty, -⟩ := h e List.mem_cons_self
    refine (sound_eval hty hw).bind fun v w₁ _ hw₁ => ?_
    refine (ih (fun e he => h e (List.mem_cons_of_mem _ he)) hw₁).bind fun values w₂ _ hw₂ => ?_
    exact ⟨trivial, hw₂⟩

theorem sound_evalOption {clause : Option Expr} (h : ∀ e ∈ clause, ∃ ty, e.Typed table ty) (hw : w.store.Typed table) :
    Sound table (fun _ => True) (evalOption table.typeOf clause w) := by
  cases clause with
  | none => exact ⟨trivial, hw⟩
  | some e =>
    obtain ⟨ty, hty⟩ := h e rfl
    exact (sound_eval hty hw).bind fun v w₁ _ hw₁ => ⟨trivial, hw₁⟩

end Expr

namespace World

theorem sound_saveAll {names : List String} {ty : Ty} {v : Value} (hn : ∀ name ∈ names, table.HasType name ty)
    (hv : Kind.ofTy? ty = some v.kind) (hw : w.store.Typed table) : Sound table (fun _ => True) (saveAll v names w) := by
  induction names generalizing w with
  | nil => exact ⟨trivial, hw⟩
  | cons name rest ih =>
    refine (sound_save hw (hn name List.mem_cons_self) hv).bind fun _ w₁ _ hw₁ => ?_
    exact ih (fun name h => hn name (List.mem_cons_of_mem _ h)) hw₁

theorem sound_readAll {names : List String} {span : Span}
    (hn : ∀ name ∈ names, ∃ ty, table.HasType name ty ∧ ty.isPrimitive = true) (hw : w.store.Typed table) :
    Sound table (fun _ => True) (readAll table.typeOf span names w) := by
  induction names generalizing w with
  | nil => exact ⟨trivial, hw⟩
  | cons name rest ih =>
    obtain ⟨ty, hty, hp⟩ := hn name List.mem_cons_self
    obtain ⟨kind, hk⟩ : ∃ kind, Kind.ofTy? ty = some kind := by cases ty <;> first | exact ⟨_, rfl⟩ | cases hp
    have hrest := fun w₁ hw₁ => ih (w := w₁) (fun name h => hn name (List.mem_cons_of_mem _ h)) hw₁
    rw [readAll, SymbolTable.typeOf_eq_ok_iff.mpr hty]
    simp only [hk]
    refine (sound_read hw kind).bind fun v w₁ hv hw₁ => ?_
    refine (sound_save hw₁ hty (hk.trans (congrArg some hv.symm))).bind fun _ w₂ _ hw₂ => ?_
    exact hrest w₂ hw₂

end World

/-! ### Statements -/

theorem Value.kind_of_default? {ty : Ty} {v : Value} (h : Value.default? ty = some v) : Kind.ofTy? ty = some v.kind := by
  cases ty <;> cases h <;> rfl

namespace Stmt

/-- By induction on the fuel, for statements and lists of them together. A loop goes on as a loop that is well typed
again. -/
theorem sound_eval? (fuel : Nat) :
    (∀ (s : Stmt) (w : World) result, s.WellTyped table → w.store.Typed table →
      s.eval? table.typeOf fuel w = some result → Sound table (fun _ => True) result) ∧
    (∀ (body : List Stmt) (w : World) result, AllWellTyped table body → w.store.Typed table →
      evalAll? table.typeOf fuel body w = some result → Sound table (fun _ => True) result) := by
  induction fuel with
  | zero => exact ⟨fun s w result _ _ he => (by cases he), fun body w result _ _ he => (by cases he)⟩
  | succ fuel ih =>
    obtain ⟨ih, ihAll⟩ := ih
    refine ⟨fun s w result hs hw he => ?_, fun body w result hs hw he => ?_⟩
    · cases s with
      | declare type names span =>
        obtain ⟨ty, hty, hn⟩ := hs
        rw [eval?, hty, Option.bind_some] at he
        cases hd : Value.default? ty with
        | none =>
          rw [hd] at he
          cases he
          exact ⟨trivial, hw⟩
        | some v =>
          rw [hd] at he
          cases he
          exact World.sound_saveAll hn (Value.kind_of_default? hd) hw
      | expr e span =>
        cases he
        exact Expr.sound_evalOption (fun _ h => by cases h; exact hs) hw
      | block body span => exact ihAll body w result hs hw he
      | ifElse condition yes no span =>
        refine Ends.act_andThen he (Expr.sound_holds hs.1 hw) fun b w' hb he => ?_
        cases b with
        | true => exact ih yes w' result hs.2.1 hb.2 he
        | false => exact ih no w' result hs.2.2 hb.2 he
      | whileLoop condition body span =>
        refine Ends.act_andThen he (Expr.sound_holds hs.1 hw) fun b w' hb he => ?_
        cases b with
        | true =>
          exact Ends.evaluated_andThen he (fun r => ih body w' r hs.2 hb.2) fun w'' hw'' => ih _ w'' result hs hw''.2
        | false =>
          cases he
          exact ⟨trivial, hb.2⟩
      | forLoop init condition update body span =>
        obtain ⟨hinit, hcondition, hupdate, hbody⟩ := hs
        refine Ends.act_andThen he (Expr.sound_evalOption (fun e h => (hinit e h).2) hw) fun _ w' hw' he => ?_
        refine Ends.act_andThen he (Expr.sound_test hcondition hw'.2) fun b w' hb he => ?_
        cases b with
        | true =>
          refine Ends.evaluated_andThen he (fun r => ih body w' r hbody hb.2) fun w'' hw'' => ?_
          exact ih _ w'' result ⟨hupdate, hcondition, hupdate, hbody⟩ hw''.2
        | false =>
          cases he
          exact ⟨trivial, hb.2⟩
      | read names span =>
        cases he
        exact World.sound_readAll hs hw
      | write exprs fits span =>
        refine Ends.act_andThen he (Expr.sound_evalAll hs hw) fun values w' hvalues he => ?_
        cases he
        exact World.sound_write hvalues.2 _
      | empty span =>
        cases he
        exact ⟨trivial, hw⟩
    · cases body with
      | nil =>
        cases he
        exact ⟨trivial, hw⟩
      | cons s rest =>
        exact Ends.evaluated_andThen he (fun r => ih s w r hs.1 hw) fun w' hw' => ihAll rest w' result hs.2 hw'.2

end Stmt

end StackMachine
