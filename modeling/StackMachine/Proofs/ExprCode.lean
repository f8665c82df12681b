import StackMachine.Proofs.Decimal.Readback
import StackMachine.Proofs.Soundness
import StackMachine.Proofs.Straight

/-! The code of expressions.

The code of an expression does to the world what its evaluation does, and pushes its value onto whatever the stack held
before. Inside a chain of assignments the value is still in the variable saved last; then this holds of the code together
with the instruction that loads the variable again. -/

namespace StackMachine

@[simp] theorem Stack.pop?_push (s : Stack) (v : Value) : (s.push v).pop? = some (v, s) := by
  cases s
  rfl

namespace Exec

variable {s : Stack} {w : World} {limit : Nat} {i : Instruction} {operation : Operation} {v : Value} {kind : Kind}

/-! ### Single instructions -/

theorem popAs_push (opcode : Opcode) (data : kind.Carrier) :
    popAs opcode kind ⟨s.push (.of kind data), w, limit⟩ = .ok data ⟨s, w, limit⟩ := by
  have hpop : pop opcode ⟨s.push (.of kind data), w, limit⟩ = .ok (.of kind data) ⟨s, w, limit⟩ := by
    rw [pop, Stack.pop?_push]
  rw [popAs, Action.bind_ok hpop, Value.as?_of]
  rfl

theorem decode_push (v : Value) : (Instruction.push v.kind v.literal).decode none = .ok (.push v) := by
  have hkind : (Instruction.push v.kind v.literal).needKind = .ok v.kind := rfl
  have hliteral : (Instruction.push v.kind v.literal).needOperand = .ok v.literal := rfl
  refine (Except.bind_ok hkind).trans ((Except.bind_ok hliteral).trans ?_)
  rw [Value.ofLiteral?_literal]
  rfl

theorem perform_load {name : String} (hv : w.store.get? name = some v) (hk : v.kind = kind) :
    perform (.load kind name) ⟨s, w, limit⟩ = (push v >>= fun _ => pure .next : Exec Flow) ⟨s, w, limit⟩ := by
  have ha : act (World.fetch name) ⟨s, w, limit⟩ = .ok v ⟨s, w, limit⟩ := by rw [act, World.fetch, hv]
  rw [perform, Action.bind_ok ha, if_pos hk]

theorem perform_unary (op : Unary) (x : op.operand.Carrier) :
    perform (.unary op) ⟨s.push (.of op.operand x), w, limit⟩ =
      (push (.of op.result (op.apply x)) >>= fun _ => pure .next : Exec Flow) ⟨s, w, limit⟩ := by
  rw [perform, Action.bind_ok (popAs_push op.opcode x)]

theorem perform_binary {op : Binary} {x y : op.operand.Carrier} {data : op.result.Carrier}
    (hr : op.apply x y = .ok data) :
    perform (.binary op) ⟨(s.push (.of op.operand x)).push (.of op.operand y), w, limit⟩ =
      (push (.of op.result data) >>= fun _ => pure .next : Exec Flow) ⟨s, w, limit⟩ := by
  rw [perform, Action.bind_ok (popAs_push op.opcode y), Action.bind_ok (popAs_push op.opcode x),
    Action.bind_ok (lift_eq_ok_iff.mpr ⟨hr, rfl⟩)]

theorem perform_binary_error {op : Binary} {x y : op.operand.Carrier} {fault : Fault}
    (hr : op.apply x y = .error fault) :
    perform (.binary op) ⟨(s.push (.of op.operand x)).push (.of op.operand y), w, limit⟩ =
      .error fault ⟨s, w, limit⟩ := by
  rw [perform, Action.bind_ok (popAs_push op.opcode y), Action.bind_ok (popAs_push op.opcode x), hr]
  exact Action.bind_error rfl

/-- An operation that ends by pushing a value does so if there is room for it. -/
theorem straight_of_push {m : Machine} (hd : i.decode none = .ok operation)
    (hp : perform operation m = (push v >>= fun _ => pure .next : Exec Flow) ⟨s, w, limit⟩) :
    straight [i] m =
      if s.size < limit then .ok () ⟨s.push v, w, limit⟩ else .error (.stackOverflow limit) ⟨s, w, limit⟩ := by
  split
  · rename_i h
    have hp : perform operation m = .ok .next ⟨s.push v, w, limit⟩ := hp.trans (Action.bind_ok (if_pos h))
    exact straight_cons_ok hd hp
  · rename_i h
    have hp : perform operation m = .error (.stackOverflow limit) ⟨s, w, limit⟩ := hp.trans (Action.bind_error (if_neg h))
    exact straight_cons_error hd hp

/-- An operation that ends by pushing a value follows what gives that value, as far as there is room for it. -/
theorem Follows.of_push {m : Machine} (hd : i.decode none = .ok operation)
    (hp : perform operation m = (push v >>= fun _ => pure .next : Exec Flow) ⟨s, w, limit⟩) :
    Follows limit (.ok v w) s.push (straight [i] m) := by
  rw [straight_of_push hd hp]
  split
  · exact ⟨v, w, rfl, rfl⟩
  · exact Or.inl trivial

theorem Follows.of_error {α : Type} {after : α → Stack} {m m' : Machine} {fault : Fault}
    (hd : i.decode none = .ok operation) (hp : perform operation m = .error fault m') :
    Follows limit (.error fault m'.world) after (straight [i] m) := by
  rw [straight_cons_error hd hp]
  exact Or.inr rfl

theorem follows_push (v : Value) :
    Follows limit (.ok v w) s.push (straight [.push v.kind v.literal] ⟨s, w, limit⟩) :=
  .of_push (decode_push v) rfl

theorem follows_load {name : String} (hk : ∀ v, w.store.get? name = some v → v.kind = kind) :
    Follows limit (World.fetch name w) s.push (straight [.load kind name] ⟨s, w, limit⟩) := by
  have hd : (Instruction.load kind name).decode none = .ok (.load kind name) := rfl
  cases hv : w.store.get? name with
  | some v =>
    have hf : World.fetch name w = .ok v w := by rw [World.fetch, hv]
    rw [hf]
    exact .of_push hd (perform_load hv (hk v hv))
  | none =>
    have hf : World.fetch name w = .error (.undefinedVariable name) w := by rw [World.fetch, hv]
    have ha : act (World.fetch name) ⟨s, w, limit⟩ = .error (.undefinedVariable name) ⟨s, w, limit⟩ := by rw [act, hf]
    rw [hf]
    exact .of_error hd (Action.bind_error ha)

theorem perform_save {name : String} (hk : v.kind = kind) :
    perform (.save kind name) ⟨s.push v, w, limit⟩ = .ok .next ⟨s, { w with store := w.store.insert name v }, limit⟩ := by
  obtain ⟨data, rfl⟩ : ∃ data, v = .of kind data := by
    subst hk
    cases v <;> exact ⟨_, rfl⟩
  rw [perform, Action.bind_ok (popAs_push .save data)]
  rfl

theorem follows_save {name : String} (hk : v.kind = kind) :
    Follows limit (World.save name v w) (fun _ => s) (straight [.save kind name] ⟨s.push v, w, limit⟩) := by
  have hd : (Instruction.save kind name).decode none = .ok (.save kind name) := rfl
  rw [straight_cons_ok hd (perform_save hk)]
  exact ⟨(), _, rfl, rfl⟩

/-- A value that is saved and loaded again. -/
theorem follows_saved {name : String} (hk : v.kind = kind) :
    Follows limit ((World.save name v >>= fun _ => pure v : Act Value) w) s.push
      (straight ([.save kind name] ++ [.load kind name]) ⟨s.push v, w, limit⟩) := by
  refine (follows_save hk).bind ?_
  rintro u w' ⟨⟩
  have hget : (w.store.insert name v).get? name = some v := by rw [Store.get?_insert, if_pos rfl]
  have hload : Follows limit (World.fetch name { w with store := w.store.insert name v }) s.push
      (straight [.load kind name] ⟨s, { w with store := w.store.insert name v }, limit⟩) :=
    follows_load fun v' hv' => by
      cases hget.symm.trans hv'
      exact hk
  rwa [World.fetch, hget] at hload

theorem follows_unary {op : Unary} (hd : i.decode none = .ok (.unary op)) (x : op.operand.Carrier) :
    Follows limit (.ok (.of op.result (op.apply x)) w) s.push (straight [i] ⟨s.push (.of op.operand x), w, limit⟩) :=
  .of_push hd (perform_unary op x)

theorem follows_binary {op : Binary} {opcode : Opcode} {operand : Value} (hd : i.decode none = .ok (.binary op))
    (x y : op.operand.Carrier) :
    Follows limit (Expr.result opcode operand (some ((op.apply x y).map (Value.of op.result))) w) s.push
      (straight [i] ⟨(s.push (.of op.operand x)).push (.of op.operand y), w, limit⟩) := by
  cases hr : op.apply x y with
  | ok data => exact .of_push hd (perform_binary hr)
  | error fault => exact .of_error hd (perform_binary_error hr)

theorem Follows.of_image {α β : Type} {f : α → β} {a : α} {after : β → Stack} {r : EStateM.Result Fault Machine Unit}
    (h : Follows limit (.ok (f a) w) after r) : Follows limit (.ok a w) (fun a => after (f a)) r := by
  cases r with
  | ok u m =>
    obtain ⟨b, w', heq, rfl⟩ := h
    cases heq
    exact ⟨a, w, rfl, rfl⟩
  | error fault m => exact h.imp id fun heq => (by cases heq)

/-- Widening by type is what brings an operand to the kind it is computed in. -/
theorem follows_widening {ty : Ty} {line : Nat} (hv : Kind.ofTy? ty = some v.kind) :
    Follows limit (.ok v w) (fun v => s.push (v.bring ty kind))
      (straight ((Lowering.widening ty kind line).map Prod.fst) ⟨s.push v, w, limit⟩) := by
  refine Follows.of_image (f := fun v => Value.bring v ty kind) ?_
  unfold Lowering.widening Value.bring
  split
  · rename_i hwiden
    obtain ⟨rfl, rfl⟩ := hwiden
    cases v <;> cases hv
    have hd : (Instruction.plain .itof).decode none = .ok (.unary .widen) := rfl
    exact follows_unary hd _
  · exact ⟨v, w, rfl, rfl⟩

/-- Code that pushes an operand, and what brings the operand to its kind. -/
theorem Follows.operand {spec : EStateM.Result Fault World Value} {code : List Instruction} {m : Machine} {ty : Ty}
    {line : Nat} (h : Follows limit spec s.push (straight code m))
    (hk : ∀ v w, spec = .ok v w → Kind.ofTy? ty = some v.kind) :
    Follows limit spec (fun v => s.push (v.bring ty kind))
      (straight (code ++ (Lowering.widening ty kind line).map Prod.fst) m) := by
  refine h.append (fun v w hs => ?_) fun _ _ hs => hs
  rw [hs]
  exact follows_widening (hk v w hs)

/-- The instructions of an operator, on operands that have been brought to their kind. -/
theorem follows_plan {op : BinaryOp} {left right : Ty} {plan : BinaryPlan} {a b : Value}
    (hp : op.plan? left right = some plan) (ha : Kind.ofTy? left = some a.kind) (hb : Kind.ofTy? right = some b.kind) :
    Follows limit (Expr.result op.opcode b (op.evaluate a b) w) s.push
      (straight plan.instructions ⟨(s.push (a.bring left plan.operand)).push (b.bring right plan.operand), w, limit⟩) := by
  by_cases hop : op = .ne
  · subst hop
    obtain ⟨kind, x, y, hx, hy, rfl, happlied⟩ := BinaryOp.evaluate_ne_of_plan hp ha hb
    rw [happlied, hx, hy]
    have hequal : (Instruction.typed .eq kind).decode none = .ok (.binary (.equal kind)) := rfl
    have hnot : (Instruction.plain .not).decode none = .ok (.unary .not) := rfl
    have hfirst : Follows limit (Expr.result .eq b (some (.ok (.bool (kind.equal x y)))) w) s.push
        (straight [.typed .eq kind] ⟨(s.push (.of kind x)).push (.of kind y), w, limit⟩) := follows_binary hequal x y
    show Follows limit _ s.push (straight ([.typed .eq kind] ++ [.plain .not]) _)
    refine hfirst.append ?_ ?_
    · rintro v w' ⟨⟩
      exact follows_unary hnot (kind.equal x y)
    · rintro fault w' ⟨⟩
  · obtain ⟨i, hi, operation, x, y, hx, hy, hd, -, happlied⟩ := BinaryOp.computes_of_plan hop hp ha hb
    rw [happlied, hx, hy, hi]
    exact follows_binary hd x y

end Exec

namespace Expr

open Exec Lowering

variable {table : SymbolTable} {e : Expr} {chain : Option Span} {l : Lowered} {w w' : World} {v : Value} {limit : Nat}

theorem Lowers.sound (h : e.Lowers table.typeOf chain l) (hw : w.store.Typed table)
    (he : e.eval table.typeOf w = .ok v w') : Kind.ofTy? l.ty = some v.kind ∧ w'.store.Typed table := by
  have hs := sound_eval h.typed hw
  rwa [he] at hs

theorem follows_coercion {source target : Ty} {name : String} {span : Span} {coerced : Emitted} {s : Stack}
    (hc : coercion source target name span = .ok coerced) (hv : Kind.ofTy? source = some v.kind) :
    Follows limit (.ok v w) (fun v => s.push (v.convert target))
      (straight (coerced.map Prod.fst) ⟨s.push v, w, limit⟩) := by
  obtain ⟨hfits, rfl⟩ := coercion_eq_ok.mp hc
  refine Follows.of_image (f := fun v => Value.convert v target) ?_
  obtain rfl := Kind.ofTy?_eq_some_iff.mp hv
  have hwiden : (Instruction.plain .itof).decode none = .ok (.unary .widen) := rfl
  cases v <;> cases target <;> cases hfits
  case int.float => exact follows_unary hwiden _
  all_goals exact ⟨_, w, rfl, rfl⟩

/-- A value that is assigned: converted to the type of the variable, saved and loaded again. -/
theorem follows_assigned {source target : Ty} {name : String} {span : Span} {kind : Kind} {coerced : Emitted} {s : Stack}
    (hc : coercion source target name span = .ok coerced) (hkind : Kind.ofTy? target = some kind)
    (hv : Kind.ofTy? source = some v.kind) :
    Follows limit ((World.save name (v.convert target) >>= fun _ => pure (v.convert target) : Act Value) w) s.push
      (straight (coerced.map Prod.fst ++ ([.save kind name] ++ [.load kind name])) ⟨s.push v, w, limit⟩) := by
  have hk : (v.convert target).kind = kind := by
    have hkt := kind_convert hv (coercion_eq_ok.mp hc).1
    rw [hkind] at hkt
    exact (Option.some.inj hkt).symm
  refine (follows_coercion hc hv).append ?_ ?_
  · rintro v w' ⟨⟩
    exact follows_saved hk
  · rintro fault w' ⟨⟩

theorem follows_logical {op : LogicalOp} {a b : Value} {s : Stack} (ha : Kind.ofTy? .bool = some a.kind)
    (hb : Kind.ofTy? .bool = some b.kind) :
    Follows limit (result op.opcode b (op.evaluate a b) w) s.push
      (straight [.plain op.opcode] ⟨(s.push a).push b, w, limit⟩) := by
  cases a <;> cases ha
  cases b <;> cases hb
  have hd : (Instruction.plain op.opcode).decode none = .ok (.binary (.logical op)) := by cases op <;> rfl
  cases op <;> exact follows_binary hd _ _

/-- By induction on the rules of lowering, for both places that an assignment can stand in. -/
theorem Lowers.follows_reload (h : e.Lowers table.typeOf chain l) (hw : w.store.Typed table) (s : Stack) (line : Nat) :
    Follows limit (e.eval table.typeOf w) s.push
      (straight ((l.code ++ reload l.saved line).map Prod.fst) ⟨s, w, limit⟩) := by
  induction h generalizing w s line with
  | int chain n span => exact follows_push (.int n)
  | float chain x span => exact follows_push (.float x)
  | string chain text span => exact follows_push (.string text)
  | bool chain b span => exact follows_push (.bool b)
  | @var chain name span ty kind hty hkind =>
    refine follows_load fun v hv => ?_
    have hk := hw name v ty hv (SymbolTable.typeOf_eq_ok_iff.mp hty)
    rw [hkind] at hk
    exact (Option.some.inj hk).symm
  | @binary chain op left right span leftType rightType plan lc rc hleft hright hplan hl hr ihl ihr =>
    obtain rfl : lc.ty = leftType := Except.ok.inj (hl.typed.infer_eq.symm.trans hleft)
    obtain rfl : rc.ty = rightType := Except.ok.inj (hr.typed.infer_eq.symm.trans hright)
    have hcode : (lc.code ++ widening lc.ty plan.operand left.line ++ (rc.code ++ widening rc.ty plan.operand right.line)
        ++ (plan.instructions.map fun i => (i, span.line)) ++ reload none line).map Prod.fst =
        lc.code.map Prod.fst ++ (widening lc.ty plan.operand left.line).map Prod.fst ++
          (rc.code.map Prod.fst ++ (widening rc.ty plan.operand right.line).map Prod.fst ++ plan.instructions) := by
      simp [reload, Function.comp_def]
    rw [hcode]
    have hleft := ihl hw s line
    rw [hl.complete_eq] at hleft
    refine (hleft.operand fun a w₁ ha => (hl.sound hw ha).1).bind fun a w₁ ha => ?_
    obtain ⟨hka, hw₁⟩ := hl.sound hw ha
    have hright := ihr hw₁ (s.push (a.bring lc.ty plan.operand)) line
    rw [hr.complete_eq] at hright
    refine (hright.operand fun b w₂ hb => (hr.sound hw₁ hb).1).bind fun b w₂ hb => ?_
    exact follows_plan hplan hka (hr.sound hw₁ hb).1
  | @unary chain op operand span i lc hl hi ih =>
    have hcode : (lc.code ++ [(i, span.line)] ++ reload none line).map Prod.fst = lc.code.map Prod.fst ++ [i] := by
      simp [reload]
    rw [hcode]
    have hoperand := ih hw s line
    rw [hl.complete_eq] at hoperand
    refine hoperand.bind fun a w₁ ha => ?_
    obtain ⟨operation, x, rfl, hd, -, happlied⟩ := UnaryOp.evaluate_of_instruction hi (hl.sound hw ha).1
    rw [happlied]
    exact follows_unary hd x
  | @logical chain op left right span lc rc hl hr hbool ihl ihr =>
    have hcode : (lc.code ++ rc.code ++ [(Instruction.plain op.opcode, span.line)] ++ reload none line).map Prod.fst =
        lc.code.map Prod.fst ++ (rc.code.map Prod.fst ++ [.plain op.opcode]) := by
      simp [reload]
    rw [hcode]
    have hleft := ihl hw s line
    rw [hl.complete_eq] at hleft
    refine hleft.bind fun a w₁ ha => ?_
    obtain ⟨hka, hw₁⟩ := hl.sound hw ha
    have hright := ihr hw₁ (s.push a) line
    rw [hr.complete_eq] at hright
    refine hright.bind fun b w₂ hb => ?_
    exact follows_logical (hbool.1 ▸ hka) (hbool.2 ▸ (hr.sound hw₁ hb).1)
  | group chain span h ih => exact ih hw s line
  | @assign target value span source ty kind coerced hs hty hkind hc ih =>
    have hcode : (source.code ++ reload source.saved span.line ++ coerced ++ [(Instruction.save kind target, span.line)]
        ++ [(Instruction.load kind target, span.line)] ++ reload none line).map Prod.fst =
        (source.code ++ reload source.saved span.line).map Prod.fst ++ (coerced.map Prod.fst ++
          ([.save kind target] ++ [.load kind target])) := by
      simp [reload]
    rw [hcode]
    refine (ih hw s _).bind fun v w₁ hv => ?_
    rw [SymbolTable.typeOf_eq_ok_iff.mpr (SymbolTable.typeOf_eq_ok_iff.mp hty)]
    exact follows_assigned hc hkind (hs.sound hw hv).1
  | @assignWithin target value span place source ty kind coerced hs hty hkind hc ih =>
    -- The load that ends an assignment elsewhere is here the reload.
    have hcode : (source.code ++ reload source.saved place.line ++ coerced ++ [(Instruction.save kind target, place.line)]
        ++ reload (some (target, kind)) line).map Prod.fst =
        (source.code ++ reload source.saved place.line).map Prod.fst ++ (coerced.map Prod.fst ++
          ([.save kind target] ++ [.load kind target])) := by
      simp [reload]
    rw [hcode]
    refine (ih hw s _).bind fun v w₁ hv => ?_
    rw [SymbolTable.typeOf_eq_ok_iff.mpr (SymbolTable.typeOf_eq_ok_iff.mp hty)]
    exact follows_assigned hc hkind (hs.sound hw hv).1

theorem Lowers.follows (h : e.Lowers table.typeOf none l) (hw : w.store.Typed table) (s : Stack) :
    Follows limit (e.eval table.typeOf w) s.push (straight (l.code.map Prod.fst) ⟨s, w, limit⟩) := by
  rw [← h.complete_eq e.line]
  exact h.follows_reload hw s e.line

end Expr

end StackMachine
