import StackMachine.Proofs.ExprCode
import StackMachine.Proofs.Generated

/-! The straight code in statements.

Declarations, expressions without use for their value, reads and writes have code without jumps. It does to the world
what the statement does, and leaves the stack as it was. -/

namespace StackMachine

namespace Stack

/-- Pushes values one after the other. -/
def pushAll (s : Stack) (values : List Value) : Stack :=
  values.foldl push s

@[simp] theorem values_pushAll (s : Stack) (values : List Value) :
    (s.pushAll values).values = values.reverse ++ s.values := by
  induction values generalizing s with
  | nil => rfl
  | cons v rest ih =>
    show ((s.push v).pushAll rest).values = _
    rw [ih, values_push, List.reverse_cons, List.append_assoc]
    rfl

theorem top_pushAll (s : Stack) (values : List Value) : (s.pushAll values).top values.length = values := by
  rw [top, values_pushAll, ← List.length_reverse, List.take_left, List.reverse_reverse]

theorem drop_pushAll (s : Stack) (values : List Value) : (s.pushAll values).drop values.length = s := by
  ext1
  rw [values_drop, values_pushAll, ← List.length_reverse, List.drop_left]

end Stack

namespace Exec

open Lowering

variable {s : Stack} {w : World} {limit : Nat} {v : Value} {kind : Kind} {α β : Type}

theorem Follows.map {x : Act α} {f : α → β} {after : β → Stack} {r : EStateM.Result Fault Machine Unit}
    (h : Follows limit (x w) (fun a => after (f a)) r) :
    Follows limit ((x >>= fun a => pure (f a)) w) after r := by
  cases r with
  | ok u m =>
    obtain ⟨a, w', hx, rfl⟩ := h
    exact ⟨f a, w', Action.bind_ok hx, rfl⟩
  | error fault m => exact h.imp id Action.bind_error

theorem follows_pop : Follows limit (.ok () w) (fun _ => s) (straight [.plain .pop] ⟨s.push v, w, limit⟩) := by
  have hd : (Instruction.plain .pop).decode none = .ok .pop := rfl
  have hp : perform .pop ⟨s.push v, w, limit⟩ = .ok .next ⟨s, w, limit⟩ := by
    have hpop : pop .pop ⟨s.push v, w, limit⟩ = .ok v ⟨s, w, limit⟩ := by rw [pop, Stack.pop?_push]
    rw [perform, Action.bind_ok hpop]
    rfl
  rw [straight_cons_ok hd hp]
  exact ⟨(), w, rfl, rfl⟩

theorem follows_read : Follows limit (World.read kind w) s.push (straight [.read kind] ⟨s, w, limit⟩) := by
  have hd : (Instruction.read kind).decode none = .ok (.read kind) := rfl
  cases hr : World.read kind w with
  | ok v w' =>
    have ha : act (World.read kind) ⟨s, w, limit⟩ = .ok v ⟨s, w', limit⟩ := by rw [act, hr]
    exact .of_push hd (Action.bind_ok ha)
  | error fault w' =>
    have ha : act (World.read kind) ⟨s, w, limit⟩ = .error fault ⟨s, w', limit⟩ := by rw [act, hr]
    exact .of_error hd (Action.bind_error ha)

theorem decode_print {count : Nat} (hfits : count < maxListed) :
    (Instruction.print count).decode none = .ok (.print count) := by
  have hcount : Text.count? (toString count).toList = some count := Text.count?_repr hfits
  have hliteral : (Instruction.print count).needOperand = .ok (toString count) := rfl
  refine (Except.bind_ok hliteral).trans ?_
  rw [hcount]
  rfl

theorem take_pushAll (opcode : Opcode) (s : Stack) (values : List Value) (w : World) (limit : Nat) :
    take opcode values.length ⟨s.pushAll values, w, limit⟩ = .ok values ⟨s, w, limit⟩ := by
  have hsize : values.length ≤ (s.pushAll values).size := by
    rw [Stack.size_eq, Stack.values_pushAll, List.length_append, List.length_reverse]
    exact Nat.le_add_right _ _
  rw [take, if_pos hsize, Stack.top_pushAll, Stack.drop_pushAll]

theorem follows_print {values : List Value} (hfits : values.length < maxListed) :
    Follows limit (World.print values w) (fun _ => s)
      (straight [.print values.length] ⟨s.pushAll values, w, limit⟩) := by
  have hd := decode_print hfits
  have ht := take_pushAll .print s values w limit
  cases hr : World.print values w with
  | ok u w' =>
    have ha : act (World.print values) ⟨s, w, limit⟩ = .ok u ⟨s, w', limit⟩ := by rw [act, hr]
    have hp : perform (.print values.length) ⟨s.pushAll values, w, limit⟩ = .ok .next ⟨s, w', limit⟩ := by
      rw [perform, Action.bind_ok ht, Action.bind_ok ha]
      rfl
    rw [straight_cons_ok hd hp]
    exact ⟨(), w', rfl, rfl⟩
  | error fault w' =>
    have ha : act (World.print values) ⟨s, w, limit⟩ = .error fault ⟨s, w', limit⟩ := by rw [act, hr]
    have hp : perform (.print values.length) ⟨s.pushAll values, w, limit⟩ = .error fault ⟨s, w', limit⟩ := by
      rw [perform, Action.bind_ok ht, Action.bind_error ha]
    exact .of_error hd hp

/-! ### Parts of statements -/

theorem follows_defaults (v : Value) (line : Nat) (names : List String) :
    Follows limit (World.saveAll v names w) (fun _ => s)
      (straight ((defaults v.kind v.literal line names).map Prod.fst) ⟨s, w, limit⟩) := by
  induction names generalizing w with
  | nil => exact ⟨(), w, rfl, rfl⟩
  | cons name names ih =>
    have hfirst : Follows limit (World.save name v w) (fun _ => s)
        (straight ([.push v.kind v.literal] ++ [.save v.kind name]) ⟨s, w, limit⟩) := by
      refine (follows_push v).append ?_ ?_
      · rintro v' w' ⟨⟩
        exact follows_save rfl
      · rintro fault w' ⟨⟩
    exact hfirst.bind fun _ w' _ => ih

variable {table : SymbolTable} {e : Expr} {code : Emitted} {span : Span}

theorem follows_discard (h : discard table.typeOf e = .ok code) (hw : w.store.Typed table) :
    Follows limit (Expr.evalOption table.typeOf (some e) w) (fun _ => s)
      (straight (code.map Prod.fst) ⟨s, w, limit⟩) := by
  obtain ⟨l, hl, rfl⟩ := discard_eq_ok h
  rw [List.map_append]
  exact (hl.follows hw s).bind fun v w' _ => follows_pop

theorem follows_clauseCode {clause : Clause} {part : Option Expr} (h : clauseCode table.typeOf clause part = .ok code)
    (hw : w.store.Typed table) :
    Follows limit (Expr.evalOption table.typeOf part w) (fun _ => s) (straight (code.map Prod.fst) ⟨s, w, limit⟩) := by
  rcases clauseCode_eq_ok h with ⟨rfl, rfl⟩ | ⟨e, rfl, -, h⟩
  · exact ⟨(), w, rfl, rfl⟩
  · exact follows_discard h hw

theorem follows_reads {names : List String} (h : reads table.typeOf span names = .ok code) (hw : w.store.Typed table) :
    Follows limit (World.readAll table.typeOf span names w) (fun _ => s)
      (straight (code.map Prod.fst) ⟨s, w, limit⟩) := by
  induction names generalizing w code with
  | nil =>
    cases h
    exact ⟨(), w, rfl, rfl⟩
  | cons name names ih =>
    obtain ⟨ty, kind, rest, hty, hkind, hrest, rfl⟩ := reads_cons_eq_ok h
    have hty : table.typeOf name span = .ok ty := hty
    have declared := SymbolTable.typeOf_eq_ok_iff.mp hty
    rw [World.readAll, hty]
    simp only [hkind]
    show Follows limit _ _ (straight ([.read kind] ++ ([.save kind name] ++ rest.map Prod.fst)) _)
    refine follows_read.bind fun v w₁ hv => ?_
    obtain ⟨hk, hw₁⟩ : v.kind = kind ∧ w₁.store.Typed table := by
      have hsound := World.sound_read hw kind
      rwa [hv] at hsound
    refine (follows_save hk).bind ?_
    rintro u w₂ ⟨⟩
    exact ih hrest (hw₁.insert declared (hkind.trans (congrArg some hk.symm)))

theorem follows_values {exprs : List Expr} (h : values table.typeOf exprs = .ok code) (hw : w.store.Typed table)
    (s : Stack) :
    Follows limit (Expr.evalAll table.typeOf exprs w) s.pushAll (straight (code.map Prod.fst) ⟨s, w, limit⟩) := by
  induction exprs generalizing w code s with
  | nil =>
    cases h
    exact ⟨[], w, rfl, rfl⟩
  | cons e exprs ih =>
    obtain ⟨l, rest, hl, hrest, rfl⟩ := values_cons_eq_ok h
    rw [List.map_append]
    refine (hl.follows hw s).bind fun v w₁ hv => ?_
    exact Follows.map (ih hrest (hl.sound hw hv).2 (s.push v))

end Exec

theorem Expr.length_evalAll {scope : Scope} {exprs : List Expr} {w w' : World} {values : List Value}
    (h : evalAll scope exprs w = .ok values w') : values.length = exprs.length := by
  induction exprs generalizing w values with
  | nil =>
    cases h
    rfl
  | cons e exprs ih =>
    obtain ⟨v, w₁, -, h⟩ := Action.bind_eq_ok.mp h
    obtain ⟨rest, w₂, hrest, h⟩ := Action.bind_eq_ok.mp h
    cases h
    rw [List.length_cons, List.length_cons, ih hrest]

theorem Exec.follows_write {table : SymbolTable} {exprs : List Expr} {list : Emitted} {s : Stack} {w : World} {limit : Nat}
    (h : Lowering.values table.typeOf exprs = .ok list) (hfits : exprs.length < maxListed) (hw : w.store.Typed table) :
    Follows limit ((Expr.evalAll table.typeOf exprs >>= World.print) w) (fun _ => s)
      (straight (list.map Prod.fst ++ [.print exprs.length]) ⟨s, w, limit⟩) := by
  refine (follows_values h hw s).bind fun values w' hvalues => ?_
  have hlength := Expr.length_evalAll hvalues
  rw [← hlength] at hfits ⊢
  exact follows_print hfits

end StackMachine
