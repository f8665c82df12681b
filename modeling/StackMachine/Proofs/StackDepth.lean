import StackMachine.Proofs.Labelling
import StackMachine.Proofs.Runs

/-! How deep the stack is.

The depth at an index is counted off the code as it stands, from what the instructions before the index take and give. The
count is right along jumps too, because labels and jumps find nothing on the stack but the condition of an `fjmp`
(`Levels`): every statement leaves the stack as it was, and every expression adds one value. Nothing of this depends on
the types, so it holds for any oracle. Main statement: `Program.stack_discipline`. -/

namespace StackMachine

open Lowering

/-- The depth of the stack after an instruction that finds it at the given depth. -/
def Instruction.shift (depth : Nat) (i : Instruction) : Nat :=
  depth - i.pops + i.pushes

/-- The depth of the stack before the instruction at an index. -/
def depthAt (instructions : List Instruction) (index : Nat) : Nat :=
  (instructions.take index).foldl Instruction.shift 0

/-- Code that finds as many values on the stack as it takes and brings its depth from one to another. At labels and jumps
there is nothing on the stack beside what the instruction itself takes. -/
inductive Levels : Nat → List Instruction → Nat → Prop where
  | nil (depth : Nat) : Levels depth [] depth
  | cons {depth depth' : Nat} {i : Instruction} {code : List Instruction} (enough : i.pops ≤ depth)
      (bare : i.opcode.shape = .label → depth = i.pops) (rest : Levels (i.shift depth) code depth') :
      Levels depth (i :: code) depth'

namespace Levels

variable {depth depth₁ depth' j : Nat} {i : Instruction} {code first second : List Instruction}

theorem append (h : Levels depth first depth₁) (h' : Levels depth₁ second depth') :
    Levels depth (first ++ second) depth' := by
  induction h with
  | nil => exact h'
  | cons enough bare _ ih => exact .cons enough bare (ih h')

/-- A single instruction that is neither a label nor a jump. -/
theorem single (hshape : i.opcode.shape ≠ .label) (enough : i.pops ≤ depth) (heq : depth - i.pops + i.pushes = depth') :
    Levels depth [i] depth' :=
  .cons enough (fun hlabel => absurd hlabel hshape) (heq ▸ .nil _)

/-- A single label or jump. -/
theorem bare (hpops : depth = i.pops) (hpushes : i.pushes = 0) : Levels depth [i] 0 := by
  refine .cons (Nat.le_of_eq hpops.symm) (fun _ => hpops) ?_
  rw [Instruction.shift, hpops, Nat.sub_self, hpushes]
  exact .nil 0

theorem eq_foldl (h : Levels depth code depth') : depth' = code.foldl Instruction.shift depth := by
  induction h with
  | nil => rfl
  | cons _ _ _ ih => exact ih

theorem at_index (h : Levels depth code depth') (hi : code[j]? = some i) :
    i.pops ≤ (code.take j).foldl Instruction.shift depth ∧
      (i.opcode.shape = .label → (code.take j).foldl Instruction.shift depth = i.pops) := by
  induction h generalizing j with
  | nil => cases hi
  | cons enough bare _ ih =>
    cases j with
    | zero =>
      obtain rfl := Option.some.inj hi
      exact ⟨enough, bare⟩
    | succ j => exact ih hi

end Levels

theorem depthAt_succ {instructions : List Instruction} {j : Nat} {i : Instruction} (hi : instructions[j]? = some i) :
    depthAt instructions (j + 1) = i.shift (depthAt instructions j) := by
  rw [depthAt, List.take_add_one, hi, List.foldl_append]
  rfl

/-! ### Expressions -/

theorem BinaryOp.levels_of_plan? {op : BinaryOp} {left right : Ty} {plan : BinaryPlan}
    (h : op.plan? left right = some plan) (depth : Nat) : Levels (depth + 2) plan.instructions (depth + 1) := by
  cases op with
  | add | sub | mul | div | lt | le | gt | ge | eq =>
    obtain ⟨kind, -, rfl⟩ := Option.map_eq_some_iff.mp h
    exact .single (by rintro ⟨⟩) (Nat.le_add_left 2 depth) rfl
  | mod | concat =>
    simp only [plan?] at h
    split at h <;> cases h
    exact .single (by rintro ⟨⟩) (Nat.le_add_left 2 depth) rfl
  | ne =>
    obtain ⟨kind, -, rfl⟩ := Option.map_eq_some_iff.mp h
    have heq : Levels (depth + 2) [.typed .eq kind] (depth + 1) := .single (by rintro ⟨⟩) (Nat.le_add_left 2 depth) rfl
    exact heq.append (.single (by rintro ⟨⟩) (Nat.le_add_left 1 depth) rfl)

theorem UnaryOp.levels_of_instruction? {op : UnaryOp} {ty : Ty} {i : Instruction} (h : op.instruction? ty = some i)
    (depth : Nat) : Levels (depth + 1) [i] (depth + 1) := by
  cases op <;> cases ty <;> cases h <;> exact .single (by rintro ⟨⟩) (Nat.le_add_left 1 depth) rfl

namespace Lowering

variable {depth : Nat}

theorem levels_widening (ty : Ty) (kind : Kind) (line depth : Nat) :
    Levels (depth + 1) ((widening ty kind line).map Prod.fst) (depth + 1) := by
  unfold widening
  split
  · exact .single (by rintro ⟨⟩) (Nat.le_add_left 1 depth) rfl
  · exact .nil _

theorem levels_coercion {source target : Ty} {name : String} {span : Span} {code : Emitted}
    (h : coercion source target name span = .ok code) (depth : Nat) :
    Levels (depth + 1) (code.map Prod.fst) (depth + 1) := by
  obtain ⟨-, rfl⟩ := coercion_eq_ok.mp h
  split
  · exact .nil _
  · exact .single (by rintro ⟨⟩) (Nat.le_add_left 1 depth) rfl

end Lowering

namespace Levels

theorem push (kind : Kind) (literal : String) (depth : Nat) : Levels depth [.push kind literal] (depth + 1) :=
  .single (by rintro ⟨⟩) (Nat.zero_le depth) rfl

theorem load (kind : Kind) (name : String) (depth : Nat) : Levels depth [.load kind name] (depth + 1) :=
  .single (by rintro ⟨⟩) (Nat.zero_le depth) rfl

theorem save (kind : Kind) (name : String) (depth : Nat) : Levels (depth + 1) [.save kind name] depth :=
  .single (by rintro ⟨⟩) (Nat.le_add_left 1 depth) rfl

end Levels

namespace Expr

variable {oracle : Oracle} {e : Expr} {chain : Option Span} {l : Lowered}

/-- An expression adds one value to the stack. Within a chain of assignments the value is there only once the variable
that was saved is loaded again. -/
theorem Lowers.levels_reload (h : e.Lowers oracle chain l) (line depth : Nat) :
    Levels depth ((l.code ++ reload l.saved line).map Prod.fst) (depth + 1) := by
  induction h generalizing line depth with
  | int | float | string | bool => exact .push _ _ depth
  | var => exact .load _ _ depth
  | @binary chain op left right span leftType rightType plan l r hleft hright hplan hl hr ihl ihr =>
    have hl' := ihl line depth
    have hr' := ihr line (depth + 1)
    rw [hl.saved_eq_none, reload, List.append_nil] at hl'
    rw [hr.saved_eq_none, reload, List.append_nil] at hr'
    have hleft' := hl'.append (levels_widening leftType plan.operand left.line depth)
    have hright' := hr'.append (levels_widening rightType plan.operand right.line (depth + 1))
    have hcode := (hleft'.append hright').append (BinaryOp.levels_of_plan? hplan depth)
    simpa [reload, Function.comp_def] using hcode
  | @unary chain op operand span i l hl hi ih =>
    have hl' := ih line depth
    rw [hl.saved_eq_none, reload, List.append_nil] at hl'
    simpa [reload] using hl'.append (UnaryOp.levels_of_instruction? hi depth)
  | @logical chain op left right span l r hl hr hbool ihl ihr =>
    have hl' := ihl line depth
    have hr' := ihr line (depth + 1)
    rw [hl.saved_eq_none, reload, List.append_nil] at hl'
    rw [hr.saved_eq_none, reload, List.append_nil] at hr'
    have hop : Levels (depth + 2) [.plain op.opcode] (depth + 1) := by
      cases op <;> exact .single (by rintro ⟨⟩) (Nat.le_add_left 2 depth) rfl
    simpa [reload] using (hl'.append hr').append hop
  | group chain span h ih => exact ih line depth
  | @assign target value span source ty kind coerced hs hty hkind hc ih =>
    have hvalue := (ih span.line depth).append (levels_coercion hc depth)
    simpa [reload] using (hvalue.append (.save kind target depth)).append (.load kind target depth)
  | @assignWithin target value span place source ty kind coerced hs hty hkind hc ih =>
    have hvalue := (ih place.line depth).append (levels_coercion hc depth)
    simpa [reload] using (hvalue.append (.save kind target depth)).append (.load kind target depth)

theorem Lowers.levels (h : e.Lowers oracle none l) (depth : Nat) : Levels depth (l.code.map Prod.fst) (depth + 1) := by
  have hcode := h.levels_reload e.line depth
  rwa [h.saved_eq_none, reload, List.append_nil] at hcode

end Expr

/-! ### Statements -/

namespace Lowering

variable {oracle : Oracle} {e : Expr} {code : Emitted} {line : Nat} {span : Span} {names : List String}

theorem levels_defaults (kind : Kind) (literal : String) :
    Levels 0 ((defaults kind literal line names).map Prod.fst) 0 := by
  induction names with
  | nil => exact .nil 0
  | cons name names ih => exact ((Levels.push kind literal 0).append (.save kind name 0)).append ih

theorem levels_discard (h : discard oracle e = .ok code) : Levels 0 (code.map Prod.fst) 0 := by
  obtain ⟨l, hl, rfl⟩ := discard_eq_ok h
  have hpop : Levels 1 [.plain .pop] 0 := .single (by rintro ⟨⟩) (Nat.le_refl 1) rfl
  simpa using (hl.levels 0).append hpop

theorem levels_clauseCode {clause : Clause} {part : Option Expr} (h : clauseCode oracle clause part = .ok code) :
    Levels 0 (code.map Prod.fst) 0 := by
  rcases clauseCode_eq_ok h with ⟨-, rfl⟩ | ⟨e, -, -, h⟩
  · exact .nil 0
  · exact levels_discard h

theorem levels_exitUnless {label : String} (h : exitUnless oracle e label line = .ok code) :
    Levels 0 (code.map Prod.fst) 0 := by
  obtain ⟨l, hl, rfl⟩ := exitUnless_eq_ok h
  have hexit : Levels 1 [.fjmp label] 0 := .bare rfl rfl
  simpa using (hl.levels 0).append hexit

theorem levels_reads (h : reads oracle span names = .ok code) : Levels 0 (code.map Prod.fst) 0 := by
  induction names generalizing code with
  | nil =>
    cases h
    exact .nil 0
  | cons name names ih =>
    obtain ⟨ty, kind, rest, -, -, hrest, rfl⟩ := reads_cons_eq_ok h
    have hread : Levels 0 [.read kind] 1 := .single (by rintro ⟨⟩) (Nat.le_refl 0) rfl
    exact (hread.append (.save kind name 0)).append (ih hrest)

theorem levels_values {exprs : List Expr} (h : values oracle exprs = .ok code) (depth : Nat) :
    Levels depth (code.map Prod.fst) (depth + exprs.length) := by
  induction exprs generalizing code depth with
  | nil =>
    cases h
    exact .nil depth
  | cons e exprs ih =>
    obtain ⟨l, rest, hl, hrest, rfl⟩ := values_cons_eq_ok h
    have hcode := (hl.levels depth).append (ih hrest (depth + 1))
    rw [Nat.add_right_comm] at hcode
    simpa [Nat.add_assoc] using hcode

theorem levels_print {count : Nat} (fits : count < maxListed) : Levels count [.print count] 0 := by
  have hpops : (Instruction.print count).pops = count := by
    have hcount : Text.count? (toString count).toList = some count := Text.count?_repr fits
    show (Text.count? (toString count).toList).getD 0 = count
    rw [hcount]
    rfl
  exact .single (by rintro ⟨⟩) (Nat.le_of_eq hpops) (by rw [hpops, Nat.sub_self]; rfl)

end Lowering

namespace Stmt

variable {oracle : Oracle}

mutual

/-- A statement leaves the stack as it was. -/
theorem levels_lower (s : Stmt) {n n' : Nat} {code : Emitted} (h : s.lower oracle n = .ok (code, n')) :
    Levels 0 (code.map Prod.fst) 0 := by
  have hlabel : ∀ number, Levels 0 [.label (labelName number)] 0 := fun _ => .bare rfl rfl
  have hjmp : ∀ number, Levels 0 [.jmp (labelName number)] 0 := fun _ => .bare rfl rfl
  cases s with
  | declare type names span =>
    obtain ⟨ty, kind, literal, -, -, -, rfl, -⟩ := lower_declare h
    exact levels_defaults kind literal
  | expr e span => exact levels_discard (lower_expr h).1
  | block body span => exact levels_lowerAll body h
  | ifElse condition yes no span =>
    obtain ⟨test, yesCode, n₁, noCode, htest, hyes, hno, rfl⟩ := lower_ifElse h
    have hfirst := (levels_exitUnless htest).append (levels_lower yes hyes)
    have hmiddle := (hjmp (n + 1)).append (hlabel n)
    simpa using ((hfirst.append hmiddle).append (levels_lower no hno)).append (hlabel (n + 1))
  | whileLoop condition body span =>
    obtain ⟨test, bodyCode, htest, hbody, rfl⟩ := lower_whileLoop h
    have hend := (hjmp n).append (hlabel (n + 1))
    simpa using (((hlabel n).append (levels_exitUnless htest)).append (levels_lower body hbody)).append hend
  | forLoop init condition update body span =>
    obtain ⟨initCode, test, bodyCode, updateCode, hinit, htest, hbody, hupdate, rfl⟩ := lower_forLoop h
    have htest : Levels 0 (test.map Prod.fst) 0 := by
      cases condition with
      | none =>
        cases htest
        exact .nil 0
      | some e => exact levels_exitUnless htest
    have hhead := (levels_clauseCode hinit).append ((hlabel n).append htest)
    have hinner := (levels_lower body hbody).append (levels_clauseCode hupdate)
    simpa using (hhead.append hinner).append ((hjmp n).append (hlabel (n + 1)))
  | read names span => exact levels_reads (lower_read h).1
  | write exprs fits span =>
    obtain ⟨list, hlist, rfl, -⟩ := lower_write h
    have hcode := levels_values hlist 0
    rw [Nat.zero_add] at hcode
    simpa using hcode.append (levels_print fits)
  | empty span =>
    cases h
    exact .nil 0

theorem levels_lowerAll (body : List Stmt) {n n' : Nat} {code : Emitted} (h : lowerAll oracle body n = .ok (code, n')) :
    Levels 0 (code.map Prod.fst) 0 := by
  cases body with
  | nil =>
    cases h
    exact .nil 0
  | cons s rest =>
    obtain ⟨first, n₁, restCode, hs, hrest, rfl⟩ := lowerAll_cons h
    rw [List.map_append]
    exact (levels_lower s hs).append (levels_lowerAll rest hrest)

end

end Stmt

/-! ### Runs -/

namespace Machine

variable {m m' : Machine} {instructions : List Instruction} {n j : Nat}

theorem stack_finish (m : Machine) : m.finish.machine.stack = m.stack := by
  obtain ⟨stack, ⟨store, input, sink⟩, limit⟩ := m
  rw [finish, Exec.act, World.finish]
  cases Sink.flush sink <;> rfl

theorem Reaches.limit_eq (h : m.Reaches instructions n j m') : m'.limit = m.limit := by
  induction n generalizing j m' with
  | zero =>
    obtain ⟨-, rfl⟩ := h.zero
    rfl
  | succ n ih =>
    obtain ⟨_, m₁, i, hreaches, -, hmoves⟩ := h.last
    rw [hmoves.limit_eq, ih hreaches]

/-- The stack has the depth that is counted off the code, however a run came there. -/
theorem Reaches.size_eq_depthAt (hlevels : Levels 0 instructions 0) (h : m.Reaches instructions n j m') :
    m'.stack.size = depthAt instructions j := by
  induction n generalizing j m' with
  | zero =>
    obtain ⟨rfl, rfl⟩ := h.zero
    rfl
  | succ n ih =>
    obtain ⟨k, m₁, i, hreaches, hi, hmoves⟩ := h.last
    have hsize := hmoves.size_eq
    rw [ih hreaches] at hsize
    rcases hmoves.index with rfl | ⟨hjump, label, hlabel, hopcode⟩
    · rw [hsize, depthAt_succ hi]
      rfl
    · -- A jump finds only what it takes, and a label finds nothing.
      have hbare : i.opcode.shape = .label ∧ i.pushes = 0 := by
        unfold Instruction.pushes
        cases hop : i.opcode <;> rw [hop] at hjump <;> cases hjump <;> exact ⟨rfl, rfl⟩
      have hpops : label.pops = 0 := by
        rw [Instruction.pops, hopcode]
        rfl
      have hfrom : depthAt instructions k = i.pops := (hlevels.at_index hi).2 hbare.1
      have hto : depthAt instructions j = label.pops := (hlevels.at_index hlabel).2 (by rw [hopcode]; rfl)
      rw [hsize, hfrom, hto, hpops, hbare.2, Nat.sub_self]

/-- Where a run faults, the stack has the values that the instruction takes. If it is full, the depth after the
instruction is too much for it. -/
theorem FaultsAt.depth (hlevels : Levels 0 instructions 0) {fault : Fault} (h : m.FaultsAt instructions j m' fault) :
    (∀ opcode, fault ≠ .stackUnderflow opcode) ∧
      ∀ limit, fault = .stackOverflow limit → j < instructions.length ∧ m.limit < depthAt instructions (j + 1) := by
  obtain ⟨i, n, hreaches, hi, target, -, hraises⟩ := h.raises
  have hsize := hreaches.size_eq_depthAt hlevels
  rcases hraises with hdecode | ⟨operation, hdecode, hraises⟩
  · have hof := Instruction.ofDecoding_of_decode hdecode
    constructor
    · rintro opcode rfl
      cases hof
    · rintro limit rfl
      cases hof
  · have hpops := Instruction.pops_of_decode hdecode
    cases hraises with
    | stackUnderflow opcode short =>
      rw [hsize, hpops] at short
      exact absurd (hlevels.at_index hi).1 (Nat.not_le_of_lt short)
    | stackOverflow full =>
      rw [hsize, hpops, Instruction.pushes_of_decode hdecode, hreaches.limit_eq] at full
      refine ⟨nofun, fun limit _ => ⟨(List.getElem?_eq_some_iff.mp hi).1, ?_⟩⟩
      rwa [depthAt_succ hi]
    | _ => exact ⟨nofun, nofun⟩

end Machine

namespace Program

variable {program : Program} {oracle : Oracle} {code : Code}

theorem levels_of_lower (h : program.lower oracle = .ok code) : Levels 0 code.instructions 0 := by
  obtain ⟨emitted, n, hemitted, rfl⟩ := lower_eq_ok h
  exact Stmt.levels_lowerAll program hemitted

/-- The stack discipline of generated code, whatever the oracle answers. The depth of the stack depends only on the
instruction that is about to be executed. No value is ever missing from the stack, none is left at the end, and the stack
is full only if its bound is below a depth that the code has somewhere. -/
theorem stack_discipline (h : program.lower oracle = .ok code) (m : Machine) :
    (∀ n j m', m.Reaches code.instructions n j m' → m'.stack.size = depthAt code.instructions j) ∧
      ∀ fuel halt, m.run? fuel code.instructions = some halt →
        (∀ opcode, halt.outcome ≠ .error (.stackUnderflow opcode)) ∧
        (halt.outcome = .ok () → halt.machine.stack.values = []) ∧
        ∀ limit, halt.outcome = .error (.stackOverflow limit) →
          ∃ j ≤ code.size, m.limit < depthAt code.instructions j := by
  have hlevels := levels_of_lower h
  obtain ⟨image, hlink⟩ := link_of_lower h
  refine ⟨fun n j m' hreaches => hreaches.size_eq_depthAt hlevels, fun fuel halt hrun => ?_⟩
  rcases Machine.run?_cases hrun with ⟨fault, hunlinked, -⟩ | ⟨n, j, m', hreaches, hend, rfl⟩ |
    ⟨j, m', fault, hfaults, houtcome⟩
  · rw [hlink] at hunlinked
    cases hunlinked
  · -- At the end of the code nothing is left, and closing the run can only fail by the sink.
    have hempty : depthAt code.instructions j = 0 := by
      rw [depthAt, List.take_of_length_le hend, ← hlevels.eq_foldl]
    refine ⟨fun opcode houtcome => ?_, fun _ => ?_, fun limit houtcome => ?_⟩
    · obtain ⟨e, he⟩ := Machine.fault_of_finish houtcome
      cases he
    · rw [Machine.stack_finish, ← List.length_eq_zero_iff, ← Stack.size_eq, hreaches.size_eq_depthAt hlevels, hempty]
    · obtain ⟨e, he⟩ := Machine.fault_of_finish houtcome
      cases he
  · obtain ⟨hunder, hover⟩ := hfaults.depth hlevels
    rw [houtcome]
    refine ⟨fun opcode h => hunder opcode (Except.error.inj h), nofun, fun limit h => ?_⟩
    obtain ⟨hj, hlimit⟩ := hover limit (Except.error.inj h)
    exact ⟨j + 1, hj, hlimit⟩

/-- `int x; while (x < 1) x = x + 1; write x;` -/
def climbing : Program :=
  [.declare ⟨"int", .unknown⟩ ["x"] .unknown,
    .whileLoop (.binary .lt (.var "x" .unknown) (.int 1 .unknown) .unknown)
      (.expr (.assign "x" (.binary .add (.var "x" .unknown) (.int 1 .unknown) .unknown) .unknown) .unknown) .unknown,
    .writing (.var "x" .unknown)]

/-- The oracle takes the variable for a float, and two values are enough room all the same. -/
theorem stack_discipline_climbing :
    ∃ code, climbing.lower (fun _ _ => .ok .float : Scope) = .ok code ∧
      (List.range (code.size + 1)).map (depthAt code.instructions) =
        [0, 1, 0, 0, 1, 2, 2, 1, 0, 1, 2, 2, 1, 0, 1, 0, 0, 0, 1, 0] ∧
      ∀ fuel halt limit, (Machine.new [] .unbounded 2).run? fuel code.instructions = some halt →
        halt.outcome ≠ .error (.stackOverflow limit) := by
  obtain ⟨code, hcode, hdepths⟩ : ∃ code, climbing.lower (fun _ _ => .ok .float : Scope) = .ok code ∧
      (List.range (code.size + 1)).map (depthAt code.instructions) =
        [0, 1, 0, 0, 1, 2, 2, 1, 0, 1, 2, 2, 1, 0, 1, 0, 0, 0, 1, 0] :=
    ⟨_, rfl, rfl⟩
  refine ⟨code, hcode, hdepths, fun fuel halt limit hrun houtcome => ?_⟩
  obtain ⟨j, hj, hlimit⟩ := ((stack_discipline hcode (Machine.new [] .unbounded 2)).2 fuel halt hrun).2.2 limit houtcome
  have hmem : depthAt code.instructions j ∈ (List.range (code.size + 1)).map (depthAt code.instructions) :=
    List.mem_map_of_mem (List.mem_range.mpr (Nat.lt_succ_of_le hj))
  rw [hdepths] at hmem
  have hsmall : ∀ depth ∈ [0, 1, 0, 0, 1, 2, 2, 1, 0, 1, 2, 2, 1, 0, 1, 0, 0, 0, 1, 0], depth ≤ 2 := by decide
  exact absurd hlimit (Nat.not_lt_of_le (hsmall _ hmem))

end Program

end StackMachine
