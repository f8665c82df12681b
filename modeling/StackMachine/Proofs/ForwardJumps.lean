import StackMachine.Proofs.Labelling
import StackMachine.Proofs.LabelResolution

/-! Where the jumps of generated code go.

A jump goes on to a label further behind, the `jmp` at the end of a loop excepted, which goes back to the label that the
loop starts with (`Forward`). So without loops every step comes to a later instruction, and a run has no more steps than
there are instructions. Main statement: `Program.only_loops_jump_back`. -/

namespace StackMachine

open Lowering

namespace Stmt

mutual

/-- The `while` and `for` statements in a statement, at any depth. -/
def loops : Stmt → List Stmt
  | .block body _ => loopsAll body
  | .ifElse _ yes no _ => yes.loops ++ no.loops
  | .whileLoop condition body span => .whileLoop condition body span :: body.loops
  | .forLoop init condition update body span => .forLoop init condition update body span :: body.loops
  | .declare _ _ _ | .expr _ _ | .read _ _ | .write _ _ _ | .empty _ => []

def loopsAll : List Stmt → List Stmt
  | [] => []
  | s :: rest => s.loops ++ loopsAll rest

end

end Stmt

/-- The `while` and `for` statements of a program, at any depth. -/
def Program.loops (program : Program) : List Stmt :=
  Stmt.loopsAll program

/-- The name of the label that one of some loops starts with. The code of the loop is a stretch of the whole code, and
the label stands in it and is the first of those that the loop takes. -/
def LoopStart (oracle : Oracle) (loops : List Stmt) (code : Emitted) (name : String) : Prop :=
  ∃ loop ∈ loops, ∃ n n' inner, loop.lower oracle n = .ok (inner, n') ∧ inner <:+: code ∧ name = labelName n ∧
    .label name ∈ inner.map Prod.fst

theorem LoopStart.mono {oracle : Oracle} {loops loops' : List Stmt} {code code' : Emitted} {name : String}
    (h : LoopStart oracle loops code name) (hloops : loops ⊆ loops') (hcode : code <:+: code') :
    LoopStart oracle loops' code' name := by
  obtain ⟨loop, hloop, n, n', inner, hlower, hinner, hname⟩ := h
  exact ⟨loop, hloops hloop, n, n', inner, hlower, hinner.trans hcode, hname⟩

/-! ### Code that goes forward -/

/-- Every jump of the code names a label further behind or one that stands `ahead` of the code, or it is a `jmp` to a
label of those that may be gone `back` to. -/
inductive Forward (back : String → Prop) (ahead : List String) : List Instruction → Prop where
  | nil : Forward back ahead []
  | cons {i : Instruction} {code : List Instruction}
      (jump : ∀ name, i.jumpName? = some name → name ∈ definedLabels code ++ ahead ∨ i.opcode = .jmp ∧ back name)
      (rest : Forward back ahead code) : Forward back ahead (i :: code)

namespace Forward

variable {back back' : String → Prop} {ahead ahead' : List String} {first second code : List Instruction} {k n : Nat}
  {i : Instruction} {name : String}

theorem mono (h : Forward back ahead code) (hback : ∀ name, back name → back' name) (hahead : ahead ⊆ ahead') :
    Forward back' ahead' code := by
  induction h with
  | nil => exact .nil
  | cons jump _ ih =>
    refine .cons (fun name hname => ?_) ih
    rcases jump name hname with hmem | ⟨hjmp, hname⟩
    · rcases List.mem_append.mp hmem with hmem | hmem
      · exact .inl (List.mem_append_left _ hmem)
      · exact .inl (List.mem_append_right _ (hahead hmem))
    · exact .inr ⟨hjmp, hback name hname⟩

theorem append (h : Forward back (definedLabels second ++ ahead) first) (h' : Forward back ahead second) :
    Forward back ahead (first ++ second) := by
  induction h with
  | nil => exact h'
  | cons jump _ ih =>
    rw [List.cons_append]
    refine .cons (fun name hname => ?_) ih
    rw [definedLabels_append, List.append_assoc]
    exact jump name hname

/-- Code that jumps only to labels ahead of it. -/
theorem of_jumpsTo (h : ∀ i ∈ code, i.JumpsTo ahead) : Forward back ahead code := by
  induction code with
  | nil => exact .nil
  | cons i rest ih =>
    refine .cons (fun name hname => .inl ?_) (ih fun i hi => h i (List.mem_cons_of_mem _ hi))
    exact List.mem_append_right _ (h i List.mem_cons_self name hname)

/-- Code within other code, with the loops of that. -/
theorem within {oracle : Oracle} {loops loops' : List Stmt} {inner outer : Emitted}
    (h : Forward (LoopStart oracle loops inner) ahead code) (hloops : loops ⊆ loops') (hcode : inner <:+: outer) :
    Forward (LoopStart oracle loops' outer) ahead code :=
  h.mono (fun _ hname => hname.mono hloops hcode) (List.Subset.refl ahead)

theorem of_straight {code : Emitted} (h : code.All Instruction.Straight) : Forward back ahead (code.map Prod.fst) :=
  of_jumpsTo h.jumpsTo

/-- The jump at an index goes to a greater one, or out of the code, or back. -/
theorem at_index (h : Forward back ahead code) (hi : code[k]? = some i) (hname : i.jumpName? = some name) :
    (∃ j, k < j ∧ LabelAt code j name) ∨ name ∈ ahead ∨ i.opcode = .jmp ∧ back name := by
  induction h generalizing k with
  | nil => cases hi
  | @cons first rest jump _ ih =>
    cases k with
    | zero =>
      cases hi
      rcases jump name hname with hmem | hback
      · rcases List.mem_append.mp hmem with hmem | hmem
        · obtain ⟨j, label, hlabel⟩ := mem_definedLabels.mp hmem
          exact .inl ⟨j + 1, Nat.zero_lt_succ j, label, hlabel⟩
        · exact .inr (.inl hmem)
      · exact .inr (.inr hback)
    | succ k =>
      rcases ih hi with ⟨j, hj, label, hlabel⟩ | hrest
      · exact .inl ⟨j + 1, Nat.succ_lt_succ hj, label, hlabel⟩
      · exact .inr hrest

end Forward

/-! ### Statements -/

namespace Emitted

variable {back : String → Prop} {ahead : List String} {test yes no first body last : Emitted} {n : Nat}

theorem forward_label (name : String) (line : Nat) :
    Forward back ahead (List.map Prod.fst [(Instruction.label name, line)]) :=
  .of_jumpsTo (all_cons.mpr ⟨Instruction.jumpsTo_label name, all_nil.mpr trivial⟩)

theorem forward_choice (line : Nat) (htest : test.Exits (labelName n)) (hyes : Forward back [] (yes.map Prod.fst))
    (hno : Forward back [] (no.map Prod.fst)) :
    Forward back [] (List.map Prod.fst (test ++ yes ++ [(Instruction.jmp (labelName (n + 1)), line),
      (.label (labelName n), line)] ++ no ++ [(.label (labelName (n + 1)), line)])) := by
  simp only [List.map_append]
  have hyes' := fun ahead => hyes.mono (fun _ h => h) (List.nil_subset ahead)
  have hno' := fun ahead => hno.mono (fun _ h => h) (List.nil_subset ahead)
  refine .append (.append (.append (.append ?_ (hyes' _)) ?_) (hno' _)) (forward_label _ line)
  · exact .of_jumpsTo (htest.jumps (by simp [definedLabels_cons]))
  · refine .of_jumpsTo (all_cons.mpr ⟨?_, all_cons.mpr ⟨Instruction.jumpsTo_label _, all_nil.mpr trivial⟩⟩)
    exact Instruction.jumpsTo_jmp (by simp [definedLabels_cons])

theorem forward_loop (line : Nat) (hback : back (labelName n)) (hfirst : first.All Instruction.Straight)
    (htest : test.Exits (labelName (n + 1))) (hbody : Forward back [] (body.map Prod.fst))
    (hlast : last.All Instruction.Straight) :
    Forward back [] (List.map Prod.fst (first ++ [(Instruction.label (labelName n), line)] ++ test ++ body ++ last
      ++ [(.jmp (labelName n), line), (.label (labelName (n + 1)), line)])) := by
  simp only [List.map_append]
  have hbody' := fun ahead => hbody.mono (fun _ h => h) (List.nil_subset ahead)
  refine .append (.append (.append (.append (.append (.of_straight hfirst) (forward_label _ line)) ?_) (hbody' _))
    (.of_straight hlast)) ?_
  · exact .of_jumpsTo (htest.jumps (by simp [definedLabels_cons]))
  · refine .cons (fun name hname => .inr ⟨rfl, ?_⟩) (forward_label _ line)
    cases hname
    exact hback

end Emitted

namespace Stmt

variable {oracle : Oracle}

mutual

/-- The jumps of a statement go forward, or back to where one of its loops starts. -/
theorem forward_lower (s : Stmt) {n n' : Nat} {code : Emitted} (h : s.lower oracle n = .ok (code, n')) :
    Forward (LoopStart oracle s.loops code) [] (code.map Prod.fst) := by
  cases s with
  | declare type names span =>
    obtain ⟨ty, kind, literal, -, hkind, hliteral, rfl, -⟩ := lower_declare h
    obtain ⟨v, -, rfl, rfl⟩ := Value.default?_of_literal hkind hliteral
    exact .of_straight (over_defaults v).all
  | expr e span => exact .of_straight (over_discard (lower_expr h).1).all
  | block body span => exact forward_lowerAll body h
  | ifElse condition yes no span =>
    obtain ⟨test, yesCode, n₁, noCode, htest, hyes, hno, hcode⟩ := lower_ifElse h
    have hyesWithin : yesCode <:+: code := ⟨test, _, by rw [hcode]; simp only [List.append_assoc]; rfl⟩
    have hnoWithin : noCode <:+: code := ⟨_, _, hcode.symm⟩
    have hyes' := (forward_lower yes hyes).within (List.subset_append_left yes.loops no.loops) hyesWithin
    have hno' := (forward_lower no hno).within (List.subset_append_right yes.loops no.loops) hnoWithin
    have hall := Emitted.forward_choice span.line (exits_exitUnless htest) hyes' hno'
    rwa [← hcode] at hall
  | whileLoop condition body span =>
    obtain ⟨test, bodyCode, htest, hbody, hcode⟩ := lower_whileLoop h
    have hstart : LoopStart oracle (whileLoop condition body span).loops code (labelName n) :=
      ⟨_, List.mem_cons_self, n, n', code, h, List.infix_refl code, rfl, by simp [hcode]⟩
    have hloops := List.subset_cons_self (whileLoop condition body span) body.loops
    have hbody' := (forward_lower body hbody).within hloops ⟨_, _, hcode.symm⟩
    have hnil : Emitted.All Instruction.Straight [] := Emitted.all_nil.mpr trivial
    have hall := Emitted.forward_loop span.line hstart hnil (exits_exitUnless htest) hbody' hnil
    rwa [List.append_nil, List.nil_append, ← hcode] at hall
  | forLoop init condition update body span =>
    obtain ⟨initCode, test, bodyCode, updateCode, hinit, htest, hbody, hupdate, hcode⟩ := lower_forLoop h
    have hstart : LoopStart oracle (forLoop init condition update body span).loops code (labelName n) :=
      ⟨_, List.mem_cons_self, n, n', code, h, List.infix_refl code, rfl, by simp [hcode]⟩
    have hwithin : bodyCode <:+: code := ⟨_, _, (hcode.trans (List.append_assoc _ _ _)).symm⟩
    have hloops := List.subset_cons_self (forLoop init condition update body span) body.loops
    have hbody' := (forward_lower body hbody).within hloops hwithin
    have hall := Emitted.forward_loop span.line hstart (over_clauseCode hinit).all (exits_test htest) hbody'
      (over_clauseCode hupdate).all
    rwa [← hcode] at hall
  | read names span => exact .of_straight (over_reads (lower_read h).1).all
  | write exprs fits span =>
    obtain ⟨list, hlist, rfl, -⟩ := lower_write h
    refine .of_straight (Emitted.all_append.mpr ⟨(over_values hlist).all, ?_⟩)
    exact Emitted.all_cons.mpr ⟨.print fits, Emitted.all_nil.mpr trivial⟩
  | empty span =>
    cases h
    exact .nil

theorem forward_lowerAll (body : List Stmt) {n n' : Nat} {code : Emitted} (h : lowerAll oracle body n = .ok (code, n')) :
    Forward (LoopStart oracle (loopsAll body) code) [] (code.map Prod.fst) := by
  cases body with
  | nil =>
    cases h
    exact .nil
  | cons s rest =>
    obtain ⟨first, n₁, restCode, hs, hrest, rfl⟩ := lowerAll_cons h
    have hfirst := (forward_lower s hs).within (List.subset_append_left s.loops (loopsAll rest))
      (List.prefix_append first restCode).isInfix
    have hlast := (forward_lowerAll rest hrest).within (List.subset_append_right s.loops (loopsAll rest))
      (List.suffix_append first restCode).isInfix
    rw [List.map_append]
    exact (hfirst.mono (fun _ h => h) (List.nil_subset _)).append hlast

end

end Stmt

/-! ### Runs -/

/-- What follows the first of some steps. -/
theorem Image.Leads.rest {image : Image} {n r i j k : Nat} {m m₁ m₂ : Machine} (h : image.Leads n i m j m₁)
    (h' : image.Leads (n + r) i m k m₂) : image.Leads r j m₁ k m₂ := by
  induction h with
  | refl => rwa [Nat.zero_add] at h'
  | step first _ ih =>
    rw [Nat.add_right_comm] at h'
    obtain _ | ⟨first', rest'⟩ := h'
    cases first.symm.trans first'
    exact ih rest'

section

variable {back : String → Prop} {instructions : List Instruction} {table : List (Option Nat)} {image : Image}
  {i j k n n' target : Nat} {m m' m₁ m₂ : Machine}

/-- A jump of code that goes forward has a greater index than its own for a target, or goes back. -/
theorem Forward.target_cases (h : Forward back [] instructions) (htable : jumpTable instructions = .ok table)
    {i : Instruction} (hi : instructions[k]? = some i) (hk : table[k]? = some (some target)) :
    k < target ∨ i.opcode = .jmp ∧ ∃ name, LabelAt instructions target name ∧ back name := by
  obtain ⟨labels, -, hscanned, -⟩ := exists_scanned_of_jumpTable htable
  obtain ⟨target', hentry, hiff⟩ := jumpTable_entry htable hi
  obtain rfl : some target = target' := Option.some.inj (hk.symm.trans hentry)
  obtain ⟨name, hname, hat⟩ := (hiff target).mp rfl
  rcases h.at_index hi hname with ⟨j, hlt, hat'⟩ | hmem | ⟨hjmp, hback⟩
  · obtain rfl : target = j := hat.unique (fun l _ => hscanned.no_fault l) hat' hat.lt hat'.lt
    exact .inl hlt
  · cases hmem
  · exact .inr ⟨hjmp, name, hat, hback⟩

/-- A step goes to the next instruction or to where the jump table says. -/
theorem Image.index_of_step (htable : jumpTable instructions = .ok table) (hlink : link instructions = .ok image)
    (h : image.step j m = .running k m') : k = j + 1 ∨ table[j]? = some (some k) := by
  rw [link, Except.bind_ok htable] at hlink
  cases hlink
  unfold step at h
  split at h
  · cases h
  · cases h
  · rename_i operation hop
    have hop : (instructions.zipWith Instruction.decode table)[j]? = some (.ok operation) := by simpa using hop
    obtain ⟨i, target, -, htarget, hdecode⟩ := List.getElem?_zipWith_eq_some.mp hop
    split at h
    · cases h
      exact .inl rfl
    · rename_i hp
      cases h
      rcases (Exec.perform_eq_ok hp).flow with hnext | ⟨index, hindex, hgoto⟩
      · cases hnext
      · cases hgoto
        obtain rfl := Instruction.target_of_decode hdecode hindex
        exact .inr htarget
    · cases h

variable (htable : jumpTable instructions = .ok table) (hlink : Image.link instructions = .ok image)
  (hforward : ∀ k target : Nat, table[k]? = some (some target) → k < target)

include htable hlink hforward

/-- Where all jumps go forward, every step does. -/
theorem Image.Leads.add_le (h : image.Leads n i m j m') : i + n ≤ j := by
  induction h with
  | refl => exact Nat.le_refl _
  | @step n i k j m m₁ m' first _ ih =>
    have hlt : i < k := by
      rcases Image.index_of_step htable hlink first with rfl | hjump
      · exact Nat.lt_succ_self i
      · exact hforward i k hjump
    omega

/-- Steps from an instruction to itself would not go forward, so a run comes to it once at most. -/
theorem Image.Leads.le_of_index_eq (h : image.Leads n i m j m₁) (h' : image.Leads n' i m j m₂) : n' ≤ n := by
  by_contra hlt
  obtain ⟨r, rfl⟩ := Nat.exists_eq_add_of_le (Nat.le_of_not_le hlt)
  have hback := (h.rest h').add_le htable hlink hforward
  omega

theorem Image.exists_halt_of_forward (m : Machine) :
    ∃ halt, image.run? (instructions.length + 1) 0 m = some halt := by
  cases hrun : image.run? (instructions.length + 1) 0 m with
  | some halt => exact ⟨halt, rfl⟩
  | none =>
    obtain ⟨j, m₁, hleads⟩ := Image.run?_eq_none_iff.mp hrun
    obtain ⟨k, m₂, hleads, hlast⟩ := hleads.last
    -- After as many steps as there are instructions, there is none left to execute.
    have hend := hleads.add_le htable hlink hforward
    obtain ⟨i, hi, -⟩ := Image.moves_of_step hlink hlast
    have hlt := (List.getElem?_eq_some_iff.mp hi).1
    omega

end

namespace Program

variable {program : Program} {oracle : Oracle} {code : Code}

/-- The label at an index is the one that a loop of the program starts with: the code of the loop stands around it, and
of the labels that the loop takes it is the first. -/
def StartsLoop (program : Program) (oracle : Oracle) (code : Code) (index : Nat) : Prop :=
  ∃ loop ∈ program.loops, ∃ n n' before inner after, loop.lower oracle n = .ok (inner, n') ∧
    code = .ofPairs (before ++ inner ++ after) ∧
    ∃ k, (inner.map Prod.fst)[k]? = some (.label (labelName n)) ∧ index = before.length + k

theorem startsLoop_of_loopStart {emitted : Emitted} {table : List (Option Nat)} {index : Nat} {name : String}
    (htable : jumpTable (emitted.map Prod.fst) = .ok table) (hat : LabelAt (emitted.map Prod.fst) index name)
    (hstart : LoopStart oracle program.loops emitted name) : program.StartsLoop oracle (.ofPairs emitted) index := by
  obtain ⟨labels, -, hscanned, -⟩ := exists_scanned_of_jumpTable htable
  obtain ⟨loop, hloop, n, n', inner, hlower, ⟨before, after, rfl⟩, rfl, hlabel⟩ := hstart
  obtain ⟨k, hk⟩ := List.getElem?_of_mem hlabel
  refine ⟨loop, hloop, n, n', before, inner, after, hlower, rfl, k, hk, ?_⟩
  have hat' : LabelAt ((before ++ inner ++ after).map Prod.fst) (before.length + k) (labelName n) := by
    refine ⟨.label (labelName n), ?_, rfl⟩
    have hlt := (List.getElem?_eq_some_iff.mp hk).1
    rw [List.append_assoc, List.map_append, List.map_append, List.getElem?_append_right (by simp), List.length_map,
      Nat.add_sub_cancel_left, List.getElem?_append_left hlt, hk]
  exact hat.unique (fun l _ => hscanned.no_fault l) hat' hat.lt hat'.lt

/-- Only loops jump back. In generated code every `fjmp` goes forward, and a `jmp` that does not goes to the label that a
`while` or `for` statement of the program starts with. Without such statements all jumps go forward; a run then halts,
with one step at most for each instruction and never two for the same. -/
theorem only_loops_jump_back (h : program.lower oracle = .ok code) :
    ∃ table, jumpTable code.instructions = .ok table ∧
      (∀ (k : Nat) (i : Instruction) (target : Nat), code.instructions[k]? = some i → table[k]? = some (some target) →
        (i.opcode = .fjmp → k < target) ∧
        (i.opcode = .jmp → target ≤ k → program.StartsLoop oracle code target)) ∧
      (program.loops = [] →
        (∀ k target : Nat, table[k]? = some (some target) → k < target) ∧
        ∀ m : Machine, (∃ halt, m.run? (code.size + 1) code.instructions = some halt) ∧
          ∀ n n' j m₁ m₂, m.Reaches code.instructions n j m₁ → m.Reaches code.instructions n' j m₂ → n = n') := by
  obtain ⟨image, hlink⟩ := link_of_lower h
  obtain ⟨emitted, n, hemitted, rfl⟩ := lower_eq_ok h
  obtain ⟨table, htable, -⟩ := Except.bind_eq_ok.mp hlink
  have hforward := Stmt.forward_lowerAll program hemitted
  refine ⟨table, htable, fun k i target hi hk => ⟨fun hfjmp => ?_, fun _ hle => ?_⟩, fun hfree => ?_⟩
  · rcases hforward.target_cases htable hi hk with hlt | ⟨hjmp, -⟩
    · exact hlt
    · rw [hfjmp] at hjmp
      cases hjmp
  · rcases hforward.target_cases htable hi hk with hlt | ⟨-, name, hat, hback⟩
    · exact absurd hlt (Nat.not_lt_of_le hle)
    · exact startsLoop_of_loopStart htable hat hback
  · have hall : ∀ k target : Nat, table[k]? = some (some target) → k < target := by
      intro k target hk
      obtain ⟨labels, htargets, -⟩ := exists_scanned_of_jumpTable htable
      have hlength := Labels.targets_length htargets
      have hlt : k < (Code.ofPairs emitted).instructions.length := hlength ▸ (List.getElem?_eq_some_iff.mp hk).1
      rcases hforward.target_cases htable (List.getElem?_eq_getElem hlt) hk with hlt | ⟨-, name, -, loop, hloop, -⟩
      · exact hlt
      · have hloop : loop ∈ program.loops := hloop
        rw [hfree] at hloop
        cases hloop
    refine ⟨hall, fun m => ⟨?_, ?_⟩⟩
    · rw [Machine.run?, hlink]
      exact Image.exists_halt_of_forward htable hlink hall m.reset
    · rintro n n' j m₁ m₂ ⟨image₁, hlink₁, hleads₁⟩ ⟨image₂, hlink₂, hleads₂⟩
      cases hlink.symm.trans hlink₁
      cases hlink.symm.trans hlink₂
      exact Nat.le_antisymm (hleads₂.le_of_index_eq htable hlink hall hleads₁)
        (hleads₁.le_of_index_eq htable hlink hall hleads₂)

/-- `while (true) ;` -/
def spinning : Program :=
  [.whileLoop (.bool true .unknown) (.empty .unknown) .unknown]

/-- `if (false) ; else { if (true) write 1; }` -/
def choosing : Program :=
  [.ifElse (.bool false .unknown) (.empty .unknown)
    (.block [.ifElse (.bool true .unknown) (.writing (.int 1 .unknown)) (.empty .unknown) .unknown] .unknown) .unknown]

theorem only_loops_jump_back_spinning :
    (∃ code, spinning.lower SymbolTable.empty.typeOf = .ok code ∧ code.instructions[3]? = some (.jmp "L0") ∧
      spinning.StartsLoop SymbolTable.empty.typeOf code 0) ∧
    ∃ code, choosing.lower SymbolTable.empty.typeOf = .ok code ∧ choosing.loops = [] ∧
      ∀ m : Machine, ∃ halt, m.run? (code.size + 1) code.instructions = some halt := by
  obtain ⟨code, hcode, hjmp, htable⟩ : ∃ code, spinning.lower SymbolTable.empty.typeOf = .ok code ∧
      code.instructions[3]? = some (.jmp "L0") ∧
      jumpTable code.instructions = .ok [none, none, some 4, some 0, none] := ⟨_, rfl, rfl, rfl⟩
  obtain ⟨code', hcode'⟩ : ∃ code, choosing.lower SymbolTable.empty.typeOf = .ok code := ⟨_, rfl⟩
  obtain ⟨table, htable', hback, -⟩ := only_loops_jump_back hcode
  obtain ⟨_, -, -, hfree⟩ := only_loops_jump_back hcode'
  cases htable'.symm.trans htable
  exact ⟨⟨code, hcode, hjmp, (hback 3 _ 0 hjmp rfl).2 rfl (Nat.zero_le 3)⟩, code', hcode', rfl, fun m =>
    ((hfree rfl).2 m).1⟩

end Program

end StackMachine
