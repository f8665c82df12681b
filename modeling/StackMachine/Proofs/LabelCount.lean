import StackMachine.Proofs.Labelling

/-! How many labels a program takes.

An `if` and a loop take two label numbers each, whatever stands in them, and no other statement takes any. So the
labels of generated code are numbered from zero without a gap, and the code passes the check of labels and jumps. Main
statement: `Program.labels_numbered`. -/

namespace StackMachine

open Lowering

namespace Stmt

mutual

/-- The number of `if`, `while` and `for` statements in a statement, at any depth. -/
def branchings : Stmt → Nat
  | .block body _ => branchingsAll body
  | .ifElse _ yes no _ => 1 + yes.branchings + no.branchings
  | .whileLoop _ body _ | .forLoop _ _ _ body _ => 1 + body.branchings
  | .declare _ _ _ | .expr _ _ | .read _ _ | .write _ _ _ | .empty _ => 0

def branchingsAll : List Stmt → Nat
  | [] => 0
  | s :: rest => s.branchings + branchingsAll rest

end

variable {oracle : Oracle}

mutual

theorem next_of_lower (s : Stmt) {n n' : Nat} {code : Emitted} (h : s.lower oracle n = .ok (code, n')) :
    n' = n + 2 * s.branchings := by
  cases s with
  | declare type names span =>
    obtain ⟨_, _, _, _, _, _, _, hn⟩ := lower_declare h
    exact hn
  | expr e span => exact (lower_expr h).2
  | block body span => exact next_of_lowerAll body h
  | ifElse condition yes no span =>
    obtain ⟨test, yesCode, n₁, noCode, -, hyes, hno, -⟩ := lower_ifElse h
    have hn₁ := next_of_lower yes hyes
    have hn' := next_of_lower no hno
    rw [branchings]
    omega
  | whileLoop condition body span =>
    obtain ⟨test, bodyCode, -, hbody, -⟩ := lower_whileLoop h
    have hn' := next_of_lower body hbody
    rw [branchings]
    omega
  | forLoop init condition update body span =>
    obtain ⟨initCode, test, bodyCode, updateCode, -, -, hbody, -, -⟩ := lower_forLoop h
    have hn' := next_of_lower body hbody
    rw [branchings]
    omega
  | read names span => exact (lower_read h).2
  | write exprs fits span =>
    obtain ⟨list, -, -, hn⟩ := lower_write h
    exact hn
  | empty span =>
    cases h
    rfl

theorem next_of_lowerAll (body : List Stmt) {n n' : Nat} {code : Emitted}
    (h : lowerAll oracle body n = .ok (code, n')) : n' = n + 2 * branchingsAll body := by
  cases body with
  | nil =>
    cases h
    rfl
  | cons s rest =>
    obtain ⟨first, n₁, restCode, hs, hrest, -⟩ := lowerAll_cons h
    have hn₁ := next_of_lower s hs
    have hn' := next_of_lowerAll rest hrest
    rw [branchingsAll]
    omega

end

end Stmt

/-- The number of `if`, `while` and `for` statements of a program, at any depth. -/
def Program.branchings (program : Program) : Nat :=
  Stmt.branchingsAll program

/-! ### The label instructions -/

theorem operand_of_labels {instructions : List Instruction} (named : ∀ i ∈ instructions, i.Named) :
    (instructions.filter fun i => i.opcode = .label).map Instruction.operand =
      (definedLabels instructions).map some := by
  induction instructions with
  | nil => rfl
  | cons i rest ih =>
    have hrest := ih fun i hi => named i (List.mem_cons_of_mem _ hi)
    by_cases hop : i.opcode = .label
    · obtain ⟨name, hname⟩ := Option.isSome_iff_exists.mp (named i List.mem_cons_self (.inl hop))
      have hlabel : i.labelName? = some name := by simp [Instruction.labelName?, hop, hname]
      simp [definedLabels_cons, hop, hname, hlabel, hrest]
    · have hlabel : i.labelName? = none := by simp [Instruction.labelName?, hop]
      simp [definedLabels_cons, hop, hlabel, hrest]

namespace Program

variable {program : Program} {oracle : Oracle} {code : Code}

/-- The label instructions of generated code are named by the numbers below twice the number of branchings, each once.
Its jumps go to no others, and its labels and jumps are in order. -/
theorem labels_numbered (h : program.lower oracle = .ok code) :
    ((code.instructions.filter fun i => i.opcode = .label).map Instruction.operand).Perm
      ((List.range (2 * program.branchings)).map fun n => some ("L" ++ toString n)) ∧
    ((code.instructions.filter fun i => i.opcode = .label).map Instruction.operand).Nodup ∧
    (∀ i ∈ code.instructions, i.opcode.isJump →
      ∃ n < 2 * program.branchings, i.operand = some ("L" ++ toString n)) ∧
    checkLabels code.instructions = .ok () := by
  obtain ⟨image, hlink⟩ := link_of_lower h
  obtain ⟨emitted, n, hemitted, rfl⟩ := lower_eq_ok h
  have hlabels := Stmt.labelled_lowerAll program hemitted
  have hnamed : ∀ i ∈ (Code.ofPairs emitted).instructions, i.Named := fun i hi =>
    ((Stmt.over_lowerAll program hemitted).all i hi).named
  have hn : n = 2 * program.branchings := by
    rw [Stmt.next_of_lowerAll program hemitted, Nat.zero_add, branchings]
  have hnames : labelNames 0 n = (List.range (2 * program.branchings)).map labelName := by
    rw [labelNames, hn, Nat.sub_zero, List.range_eq_range']
  rw [operand_of_labels hnamed]
  refine ⟨?_, ?_, fun i hi hjump => ?_, checkLabels_of_link hlink⟩
  · have hmap := hlabels.defined.map some
    rw [hnames, List.map_map] at hmap
    exact hmap
  · have hnodup := hlabels.defined.nodup_iff.mpr (nodup_labelNames 0 n)
    exact hnodup.map fun _ _ => Option.some.inj
  · obtain ⟨name, hname⟩ := Option.isSome_iff_exists.mp (hnamed i hi (.inr hjump))
    have hmem : name ∈ labelNames 0 n := hlabels.jumps i hi name (by simp [Instruction.jumpName?, hjump, hname])
    rw [hnames] at hmem
    obtain ⟨k, hk, rfl⟩ := List.mem_map.mp hmem
    exact ⟨k, List.mem_range.mp hk, hname⟩

/-- `if (true) while (false) ; else for (;;) if (false) ;` -/
def nesting : Program :=
  [.ifElse (.bool true .unknown) (.whileLoop (.bool false .unknown) (.empty .unknown) .unknown)
    (.forLoop none none none (.ifElse (.bool false .unknown) (.empty .unknown) (.empty .unknown) .unknown) .unknown)
    .unknown]

theorem labels_numbered_nesting :
    ∃ code, nesting.lower SymbolTable.empty.typeOf = .ok code ∧
      ((code.instructions.filter fun i => i.opcode = .label).map Instruction.operand).Perm
        [some "L0", some "L1", some "L2", some "L3", some "L4", some "L5", some "L6", some "L7"] ∧
      checkLabels code.instructions = .ok () := by
  obtain ⟨code, hcode⟩ : ∃ code, nesting.lower SymbolTable.empty.typeOf = .ok code := ⟨_, rfl⟩
  obtain ⟨hperm, -, -, hcheck⟩ := labels_numbered hcode
  exact ⟨code, hcode, hperm, hcheck⟩

end Program

end StackMachine
