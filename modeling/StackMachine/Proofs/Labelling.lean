import StackMachine.Proofs.Generated

/-! The labels of generated code.

A statement is given a number to start its labels with and gives back the number after the last one. In between, every
number is the name of one label of its code, and its jumps go to no others. So the code of a whole program can be
linked. -/

namespace StackMachine

open Lowering

namespace Lowering

theorem labelName_injective : Function.Injective labelName := by
  intro m n h
  have hrepr : m.repr.toList = n.repr.toList := by
    have h := congrArg String.toList h
    rw [labelName, labelName, String.toList_append, String.toList_append] at h
    exact List.append_cancel_left h
  have hm := Text.natural?_repr m
  rw [hrepr, Text.natural?_repr n] at hm
  exact (Option.some.inj hm).symm

/-- The label names with the numbers from `n` to before `n'`. -/
def labelNames (n n' : Nat) : List String :=
  (List.range' n (n' - n)).map labelName

variable {n n₁ n' : Nat}

@[simp] theorem labelNames_self (n : Nat) : labelNames n n = [] := by
  simp [labelNames]

theorem labelNames_append (h : n ≤ n₁) (h' : n₁ ≤ n') : labelNames n n₁ ++ labelNames n₁ n' = labelNames n n' := by
  obtain ⟨a, rfl⟩ := Nat.exists_eq_add_of_le h
  obtain ⟨b, rfl⟩ := Nat.exists_eq_add_of_le h'
  have hcount : n + a + b - n = a + b := by omega
  rw [labelNames, labelNames, labelNames, hcount, Nat.add_sub_cancel_left, Nat.add_sub_cancel_left, ← List.map_append,
    List.range'_append_1]

/-- The two labels that an `if` or a loop takes for itself come first. -/
theorem labelNames_two (h : n + 2 ≤ n') : labelNames n n' = labelName n :: labelName (n + 1) :: labelNames (n + 2) n' := by
  obtain ⟨a, rfl⟩ := Nat.exists_eq_add_of_le h
  have hcount : n + 2 + a - n = a + 1 + 1 := by omega
  rw [labelNames, labelNames, hcount, Nat.add_sub_cancel_left, List.range'_succ, List.range'_succ]
  rfl

theorem nodup_labelNames (n n' : Nat) : (labelNames n n').Nodup := by
  have hnodup : (List.range' n (n' - n)).Nodup := List.nodup_range'
  exact hnodup.map labelName_injective

end Lowering

namespace Instruction

variable {i : Instruction} {names more : List String}

@[simp] theorem labelName?_label (name : String) : (label name).labelName? = some name := rfl

@[simp] theorem labelName?_jmp (name : String) : (jmp name).labelName? = none := rfl

@[simp] theorem labelName?_fjmp (name : String) : (fjmp name).labelName? = none := rfl

/-- An instruction that jumps, if at all, to one of some labels. -/
def JumpsTo (names : List String) (i : Instruction) : Prop :=
  ∀ name, i.jumpName? = some name → name ∈ names

theorem JumpsTo.mono (h : i.JumpsTo names) (hsub : names ⊆ more) : i.JumpsTo more :=
  fun name hname => hsub (h name hname)

theorem Straight.jumpsTo (h : i.Straight) : i.JumpsTo names := by
  intro name hname
  rw [jumpName?, h.isJump] at hname
  cases hname

theorem jumpsTo_label (name : String) : (label name).JumpsTo names := by
  rintro other ⟨⟩

theorem jumpsTo_jmp {name : String} (h : name ∈ names) : (jmp name).JumpsTo names := by
  rintro other ⟨⟩
  exact h

theorem jumpsTo_fjmp {name : String} (h : name ∈ names) : (fjmp name).JumpsTo names := by
  rintro other ⟨⟩
  exact h

end Instruction

/-- Code whose labels have the numbers from `n` to before `n'`, each once, and that jumps to no others. -/
structure Emitted.Labelled (n n' : Nat) (code : Emitted) : Prop where
  le : n ≤ n'
  defined : (definedLabels (code.map Prod.fst)).Perm (labelNames n n')
  jumps : code.All (Instruction.JumpsTo (labelNames n n'))

namespace Emitted

variable {n n₁ n' : Nat} {first second code test yes no body last : Emitted} {line : Nat}

theorem All.definedLabels_eq_nil (h : code.All Instruction.Straight) : definedLabels (code.map Prod.fst) = [] :=
  List.filterMap_eq_nil_iff.mpr fun i hi => (h i hi).labelName?

theorem All.jumpsTo {names : List String} (h : code.All Instruction.Straight) : code.All (Instruction.JumpsTo names) :=
  h.imp fun _ hi => hi.jumpsTo

theorem Labelled.of_straight (h : code.All Instruction.Straight) (n : Nat) : code.Labelled n n :=
  ⟨Nat.le_refl n, by rw [h.definedLabels_eq_nil, labelNames_self], h.jumpsTo⟩

theorem Labelled.append (h : first.Labelled n n₁) (h' : second.Labelled n₁ n') : (first ++ second).Labelled n n' := by
  have hnames := labelNames_append h.le h'.le
  refine ⟨h.le.trans h'.le, ?_, all_append.mpr ⟨?_, ?_⟩⟩
  · rw [List.map_append, definedLabels_append, ← hnames]
    exact h.defined.append h'.defined
  · exact h.jumps.imp fun i hi => hi.mono (hnames ▸ List.subset_append_left _ _)
  · exact h'.jumps.imp fun i hi => hi.mono (hnames ▸ List.subset_append_right _ _)

/-- Code without labels that leaves, if at all, for one label. -/
def Exits (name : String) (code : Emitted) : Prop :=
  definedLabels (code.map Prod.fst) = [] ∧ code.All (Instruction.JumpsTo [name])

theorem Exits.jumps {name : String} {names : List String} (h : test.Exits name) (hname : name ∈ names) :
    test.All (Instruction.JumpsTo names) :=
  h.2.imp fun _ hi => hi.mono (List.cons_subset.mpr ⟨hname, List.nil_subset names⟩)

/-- Code around other code, with two labels of its own. -/
theorem Labelled.around {inner : Emitted} (hinner : inner.Labelled (n + 2) n')
    (hdefined : (definedLabels (code.map Prod.fst)).Perm
      (labelName n :: labelName (n + 1) :: definedLabels (inner.map Prod.fst)))
    (hjumps : ∀ names, labelName n ∈ names → labelName (n + 1) ∈ names → inner.All (Instruction.JumpsTo names) →
      code.All (Instruction.JumpsTo names)) : code.Labelled n n' := by
  have hnames := labelNames_two hinner.le
  refine ⟨(Nat.le_add_right n 2).trans hinner.le, ?_, ?_⟩
  · rw [hnames]
    exact hdefined.trans ((hinner.defined.cons _).cons _)
  · have hsub : labelNames (n + 2) n' ⊆ labelNames n n' := by
      rw [hnames]
      exact List.subset_cons_of_subset _ (List.subset_cons_self _ _)
    refine hjumps _ ?_ ?_ (hinner.jumps.imp fun i hi => hi.mono hsub)
    · rw [hnames]
      exact List.mem_cons_self
    · rw [hnames]
      exact List.mem_cons_of_mem _ List.mem_cons_self

theorem Labelled.choice (htest : test.Exits (labelName n)) (hyes : yes.Labelled (n + 2) n₁) (hno : no.Labelled n₁ n') :
    Labelled n n' (test ++ yes ++ [(.jmp (labelName (n + 1)), line), (.label (labelName n), line)] ++ no
      ++ [(.label (labelName (n + 1)), line)]) := by
  refine (hyes.append hno).around ?_ fun names hn hn' hinner => ?_
  · have hcode : definedLabels (List.map Prod.fst (test ++ yes ++ [(.jmp (labelName (n + 1)), line),
        (.label (labelName n), line)] ++ no ++ [(.label (labelName (n + 1)), line)])) =
        definedLabels (yes.map Prod.fst) ++ labelName n :: (definedLabels (no.map Prod.fst) ++ [labelName (n + 1)]) := by
      simp [definedLabels_cons, htest.1]
    rw [hcode, List.map_append, definedLabels_append]
    refine List.perm_middle.trans (List.Perm.cons _ ?_)
    rw [← List.append_assoc]
    exact List.perm_append_singleton _ _
  · obtain ⟨jumpsYes, jumpsNo⟩ := all_append.mp hinner
    simp only [all_append, all_cons, all_nil, and_true]
    exact ⟨⟨⟨⟨htest.jumps hn, jumpsYes⟩, Instruction.jumpsTo_jmp hn', Instruction.jumpsTo_label _⟩, jumpsNo⟩,
      Instruction.jumpsTo_label _⟩

theorem Labelled.loop (line : Nat) (hfirst : first.All Instruction.Straight) (htest : test.Exits (labelName (n + 1)))
    (hbody : body.Labelled (n + 2) n') (hlast : last.All Instruction.Straight) :
    Labelled n n' (first ++ [(.label (labelName n), line)] ++ test ++ body ++ last
      ++ [(.jmp (labelName n), line), (.label (labelName (n + 1)), line)]) := by
  refine hbody.around ?_ fun names hn hn' hinner => ?_
  · have hcode : definedLabels (List.map Prod.fst (first ++ [(.label (labelName n), line)] ++ test ++ body ++ last
        ++ [(.jmp (labelName n), line), (.label (labelName (n + 1)), line)])) =
        labelName n :: (definedLabels (body.map Prod.fst) ++ [labelName (n + 1)]) := by
      simp [definedLabels_cons, hfirst.definedLabels_eq_nil, htest.1, hlast.definedLabels_eq_nil]
    rw [hcode]
    exact (List.perm_append_singleton _ _).cons _
  · simp only [all_append, all_cons, all_nil, and_true]
    exact ⟨⟨⟨⟨⟨hfirst.jumpsTo, Instruction.jumpsTo_label _⟩, htest.jumps hn'⟩, hinner⟩, hlast.jumpsTo⟩,
      Instruction.jumpsTo_jmp hn, Instruction.jumpsTo_label _⟩

end Emitted

namespace Lowering

variable {oracle : Oracle} {e : Expr} {code : Emitted} {name : String} {line : Nat}

theorem exits_exitUnless (h : exitUnless oracle e name line = .ok code) : code.Exits name := by
  obtain ⟨l, hl, rfl⟩ := exitUnless_eq_ok h
  refine ⟨?_, Emitted.all_append.mpr ⟨hl.all_straight.jumpsTo, ?_⟩⟩
  · simp [definedLabels_cons, hl.all_straight.definedLabels_eq_nil]
  · exact Emitted.all_cons.mpr ⟨Instruction.jumpsTo_fjmp (List.mem_singleton.mpr rfl), Emitted.all_nil.mpr trivial⟩

/-- The test of a loop, which may be missing. -/
theorem exits_test {condition : Option Expr}
    (h : (condition.elim (.ok []) fun e => exitUnless oracle e name line) = .ok code) : code.Exits name := by
  cases condition with
  | none =>
    cases h
    exact ⟨rfl, Emitted.all_nil.mpr trivial⟩
  | some e => exact exits_exitUnless h

end Lowering

namespace Stmt

variable {oracle : Oracle}

mutual

theorem labelled_lower (s : Stmt) {n n' : Nat} {code : Emitted} (h : s.lower oracle n = .ok (code, n')) :
    code.Labelled n n' := by
  cases s with
  | declare type names span =>
    obtain ⟨ty, kind, literal, -, hkind, hliteral, rfl, rfl⟩ := lower_declare h
    obtain ⟨v, -, rfl, rfl⟩ := Value.default?_of_literal hkind hliteral
    exact .of_straight (over_defaults v).all n'
  | expr e span =>
    obtain ⟨hcode, rfl⟩ := lower_expr h
    exact .of_straight (over_discard hcode).all n'
  | block body span => exact labelled_lowerAll body h
  | ifElse condition yes no span =>
    obtain ⟨test, yesCode, n₁, noCode, htest, hyes, hno, rfl⟩ := lower_ifElse h
    exact .choice (exits_exitUnless htest) (labelled_lower yes hyes) (labelled_lower no hno)
  | whileLoop condition body span =>
    obtain ⟨test, bodyCode, htest, hbody, rfl⟩ := lower_whileLoop h
    have hnil : Emitted.All Instruction.Straight [] := Emitted.all_nil.mpr trivial
    have hcode := Emitted.Labelled.loop span.line hnil (exits_exitUnless htest) (labelled_lower body hbody) hnil
    rwa [List.append_nil] at hcode
  | forLoop init condition update body span =>
    obtain ⟨initCode, test, bodyCode, updateCode, hinit, htest, hbody, hupdate, rfl⟩ := lower_forLoop h
    exact .loop span.line (over_clauseCode hinit).all (exits_test htest) (labelled_lower body hbody)
      (over_clauseCode hupdate).all
  | read names span =>
    obtain ⟨hcode, rfl⟩ := lower_read h
    exact .of_straight (over_reads hcode).all n'
  | write exprs fits span =>
    obtain ⟨list, hlist, rfl, rfl⟩ := lower_write h
    refine .of_straight (Emitted.all_append.mpr ⟨(over_values hlist).all, ?_⟩) n'
    exact Emitted.all_cons.mpr ⟨.print fits, Emitted.all_nil.mpr trivial⟩
  | empty span =>
    cases h
    exact .of_straight (Emitted.all_nil.mpr trivial) n

theorem labelled_lowerAll (body : List Stmt) {n n' : Nat} {code : Emitted} (h : lowerAll oracle body n = .ok (code, n')) :
    code.Labelled n n' := by
  cases body with
  | nil =>
    cases h
    exact .of_straight (Emitted.all_nil.mpr trivial) n
  | cons s rest =>
    obtain ⟨first, n₁, restCode, hs, hrest, rfl⟩ := lowerAll_cons h
    exact (labelled_lower s hs).append (labelled_lowerAll rest hrest)

end

end Stmt

namespace Instruction

variable {i : Instruction}

theorem Generated.named (h : i.Generated) : i.Named := by
  cases h with
  | straight h =>
    rintro (hlabel | hjump)
    · exact absurd (hlabel ▸ rfl) h.shape_ne_label
    · rw [h.isJump] at hjump
      cases hjump
  | label | jmp | fjmp => exact fun _ => rfl

end Instruction

namespace Program

variable {program : Program} {oracle : Oracle} {code : Code}

/-- The labels of generated code are in order, whatever the oracle answers. -/
theorem link_of_lower (h : program.lower oracle = .ok code) : ∃ image, Image.link code.instructions = .ok image := by
  obtain ⟨emitted, n, hemitted, rfl⟩ := lower_eq_ok h
  have hlabels := Stmt.labelled_lowerAll program hemitted
  refine Image.link_ok (fun i hi => ?_) ?_ fun i hi name hname => ?_
  · exact ((Stmt.over_lowerAll program hemitted).all i hi).named
  · exact hlabels.defined.nodup_iff.mpr (nodup_labelNames 0 n)
  · exact hlabels.defined.mem_iff.mpr (hlabels.jumps i hi name hname)

end Program

end StackMachine
