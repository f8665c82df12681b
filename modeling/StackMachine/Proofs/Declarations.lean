import StackMachine.Proofs.Checking

/-! The declarations of a program, at any depth.

The check of a statement puts into the symbol table what the declarations of the statement say, and nothing else. A
declaration is guarded if whether it is executed, or how often, depends on a condition. -/

namespace StackMachine

structure Declaration where
  type : TypeName
  names : List String
  span : Span

def Declaration.isFile (d : Declaration) : Bool :=
  d.type.keyword = Ty.file.keyword

namespace Stmt

mutual

/-- The declarations in a statement, in source order. -/
def declarations : Stmt → List Declaration
  | .declare type names span => [⟨type, names, span⟩]
  | .block body _ => declarationsAll body
  | .ifElse _ yes no _ => yes.declarations ++ no.declarations
  | .whileLoop _ body _ | .forLoop _ _ _ body _ => body.declarations
  | .expr _ _ | .read _ _ | .write _ _ _ | .empty _ => []

def declarationsAll : List Stmt → List Declaration
  | [] => []
  | s :: rest => s.declarations ++ declarationsAll rest

end

mutual

/-- The declarations in a statement that lie inside a branch of an `if` or the body of a loop. -/
def guardedDeclarations : Stmt → List Declaration
  | .block body _ => guardedDeclarationsAll body
  | .ifElse _ yes no _ => yes.declarations ++ no.declarations
  | .whileLoop _ body _ | .forLoop _ _ _ body _ => body.declarations
  | .declare _ _ _ | .expr _ _ | .read _ _ | .write _ _ _ | .empty _ => []

def guardedDeclarationsAll : List Stmt → List Declaration
  | [] => []
  | s :: rest => s.guardedDeclarations ++ guardedDeclarationsAll rest

end

mutual

theorem guardedDeclarations_subset (s : Stmt) : s.guardedDeclarations ⊆ s.declarations := by
  cases s with
  | block body span => exact guardedDeclarationsAll_subset body
  | ifElse | whileLoop | forLoop => exact List.Subset.refl _
  | declare | expr | read | write | empty => exact List.nil_subset _

theorem guardedDeclarationsAll_subset (body : List Stmt) : guardedDeclarationsAll body ⊆ declarationsAll body := by
  cases body with
  | nil => exact List.Subset.refl []
  | cons s rest =>
    refine List.append_subset.mpr ⟨?_, ?_⟩
    · exact List.Subset.trans (guardedDeclarations_subset s) (List.subset_append_left _ _)
    · exact List.Subset.trans (guardedDeclarationsAll_subset rest) (List.subset_append_right _ _)

end

end Stmt

/-- The declarations of a program, in source order. -/
def Program.declarations (program : Program) : List Declaration :=
  Stmt.declarationsAll program

/-- The declarations of a program that lie inside a branch of an `if` or the body of a loop. -/
def Program.guardedDeclarations (program : Program) : List Declaration :=
  Stmt.guardedDeclarationsAll program

/-! ### What a check declares -/

theorem Ty.ofKeyword?_eq_some {keyword : String} {ty : Ty} : ofKeyword? keyword = some ty ↔ ty.keyword = keyword := by
  constructor
  · intro h
    simpa using List.find?_some h
  · rintro rfl
    cases ty <;> rfl

/-- A declaration is one of a file exactly if its keyword names that type. -/
theorem Declaration.isFile_iff {d : Declaration} : d.isFile = true ↔ Ty.ofKeyword? d.type.keyword = some .file := by
  rw [isFile, decide_eq_true_iff, Ty.ofKeyword?_eq_some, eq_comm]

/-- Some declaration of a list gives a variable a type. -/
def Declares (declarations : List Declaration) (name : String) (ty : Ty) : Prop :=
  ∃ d ∈ declarations, name ∈ d.names ∧ Ty.ofKeyword? d.type.keyword = some ty

theorem Declares.mono {ds ds' : List Declaration} {name : String} {ty : Ty} (hs : ds ⊆ ds') (h : Declares ds name ty) :
    Declares ds' name ty := by
  obtain ⟨d, hd, h⟩ := h
  exact ⟨d, hs hd, h⟩

namespace SymbolTable

variable {table table' : SymbolTable} {name name' : String} {ty ty' : Ty} {span : Span}

theorem HasType.of_declare (hd : table.declare name ty span = .ok table') (h : table'.HasType name' ty') :
    table.HasType name' ty' ∨ name' = name ∧ ty' = ty := by
  unfold declare at hd
  split at hd
  · cases hd
  · cases hd
    obtain ⟨symbol, hs, rfl⟩ := h
    rw [find?, List.find?_append, Option.or_eq_some_iff] at hs
    rcases hs with hs | ⟨-, hs⟩
    · exact Or.inl ⟨symbol, hs, rfl⟩
    · obtain rfl : symbol = ⟨name, ty, span⟩ := List.mem_singleton.mp (List.mem_of_find?_eq_some hs)
      have hname : name = name' := by simpa using List.find?_some hs
      exact Or.inr ⟨hname.symm, rfl⟩

theorem HasType.of_declareAll {names : List String} (h : (table.declareAll ty span names).1.HasType name' ty') :
    table.HasType name' ty' ∨ name' ∈ names ∧ ty' = ty := by
  induction names generalizing table with
  | nil => exact Or.inl h
  | cons name rest ih =>
    rw [declareAll] at h
    split at h
    · rename_i table' hd
      rcases ih h with h | ⟨hmem, rfl⟩
      · rcases h.of_declare hd with h | ⟨rfl, rfl⟩
        · exact Or.inl h
        · exact Or.inr ⟨List.mem_cons_self, rfl⟩
      · exact Or.inr ⟨List.mem_cons_of_mem _ hmem, rfl⟩
    · exact (ih h).imp_right (And.imp_left (List.mem_cons_of_mem _))

end SymbolTable

namespace Stmt

variable {name : String} {ty : Ty}

mutual

theorem hasType_of_check (s : Stmt) {table : SymbolTable} (h : (s.check table).1.HasType name ty) :
    table.HasType name ty ∨ Declares s.declarations name ty := by
  cases s with
  | declare type names span =>
    rw [check] at h
    split at h
    · rename_i declared hty
      rcases h.of_declareAll with h | ⟨hmem, rfl⟩
      · exact Or.inl h
      · exact Or.inr ⟨_, List.mem_singleton_self _, hmem, hty⟩
    · exact Or.inl h
  | block body span => exact hasType_of_checkAll body h
  | ifElse condition yes no span =>
    rcases hasType_of_check no h with h | h
    · exact (hasType_of_check yes h).imp_right (Declares.mono (List.subset_append_left _ _))
    · exact Or.inr (h.mono (List.subset_append_right _ _))
  | whileLoop condition body span => exact hasType_of_check body h
  | forLoop init condition update body span => exact hasType_of_check body h
  | expr | read | write | empty => exact Or.inl h

theorem hasType_of_checkAll (body : List Stmt) {table : SymbolTable} (h : (checkAll body table).1.HasType name ty) :
    table.HasType name ty ∨ Declares (declarationsAll body) name ty := by
  cases body with
  | nil => exact Or.inl h
  | cons s rest =>
    rcases hasType_of_checkAll rest h with h | h
    · exact (hasType_of_check s h).imp_right (Declares.mono (List.subset_append_left _ _))
    · exact Or.inr (h.mono (List.subset_append_right _ _))

end

end Stmt

end StackMachine
