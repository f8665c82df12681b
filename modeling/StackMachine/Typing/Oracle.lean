import StackMachine.Typing.Infer

/-!
Where the code generator gets types from.

An oracle is asked for the types of variables, and before the operands of an operator are lowered also for the types of
these. Nothing holds its answers to one another or to the program.
-/

namespace StackMachine

structure Oracle where
  /-- The type of a variable at a place where it is used. -/
  declaredType : Scope
  /-- The type of an operand. -/
  typeOf : Expr → Except TypeError Ty

namespace Oracle

/-- The oracle that infers the types of operands from those of variables. -/
def ofScope (scope : Scope) : Oracle :=
  ⟨scope, Expr.infer scope⟩

end Oracle

instance : Coe Scope Oracle :=
  ⟨Oracle.ofScope⟩

end StackMachine
