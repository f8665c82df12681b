/-!
Where something stands in a source text.
-/

namespace StackMachine

/-- A stretch of source text: its first and last offset, and the line and column where it begins. -/
structure Span where
  start : Nat
  stop : Nat
  line : Nat
  column : Nat
  deriving DecidableEq, Repr, Inhabited

namespace Span

/-- The span of something that stands nowhere. -/
def unknown : Span :=
  ⟨0, 0, 0, 0⟩

/-- The span of something of which only the line is known. -/
def ofLine (line : Nat) : Span :=
  ⟨0, 0, line, 1⟩

def text (span : Span) : String :=
  toString span.line ++ ":" ++ toString span.column

end Span

instance : ToString Span :=
  ⟨Span.text⟩

end StackMachine
