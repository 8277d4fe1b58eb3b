/-!
# Places in source text
-/

namespace ReactiveLang

/-- From a line and column to a line and column, counted from one. Nodes that were made rather than
read have the span of zeros. Mirrors quill-types/span:8-13. -/
structure Span where
  line : Nat
  column : Nat
  endLine : Nat
  endColumn : Nat
  deriving DecidableEq, Inhabited

namespace Span

/-- The span of nodes without source text. -/
def zero : Span := ⟨0, 0, 0, 0⟩

def isSynthetic (s : Span) : Bool := s = zero

/-- The start of the span, or a dash for a node without source text. -/
def render (s : Span) : String :=
  if s.isSynthetic then "-" else toString s.line ++ ":" ++ toString s.column

end Span
end ReactiveLang
