/-!
# Source positions

A `Span` is where a piece of the program starts and how long it is. Messages name the line only;
the column and the length are kept for tools.
-/

namespace ObjLet

/-- A starting position, with lines and columns counted from 1, and a length. -/
structure Span where
  line : Nat
  column : Nat
  length : Nat
deriving DecidableEq

namespace Span

/-- A position without extent. -/
def point (line column : Nat) : Span := ⟨line, column, 0⟩

/-- The start of a line, for pieces of which only the line is known. -/
def ofLine (line : Nat) : Span := point line 1

def isEmpty (s : Span) : Bool := s.length == 0

/-- The form used in messages. -/
def text (s : Span) : String := s!"line {s.line}"

/-- The short form with the column, for tools. -/
def position (s : Span) : String := s!"{s.line}:{s.column}"

end Span

end ObjLet
