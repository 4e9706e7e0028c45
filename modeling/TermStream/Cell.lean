import TermStream.Misuse

namespace TermStream

/-- Holds at most one value. A value that is left in it has not been consumed. -/
abbrev Cell (α : Type) := Option α

def Cell.put {α : Type} (cell : Cell α) (a : α) : Except Misuse (Cell α) :=
  match cell with
  | none => .ok (some a)
  | some _ => .error .cellOccupied

end TermStream
