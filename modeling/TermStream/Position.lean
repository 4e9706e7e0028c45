namespace TermStream

/-- Line and column from one, offset in UTF-8 bytes from zero. Lines and columns are numbers of 32
bits: behind the greatest one comes zero. -/
structure Position where
  line : UInt32
  column : UInt32
  offset : Nat
deriving DecidableEq, Inhabited

namespace Position

def start : Position := ⟨1, 1, 0⟩

/-- The position after `c`, where `before` is the character read just before it. A carriage return
and the line feed directly after it are one line break. -/
def advance (p : Position) (c : Char) (before : Option Char) : Position :=
  if c = '\n' ∧ before = some '\r' then { p with offset := p.offset + c.utf8Size }
  else if c = '\n' ∨ c = '\r' then ⟨p.line + 1, 1, p.offset + c.utf8Size⟩
  else ⟨p.line, p.column + 1, p.offset + c.utf8Size⟩

def advanceAll (p : Position) (before : Option Char) : List Char → Position
  | [] => p
  | c :: cs => (p.advance c before).advanceAll (some c) cs

/-- The position after a text that is not preceded by a carriage return. -/
def advanceText (p : Position) (text : String) : Position :=
  p.advanceAll none text.toList

/-- Positions are ordered by line, then by column, then by offset. -/
def order (p q : Position) : Ordering :=
  (compare p.line q.line).then ((compare p.column q.column).then (compare p.offset q.offset))

def render (p : Position) : String :=
  toString p.line ++ ":" ++ toString p.column

theorem advance_offset (p : Position) (c : Char) (b : Option Char) :
    (p.advance c b).offset = p.offset + c.utf8Size := by
  unfold advance
  split
  · rfl
  · split <;> rfl

end Position

structure Location where
  source : String
  start : Position
  stop : Position
deriving DecidableEq, Inhabited

namespace Location

def point (source : String) (p : Position) : Location := ⟨source, p, p⟩

def render (l : Location) : String :=
  l.source ++ ":" ++ l.start.render

end Location

end TermStream
