import TermStream.Text.Pieces

namespace TermStream

/-- Text that has been received and not yet read as tokens. Read text is kept for a while and given
up when more text arrives, as soon as it makes up half of what is held. -/
structure Backlog where
  /-- Text that has been read and is still held, the last character first. -/
  spent : List Char
  /-- Text that is still to be read. -/
  rest : List Char

namespace Backlog
open Text

def empty : Backlog := ⟨[], []⟩

def ofText (text : String) : Backlog := ⟨[], text.toList⟩

def held (b : Backlog) : List Char := b.spent.reverse ++ b.rest

def offset (b : Backlog) : Nat := byteLength b.spent

def reclaim (b : Backlog) : Backlog :=
  if 0 < b.offset ∧ byteLength b.held ≤ 2 * b.offset then { b with spent := [] } else b

def push (b : Backlog) (text : List Char) : Backlog :=
  let b := b.reclaim
  { b with rest := b.rest ++ text }

def consume (b : Backlog) (n : Nat) : Backlog :=
  ⟨(b.rest.take n).reverse ++ b.spent, b.rest.drop n⟩

def size (b : Backlog) : Nat := byteLength b.rest

def isEmpty (b : Backlog) : Bool := b.rest.isEmpty

@[simp] theorem rest_reclaim (b : Backlog) : b.reclaim.rest = b.rest := by
  unfold reclaim
  split <;> rfl

@[simp] theorem rest_push (b : Backlog) (text : List Char) :
    (b.push text).rest = b.rest ++ text := by
  simp [push]

@[simp] theorem rest_consume (b : Backlog) (n : Nat) : (b.consume n).rest = b.rest.drop n := rfl

@[simp] theorem held_consume (b : Backlog) (n : Nat) : (b.consume n).held = b.held := by
  simp [held, consume]

end Backlog

end TermStream
