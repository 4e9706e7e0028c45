import TermStream.Token

namespace TermStream

/-- A lexical problem with the arguments of its message. -/
structure Finding where
  problem : Problem
  args : List String
deriving DecidableEq

/-- Reads characters from the front of the text that is visible to it. A look past the last visible
character finds nothing and leaves the scan starved: more text could change its result. -/
structure Scan where
  rest : List Char
  starved : Bool
  /-- In the order in which they were found. -/
  findings : List Finding

namespace Scan

def stopped (rest : List Char) : Scan := ⟨rest, false, []⟩

def looked (rest : List Char) : Scan := ⟨rest, rest.isEmpty, []⟩

def found (s : Scan) (problem : Problem) (args : List String) : Scan :=
  { s with findings := s.findings ++ [⟨problem, args⟩] }

/-- Goes on with `f` where the scan has stopped. -/
def andThen (s : Scan) (f : List Char → Scan) : Scan :=
  let t := f s.rest
  ⟨t.rest, s.starved || t.starved, s.findings ++ t.findings⟩

def run (p : Char → Bool) (cs : List Char) : Scan := looked (cs.dropWhile p)

@[simp] theorem stopped_rest (cs : List Char) : (stopped cs).rest = cs := rfl

@[simp] theorem looked_rest (cs : List Char) : (looked cs).rest = cs := rfl

@[simp] theorem found_rest (s : Scan) (p : Problem) (args : List String) :
    (s.found p args).rest = s.rest := rfl

end Scan

structure Lexeme where
  key : TokenKey
  scan : Scan

end TermStream
