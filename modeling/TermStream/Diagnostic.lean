import TermStream.ErrorChain
import TermStream.Text.Pieces

namespace TermStream

/-- An error as it is shown with its source: the message, the range of bytes to underline, a label
that says where the error was found, and what it was caused by. -/
structure Diagnostic where
  code : String
  message : String
  /-- The first byte that is underlined. -/
  offset : Nat
  /-- How many bytes are underlined. -/
  length : Nat
  label : String
  help : Option String
deriving DecidableEq

namespace Diagnostic

def labelOf : Option ProblemLayer → String
  | some .lexical => "lexical error here"
  | some .phrase => "block structure error here"
  | some .doctype => "doctype error here"
  | some .grammar => "grammar error here"
  | some .term | none => "syntax error here"

def helpOf (cause : ErrorChain) : Option String :=
  if cause.isEmpty then none
  else some (String.intercalate "\n" (cause.reports.map fun r => "caused by: " ++ r.message))

/-- An error with its cause, in a source of the given number of bytes. The range is kept inside the
source. -/
def ofReport (size : Nat) (r : Report) (cause : ErrorChain) : Diagnostic :=
  let start := min r.location.start.offset size
  let stop := max start (min r.location.stop.offset size)
  ⟨r.code.code, r.message, start, stop - start, labelOf (r.code.problem?.map Problem.layer),
    helpOf cause⟩

def all (size : Nat) (chain : ErrorChain) : List Diagnostic :=
  chain.nodes.map fun n => ofReport size n.1 n.2

end Diagnostic

end TermStream
