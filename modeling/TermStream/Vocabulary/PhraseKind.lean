import TermStream.Vocabulary

namespace TermStream

inductive PhraseKind where
  | ignorable
  | control
  | significant
  | softStatementEnd
  | statementEnd
  | startBlock
  | endBlock
  | eof
deriving DecidableEq, Inhabited

namespace PhraseKind
open Vocabulary

def entry : PhraseKind → Entry PhraseKind
  | .ignorable => Vocabulary.entry .ignorable "IGNORABLE"
      "Whitespace, newlines and comments that carry no statement structure."
  | .control => Vocabulary.entry .control "CONTROL"
      "A token outside any statement, such as a stray \x60;\x60 or an unmatched \x60\x7d\x60."
  | .significant => Vocabulary.entry .significant "SIGNIFICANT"
      "A token that belongs to the current statement."
  | .softStatementEnd => (Vocabulary.entry .softStatementEnd "SOFT_STATEMENT_END"
      "A newline inside a statement; the grammar decides whether it ends the statement."
      ).alsoSpelled ["SOFT_END"]
  | .statementEnd => Vocabulary.entry .statementEnd "STATEMENT_END"
      ("An explicit \x60;\x60 or a synthetic zero-width boundary before \x60\x7d\x60 " ++
        "or end of input.")
  | .startBlock => Vocabulary.entry .startBlock "START_BLOCK" "An opening \x60\x7b\x60."
  | .endBlock => Vocabulary.entry .endBlock "END_BLOCK"
      "A matching \x60\x7d\x60 or a synthetic block closure at end of input."
  | .eof => Vocabulary.entry .eof "EOF" "End of input."

def all : List PhraseKind :=
  [.ignorable, .control, .significant, .softStatementEnd, .statementEnd, .startBlock, .endBlock,
   .eof]

def name (k : PhraseKind) : String := k.entry.canonical

def ofName? (s : String) : Option PhraseKind := resolve? (all.map entry) s

/-- The kinds that end the statement before them without being a part of it. -/
def closesStatement : PhraseKind → Bool
  | .endBlock | .eof => true
  | _ => false

end PhraseKind

end TermStream
