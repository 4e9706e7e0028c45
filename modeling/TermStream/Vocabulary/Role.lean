import TermStream.Vocabulary

namespace TermStream

/-- The part a term plays in its source, whatever grammar produced it. -/
inductive Role where
  | primary
  | secondary
  | keyword
  | operator
  | separator
  | modifier
  | documentation
  | control
  | ignorable
  | skipped
  | unknown
deriving DecidableEq, Inhabited

namespace Role
open Vocabulary

def entry : Role → Entry Role
  | .primary => Vocabulary.entry .primary "primary" "The main value of a construct, such as a name."
  | .secondary => Vocabulary.entry .secondary "secondary"
      "A subordinate value, such as an argument."
  | .keyword => Vocabulary.entry .keyword "keyword" "A reserved word of the grammar."
  | .operator => (Vocabulary.entry .operator "operator" "An operator symbol.").alsoSpelled ["op"]
  | .separator => (Vocabulary.entry .separator "separator"
      "Punctuation separating or grouping items.").alsoSpelled ["sep"]
  | .modifier => Vocabulary.entry .modifier "modifier"
      "A word or symbol modifying the construct that follows."
  | .documentation => (Vocabulary.entry .documentation "documentation" "Documentation comments."
      ).alsoSpelled ["doc"]
  | .control => Vocabulary.entry .control "control" "Control tokens outside any statement."
  | .ignorable => Vocabulary.entry .ignorable "ignorable"
      "Whitespace, newlines and plain comments."
  | .skipped => Vocabulary.entry .skipped "skipped" "A token skipped during error recovery."
  | .unknown => Vocabulary.entry .unknown "unknown" "No role assigned."

def all : List Role :=
  [.primary, .secondary, .keyword, .operator, .separator, .modifier, .documentation, .control,
   .ignorable, .skipped, .unknown]

def name (r : Role) : String := r.entry.canonical

def ofName? (s : String) : Option Role := resolve? (all.map entry) s

end Role

end TermStream
