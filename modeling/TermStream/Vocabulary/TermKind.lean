import TermStream.Vocabulary

namespace TermStream

inductive TermShape where
  | start
  | «end»
  | single
deriving DecidableEq

def TermShape.name : TermShape → String
  | .start => "Start"
  | .end => "End"
  | .single => "Single"

inductive TermKind where
  | statementStart
  | statementEnd
  | blockStart
  | blockEnd
  | objectStart
  | objectEnd
  | attributesStart
  | attributesEnd
  | docCommentStart
  | docCommentEnd
  | propertyStart
  | propertyEnd
  | listPropertyStart
  | listPropertyEnd
  | expressionStart
  | expressionEnd
  | value
  | structural
  | control
  | ignorable
  | syntaxError
  | grammarIsLoaded
  | eof
deriving DecidableEq, Inhabited

namespace TermKind
open Vocabulary

def entry : TermKind → Entry TermKind
  | .statementStart => Vocabulary.entry .statementStart "STATEMENT_START" "Start of a statement."
  | .statementEnd => Vocabulary.entry .statementEnd "STATEMENT_END" "End of a statement."
  | .blockStart => Vocabulary.entry .blockStart "BLOCK_START" "An opening \x60\x7b\x60 of a block."
  | .blockEnd => Vocabulary.entry .blockEnd "BLOCK_END" "The closing \x60\x7d\x60 of a block."
  | .objectStart => Vocabulary.entry .objectStart "OBJECT_START" "Start of a named object."
  | .objectEnd => Vocabulary.entry .objectEnd "OBJECT_END" "End of a named object."
  | .attributesStart => Vocabulary.entry .attributesStart "ATTRIBUTES_START"
      "Start of an attribute group."
  | .attributesEnd => Vocabulary.entry .attributesEnd "ATTRIBUTES_END"
      "End of an attribute group."
  | .docCommentStart => Vocabulary.entry .docCommentStart "DOC_COMMENT_START"
      "Start of a run of documentation comments."
  | .docCommentEnd => Vocabulary.entry .docCommentEnd "DOC_COMMENT_END"
      "End of a run of documentation comments."
  | .propertyStart => Vocabulary.entry .propertyStart "PROPERTY_START" "Start of a named property."
  | .propertyEnd => Vocabulary.entry .propertyEnd "PROPERTY_END" "End of a named property."
  | .listPropertyStart => Vocabulary.entry .listPropertyStart "LIST_PROPERTY_START"
      "Start of a property holding a list of values."
  | .listPropertyEnd => Vocabulary.entry .listPropertyEnd "LIST_PROPERTY_END"
      "End of a list property."
  | .expressionStart => Vocabulary.entry .expressionStart "EXPRESSION_START"
      "Start of an operator expression."
  | .expressionEnd => Vocabulary.entry .expressionEnd "EXPRESSION_END"
      "End of an operator expression."
  | .value => Vocabulary.entry .value "VALUE" "A literal or identifier carrying a value."
  | .structural => Vocabulary.entry .structural "STRUCTURAL"
      "A keyword or punctuation token that carries structure but no value."
  | .control => Vocabulary.entry .control "CONTROL" "A control token outside any statement."
  | .ignorable => Vocabulary.entry .ignorable "IGNORABLE"
      "Trivia, or a token skipped during recovery."
  | .syntaxError => Vocabulary.entry .syntaxError "SYNTAX_ERROR"
      "A zero-width syntax error report."
  | .grammarIsLoaded => Vocabulary.entry .grammarIsLoaded "GRAMMAR_IS_LOADED"
      "The grammar for the rest of the source has been loaded."
  | .eof => Vocabulary.entry .eof "EOF" "End of input."

def all : List TermKind :=
  [.statementStart, .statementEnd, .blockStart, .blockEnd, .objectStart, .objectEnd,
   .attributesStart, .attributesEnd, .docCommentStart, .docCommentEnd, .propertyStart,
   .propertyEnd, .listPropertyStart, .listPropertyEnd, .expressionStart, .expressionEnd, .value,
   .structural, .control, .ignorable, .syntaxError, .grammarIsLoaded, .eof]

def name (k : TermKind) : String := k.entry.canonical

def ofName? (s : String) : Option TermKind := resolve? (all.map entry) s

def matchingEnd? : TermKind → Option TermKind
  | .statementStart => some .statementEnd
  | .blockStart => some .blockEnd
  | .objectStart => some .objectEnd
  | .attributesStart => some .attributesEnd
  | .docCommentStart => some .docCommentEnd
  | .propertyStart => some .propertyEnd
  | .listPropertyStart => some .listPropertyEnd
  | .expressionStart => some .expressionEnd
  | _ => none

/-- The start that an end closes. -/
def matchingStart? : TermKind → Option TermKind
  | .statementEnd => some .statementStart
  | .blockEnd => some .blockStart
  | .objectEnd => some .objectStart
  | .attributesEnd => some .attributesStart
  | .docCommentEnd => some .docCommentStart
  | .propertyEnd => some .propertyStart
  | .listPropertyEnd => some .listPropertyStart
  | .expressionEnd => some .expressionStart
  | _ => none

def shape (k : TermKind) : TermShape :=
  if k.matchingEnd?.isSome then .start
  else if k.matchingStart?.isSome then .end
  else .single

def isStart (k : TermKind) : Bool := k.shape == .start

def isEnd (k : TermKind) : Bool := k.shape == .end

end TermKind

end TermStream
