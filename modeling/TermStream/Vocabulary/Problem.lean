namespace TermStream

inductive ProblemLayer where
  | lexical
  | phrase
  | term
  | doctype
  | grammar
deriving DecidableEq

def ProblemLayer.name : ProblemLayer → String
  | .lexical => "Lexical"
  | .phrase => "Phrase"
  | .term => "Term"
  | .doctype => "Doctype"
  | .grammar => "Grammar"

def ProblemLayer.lead : ProblemLayer → String
  | .lexical => "lexical"
  | .phrase => "phrase"
  | .term => "term"
  | .doctype => "doctype"
  | .grammar => "grammar"

/-- The problems in a source that every grammar can report. -/
inductive Problem where
  | unterminatedString
  | unterminatedBlockComment
  | invalidEscape
  | invalidRadix
  | digitOutOfRadix
  | unterminatedRadixNumber
  | missingRadixDigits
  | missingExponentDigits
  | invalidCharacter
  | tooManyCharacters
  | unmatchedClosingCurly
  | unterminatedBlock
  | unexpectedToken
  | unexpectedStatementEnd
  | missingDoctypeString
  | unknownContext
  | grammarNotFound
  | grammarHasErrors
deriving DecidableEq

namespace Problem

def all : List Problem :=
  [.unterminatedString, .unterminatedBlockComment, .invalidEscape, .invalidRadix, .digitOutOfRadix,
   .unterminatedRadixNumber, .missingRadixDigits, .missingExponentDigits, .invalidCharacter,
   .tooManyCharacters, .unmatchedClosingCurly, .unterminatedBlock, .unexpectedToken,
   .unexpectedStatementEnd, .missingDoctypeString, .unknownContext, .grammarNotFound,
   .grammarHasErrors]

def layer : Problem → ProblemLayer
  | .unterminatedString | .unterminatedBlockComment | .invalidEscape | .invalidRadix
  | .digitOutOfRadix | .unterminatedRadixNumber | .missingRadixDigits | .missingExponentDigits
  | .invalidCharacter | .tooManyCharacters => .lexical
  | .unmatchedClosingCurly | .unterminatedBlock => .phrase
  | .unexpectedToken | .unexpectedStatementEnd => .term
  | .missingDoctypeString | .unknownContext => .doctype
  | .grammarNotFound | .grammarHasErrors => .grammar

def code : Problem → String
  | .unterminatedString => "lexical.UnterminatedString"
  | .unterminatedBlockComment => "lexical.UnterminatedBlockComment"
  | .invalidEscape => "lexical.InvalidEscape"
  | .invalidRadix => "lexical.InvalidRadix"
  | .digitOutOfRadix => "lexical.DigitOutOfRadix"
  | .unterminatedRadixNumber => "lexical.UnterminatedRadixNumber"
  | .missingRadixDigits => "lexical.MissingRadixDigits"
  | .missingExponentDigits => "lexical.MissingExponentDigits"
  | .invalidCharacter => "lexical.InvalidCharacter"
  | .tooManyCharacters => "lexical.TooManyCharacters"
  | .unmatchedClosingCurly => "phrase.UnmatchedClosingCurly"
  | .unterminatedBlock => "phrase.UnterminatedBlock"
  | .unexpectedToken => "term.UnexpectedToken"
  | .unexpectedStatementEnd => "term.UnexpectedStatementEnd"
  | .missingDoctypeString => "doctype.MissingString"
  | .unknownContext => "doctype.UnknownContext"
  | .grammarNotFound => "grammar.NotFound"
  | .grammarHasErrors => "grammar.HasErrors"

/-- The message with numbered slots for the arguments. -/
def template : Problem → String
  | .unterminatedString => "unterminated string literal"
  | .unterminatedBlockComment => "unterminated block comment"
  | .invalidEscape => "invalid escape sequence '\\\x7b0\x7d'"
  | .invalidRadix => "invalid radix \x7b0\x7d, expected a radix between 2 and 36"
  | .digitOutOfRadix => "digit '\x7b0\x7d' is out of range for radix \x7b1\x7d"
  | .unterminatedRadixNumber => "radix number is missing its closing '#'"
  | .missingRadixDigits => "radix number has no digits"
  | .missingExponentDigits => "exponent has no digits"
  | .invalidCharacter => "invalid character '\x7b0\x7d'"
  | .tooManyCharacters => "token reaches the length limit of \x7b0\x7d characters"
  | .unmatchedClosingCurly => "unmatched '\x7d'"
  | .unterminatedBlock => "block opened at \x7b0\x7d is not closed"
  | .unexpectedToken => "unexpected token '\x7b0\x7d'"
  | .unexpectedStatementEnd => "statement ended before \x7b0\x7d"
  | .missingDoctypeString => "expected a string after '\x7b0\x7d'"
  | .unknownContext => "grammar has no statement context named '\x7b0\x7d'"
  | .grammarNotFound => "grammar '\x7b0\x7d' could not be resolved"
  | .grammarHasErrors => "grammar '\x7b0\x7d' was loaded with errors"

def ofCode? (code : String) : Option Problem := all.find? (fun p => p.code == code)

end Problem

end TermStream
