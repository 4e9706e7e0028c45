import TermStream.Vocabulary

namespace TermStream

inductive TokenCategory where
  | trivia
  | word
  | number
  | text
  | punctuation
  | graphics
  | eof
deriving DecidableEq

def TokenCategory.name : TokenCategory → String
  | .trivia => "Trivia"
  | .word => "Word"
  | .number => "Number"
  | .text => "Text"
  | .punctuation => "Punctuation"
  | .graphics => "Graphics"
  | .eof => "Eof"

inductive TokenKind where
  | eof
  | identifier
  | integer
  | integerWithSuffix
  | float
  | floatWithSuffix
  | string
  | multilineString
  | prefixedString
  | prefixedMultilineString
  | graphics
  | lineComment
  | blockComment
  | docComment
  | whitespace
  | newline
  | comma
  | semicolon
  | leftCurly
  | rightCurly
  | bracket
deriving DecidableEq, Inhabited

namespace TokenKind
open Vocabulary

def entry : TokenKind → Entry TokenKind
  | .eof => Vocabulary.entry .eof "EOF" "End of input, synthesized exactly once."
  | .identifier => Vocabulary.entry .identifier "IDENTIFIER"
      "A run of letters, digits and underscores starting with a letter or underscore."
  | .integer => Vocabulary.entry .integer "INTEGER" "Decimal or radix integer literal."
  | .integerWithSuffix => Vocabulary.entry .integerWithSuffix "INTEGER_WITH_SUFFIX"
      "Integer literal followed directly by an identifier suffix."
  | .float => Vocabulary.entry .float "FLOAT" "Number with a fraction or an exponent."
  | .floatWithSuffix => Vocabulary.entry .floatWithSuffix "FLOAT_WITH_SUFFIX"
      "Float literal followed directly by an identifier suffix."
  | .string => Vocabulary.entry .string "STRING" "Single-line quoted string."
  | .multilineString => Vocabulary.entry .multilineString "MULTILINE_STRING"
      "Triple-quoted string that may span lines."
  | .prefixedString => Vocabulary.entry .prefixedString "PREFIXED_STRING"
      "Single-line string preceded directly by an identifier prefix."
  | .prefixedMultilineString =>
      Vocabulary.entry .prefixedMultilineString "PREFIXED_MULTILINE_STRING"
      "Triple-quoted string preceded directly by an identifier prefix."
  | .graphics => Vocabulary.entry .graphics "GRAPHICS" "A run of operator characters."
  | .lineComment => Vocabulary.entry .lineComment "LINE_COMMENT"
      "\x60//\x60 comment up to the end of the line, or a \x60#!\x60 line at the start of the source."
  | .blockComment => Vocabulary.entry .blockComment "BLOCK_COMMENT" "\x60/* ... */\x60 comment."
  | .docComment => Vocabulary.entry .docComment "DOC_COMMENT"
      "\x60///\x60 comment up to the end of the line."
  | .whitespace => Vocabulary.entry .whitespace "WHITESPACE"
      "A run of whitespace without line breaks."
  | .newline => Vocabulary.entry .newline "NEWLINE"
      "One line break; \x60\\r\\n\x60 is a single token."
  | .comma => Vocabulary.entry .comma "COMMA" "\x60,\x60"
  | .semicolon => Vocabulary.entry .semicolon "SEMICOLON" "\x60;\x60"
  | .leftCurly => Vocabulary.entry .leftCurly "LEFT_CURLY" "\x60\x7b\x60"
  | .rightCurly => Vocabulary.entry .rightCurly "RIGHT_CURLY" "\x60\x7d\x60"
  | .bracket => Vocabulary.entry .bracket "BRACKET" "One of \x60(\x60 \x60)\x60 \x60[\x60 \x60]\x60."

def all : List TokenKind :=
  [.eof, .identifier, .integer, .integerWithSuffix, .float, .floatWithSuffix, .string,
   .multilineString, .prefixedString, .prefixedMultilineString, .graphics, .lineComment,
   .blockComment, .docComment, .whitespace, .newline, .comma, .semicolon, .leftCurly, .rightCurly,
   .bracket]

def name (k : TokenKind) : String := k.entry.canonical

def ofName? (s : String) : Option TokenKind := resolve? (all.map entry) s

def category : TokenKind → TokenCategory
  | .eof => .eof
  | .identifier => .word
  | .integer | .integerWithSuffix | .float | .floatWithSuffix => .number
  | .string | .multilineString | .prefixedString | .prefixedMultilineString => .text
  | .graphics => .graphics
  | .lineComment | .blockComment | .docComment | .whitespace | .newline => .trivia
  | .comma | .semicolon | .leftCurly | .rightCurly | .bracket => .punctuation

def isIgnorable (k : TokenKind) : Bool := k.category == .trivia

def isComment : TokenKind → Bool
  | .lineComment | .blockComment | .docComment => true
  | _ => false

def isString (k : TokenKind) : Bool := k.category == .text

def isNumber (k : TokenKind) : Bool := k.category == .number

end TokenKind

end TermStream
