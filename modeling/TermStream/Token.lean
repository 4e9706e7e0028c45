import TermStream.ErrorChain
import TermStream.Text.Pieces
import TermStream.Vocabulary.TokenKind

namespace TermStream

/-- A kind with what is known of a literal: the word before a string, its quotes, the suffix of a
number. -/
structure TokenKey where
  kind : TokenKind
  lead : Option String
  quote : Option Char
  triple : Bool
  suffix : Option String
deriving DecidableEq, Inhabited

namespace TokenKey

def simple (kind : TokenKind) : TokenKey := ⟨kind, none, none, false, none⟩

def string (quote : Char) (triple : Bool) : TokenKey :=
  ⟨if triple then .multilineString else .string, none, some quote, triple, none⟩

def withLead (k : TokenKey) (word : String) : TokenKey :=
  let kind := match k.kind with
    | .string => .prefixedString
    | .multilineString => .prefixedMultilineString
    | other => other
  { k with kind := kind, lead := some word }

def withSuffix (k : TokenKey) (word : String) : TokenKey :=
  let kind := match k.kind with
    | .integer => .integerWithSuffix
    | .float => .floatWithSuffix
    | other => other
  { k with kind := kind, suffix := some word }

def kindOnly (k : TokenKey) : TokenKey := simple k.kind

/-- The delimiter of a string: its quote once or three times. -/
def delimiter? (k : TokenKey) : Option (List Char) :=
  k.quote.map (List.replicate (if k.triple then 3 else 1))

def render (k : TokenKey) : String :=
  let lead := match k.lead with
    | some w => " prefix=" ++ w
    | none => ""
  let quote := match k.delimiter? with
    | some d => " quote=" ++ String.ofList d
    | none => ""
  let suffix := match k.suffix with
    | some w => " suffix=" ++ w
    | none => ""
  k.kind.name ++ lead ++ quote ++ suffix

end TokenKey

structure Token where
  key : TokenKey
  text : String
  start : Position
  stop : Position
  errors : ErrorChain
deriving DecidableEq, Inhabited

namespace Token

def kind (t : Token) : TokenKind := t.key.kind

def eof (p : Position) : Token := ⟨.simple .eof, "", p, p, .nil⟩

def isEof (t : Token) : Bool := t.kind == .eof

def isIgnorable (t : Token) : Bool := t.kind.isIgnorable

def render (t : Token) : String :=
  t.kind.name ++ " " ++ Text.quoted t.text ++ " @" ++ t.start.render

end Token

end TermStream
