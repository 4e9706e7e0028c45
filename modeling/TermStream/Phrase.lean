import TermStream.Token
import TermStream.Vocabulary.PhraseKind

namespace TermStream

/-- A token with its part in the structure of statements and blocks, or a boundary of that structure
which the source leaves implicit. -/
structure Phrase where
  kind : PhraseKind
  /-- A boundary without a token has no width. -/
  token : Option Token
  position : Position
  /-- The errors of the structure; lexical errors stay on the token. -/
  errors : ErrorChain
deriving DecidableEq, Inhabited

namespace Phrase

def ofToken (kind : PhraseKind) (t : Token) : Phrase := ⟨kind, some t, t.start, .nil⟩

def boundary (kind : PhraseKind) (p : Position) : Phrase := ⟨kind, none, p, .nil⟩

def withErrors (p : Phrase) (errors : ErrorChain) : Phrase := { p with errors := errors }

def start (p : Phrase) : Position := p.position

def stop (p : Phrase) : Position :=
  match p.token with
  | some t => t.stop
  | none => p.position

def text (p : Phrase) : String :=
  match p.token with
  | some t => t.text
  | none => ""

def hasToken (p : Phrase) : Bool := p.token.isSome

def tokenKind? (p : Phrase) : Option TokenKind := p.token.map Token.kind

def render (p : Phrase) : String :=
  match p.token with
  | some t => p.kind.name ++ " " ++ Text.quoted t.text ++ " @" ++ p.position.render
  | none => p.kind.name ++ " @" ++ p.position.render

end Phrase

end TermStream
