import TermStream.Token.Number
import TermStream.Token.Quotation

namespace TermStream.Lexeme
open Text

def ofScan (kind : TokenKind) (s : Scan) : Lexeme := ⟨.simple kind, s⟩

def restOfLine (cs : List Char) : Scan := .run (fun c => !isLineBreak c) cs

/-- A comment to the end of the line, after its two slashes. Exactly one more slash makes it a
documentation comment. -/
def lineComment (docComments : Bool) (cs : List Char) : Lexeme :=
  let isDoc := match cs with
    | '/' :: '/' :: _ => false
    | '/' :: _ => true
    | _ => false
  .ofScan (if isDoc && docComments then .docComment else .lineComment) (restOfLine cs)

def blockComment : List Char → Scan
  | [] => (Scan.looked []).found .unterminatedBlockComment []
  | '*' :: '/' :: cs => .stopped cs
  | _ :: cs => blockComment cs

def opensComment : List Char → Bool
  | '/' :: '/' :: _ => true
  | '/' :: '*' :: _ => true
  | _ => false

def graphics : List Char → Scan
  | [] => .looked []
  | c :: cs =>
    if isGraphic c && !opensComment (c :: cs) then graphics cs else .stopped (c :: cs)

def word (first : Char) (cs : List Char) : Lexeme :=
  match cs.dropWhile isIdentifierPart with
  | q :: rest =>
    if q = '"' ∨ q = '\'' then
      let s := Quotation.literal q rest
      ⟨s.key.withLead (String.ofList (first :: cs.takeWhile isIdentifierPart)), s.scan⟩
    else .ofScan .identifier (.stopped (q :: rest))
  | [] => .ofScan .identifier (.looked [])

/-- The token that starts with `first`, where `atStart` says that nothing precedes it. -/
def recognize (atStart docComments : Bool) (first : Char) (cs : List Char) : Lexeme :=
  match first, cs with
  | '\n', _ => .ofScan .newline (.stopped cs)
  | '\r', '\n' :: rest => .ofScan .newline (.stopped rest)
  | '\r', _ => .ofScan .newline (.looked cs)
  | ',', _ => .ofScan .comma (.stopped cs)
  | ';', _ => .ofScan .semicolon (.stopped cs)
  | '\x7b', _ => .ofScan .leftCurly (.stopped cs)
  | '\x7d', _ => .ofScan .rightCurly (.stopped cs)
  | '/', '/' :: rest => lineComment docComments rest
  | '/', '*' :: rest => .ofScan .blockComment (blockComment rest)
  | _, _ =>
    if ['(', ')', '[', ']'].contains first then .ofScan .bracket (.stopped cs)
    else if first = '"' ∨ first = '\'' then Quotation.literal first cs
    else if first = '#' && atStart && cs.head? == some '!' then
      .ofScan .lineComment (restOfLine cs)
    else if isGraphic first then .ofScan .graphics (graphics cs)
    else if isDigit first then Number.literal first cs
    else if isIdentifierStart first then word first cs
    else if isBlank first then
      .ofScan .whitespace (.run (fun c => isBlank c && !isLineBreak c) cs)
    else .ofScan .graphics ((Scan.stopped cs).found .invalidCharacter [showChar first])

/-- How many characters the lexeme takes of its first one and the visible `cs`. -/
def length (l : Lexeme) (cs : List Char) : Nat := cs.length + 1 - l.scan.rest.length

end TermStream.Lexeme
