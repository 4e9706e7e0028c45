import TermStream.Progress
import TermStream.Misuse
import TermStream.Settings
import TermStream.Token.Backlog
import TermStream.Token.Lexeme

namespace TermStream

/-- Reads tokens from a backlog that may grow between two tokens. A token that could be another one
if more text came is left in the backlog until the text comes or has ended. -/
structure Lexer where
  /-- The name of the source, once there is one. -/
  source : Option String
  position : Position
  /-- The character before the position. -/
  previous : Option Char
  atStart : Bool
  limit : Nat
  docComments : Bool
  pending : Option Token
  /-- Whether the end of the input has been turned into a token. -/
  ended : Bool

/-- How far a token reaches, its key and what is wrong with it. -/
structure Extent where
  key : TokenKey
  length : Nat
  findings : List Finding

namespace Lexer
open Text

def new (settings : Settings) : Lexer :=
  ⟨none, .start, none, true, max settings.maxTokenLength 1, settings.docComments, none, false⟩

def start (l : Lexer) (source : String) (position : Position) : Except Misuse Lexer :=
  match l.source with
  | some _ => .error (.alreadyStarted .lexer)
  | none => .ok { l with source := some source, position := position }

def upTo (n : Nat) (cs : List Char) : List Char :=
  if cs.length ≤ n then cs else cs.take n

theorem upTo_eq_take (n : Nat) (cs : List Char) : upTo n cs = cs.take n := by
  unfold upTo
  split
  · next h => exact (List.take_of_length_le h).symm
  · rfl

/-- The lexeme at the front of `first :: cs` when `limit` characters are visible. There is none if
it may go on after the received text. One that may go on after the visible text is cut. -/
def lexemeWithin (l : Lexer) (limit : Nat) (final : Bool) (first : Char) (cs : List Char) :
    Option Extent :=
  let visible := upTo (limit - 1) cs
  let found := Lexeme.recognize l.atStart l.docComments first visible
  let extent : Extent := ⟨found.key, found.length visible, found.scan.findings⟩
  if !found.scan.starved then some extent
  else if limit ≤ cs.length then
    some { extent with findings := extent.findings ++ [⟨.tooManyCharacters, [toString limit]⟩] }
  else if final then some extent
  else none

/-- The next lexeme. One character more than the limit is visible at first, so that a token of
exactly the limit is not cut; a token that goes past the limit is read again within it. -/
def nextLexeme (l : Lexer) (final : Bool) (first : Char) (cs : List Char) : Option Extent :=
  match l.lexemeWithin (l.limit + 1) final first cs with
  | none => none
  | some found =>
    if found.length ≤ l.limit then some found else l.lexemeWithin l.limit final first cs

/-- The findings of a scan as a chain of errors on one range, the last finding newest. -/
def chainOf (location : Location) (findings : List Finding) : ErrorChain :=
  findings.foldl (fun chain f => chain.prepend ⟨f.problem, f.args, location⟩) .nil

def take (l : Lexer) (source : String) (found : Extent) (text : List Char) : Lexer :=
  let stop := l.position.advanceAll l.previous text
  let errors := chainOf ⟨source, l.position, stop⟩ found.findings
  { l with
    position := stop
    previous := text.getLast?.or l.previous
    atStart := false
    pending := some ⟨found.key, String.ofList text, l.position, stop, errors⟩ }

def parse (l : Lexer) (b : Backlog) (final : Bool) : Except Misuse (Progress × Lexer × Backlog) :=
  match l.source with
  | none => .error (.notStarted .lexer)
  | some source =>
    if l.pending.isSome then .ok (.outputAvailable, l, b)
    else if l.ended then .ok (.eof, l, b)
    else
      match b.rest with
      | [] =>
        if final then
          .ok (.outputAvailable, { l with pending := some (.eof l.position), ended := true }, b)
        else .ok (.inputNeeded, l, b)
      | first :: cs =>
        match l.nextLexeme final first cs with
        | none => .ok (.inputNeeded, l, b)
        | some found =>
          let text := (first :: cs).take found.length
          .ok (.outputAvailable, l.take source found text, b.consume found.length)

def read (l : Lexer) : Except Misuse (Token × Lexer) :=
  match l.pending with
  | some t => .ok (t, { l with pending := none })
  | none => .error (.nothingToRead .lexer)

def drain (fuel : Nat) (l : Lexer) (b : Backlog) (final : Bool) (out : Array Token) :
    Except Misuse (Array Token × Progress × Lexer × Backlog) :=
  match fuel with
  | 0 => .ok (out, .outputAvailable, l, b)
  | fuel + 1 => do
    let (progress, l, b) ← l.parse b final
    if progress ≠ .outputAvailable then return (out, progress, l, b)
    let (t, l) ← l.read
    drain fuel l b final (out.push t)

/-- Reads all tokens that can be read now. A token other than the pending one and the last one takes
a character off the backlog, which bounds the number of rounds. -/
def readAll (l : Lexer) (b : Backlog) (final : Bool) :
    Except Misuse (Array Token × Progress × Lexer × Backlog) :=
  l.drain (b.rest.length + 3) b final #[]

end Lexer

def tokens (source text : String) (settings : Settings) : Except Misuse (List Token) := do
  let l ← (Lexer.new settings).start source .start
  let (out, _) ← l.readAll (.ofText text) true
  return out.toList

end TermStream
