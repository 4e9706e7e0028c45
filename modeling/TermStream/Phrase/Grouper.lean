import TermStream.Cell
import TermStream.Phrase
import TermStream.Progress

namespace TermStream

inductive Grouping where
  | statementSequence
  | statement
  | statementAfterSoft
  | afterBlockStart
  | beforeBlockEnd
  | beforeEof
  | afterEof
deriving DecidableEq

def Grouping.name : Grouping → String
  | .statementSequence => "StatementSequence"
  | .statement => "Statement"
  | .statementAfterSoft => "StatementAfterSoft"
  | .afterBlockStart => "AfterBlockStart"
  | .beforeBlockEnd => "BeforeBlockEnd"
  | .beforeEof => "BeforeEof"
  | .afterEof => "AfterEof"

structure OpenBlock where
  start : Position
  stop : Position
deriving DecidableEq

/-- One phrase, whether the token was used up, and the state after it. -/
structure Grouped where
  phrase : Phrase
  taken : Bool
  grouping : Grouping
  /-- The innermost block first. -/
  blocks : List OpenBlock

/-- Turns tokens into phrases: finds where statements and blocks begin and end, puts in the
boundaries that are implicit, and reports braces without a partner. -/
structure Grouper where
  source : Option String
  grouping : Grouping
  /-- The innermost block first. -/
  blocks : List OpenBlock
  pending : Option Phrase
  /-- Where the last token stood that was looked at. -/
  last : Position

namespace Grouped

def taking (kind : PhraseKind) (t : Token) (g : Grouping) (blocks : List OpenBlock) : Grouped :=
  ⟨.ofToken kind t, true, g, blocks⟩

def leaving (kind : PhraseKind) (t : Token) (g : Grouping) (blocks : List OpenBlock) : Grouped :=
  ⟨.boundary kind t.start, false, g, blocks⟩

def opening (t : Token) (blocks : List OpenBlock) : Grouped :=
  taking .startBlock t .afterBlockStart (⟨t.start, t.stop⟩ :: blocks)

/-- A block is a part of the statement that opened it, which goes on after the block. -/
def closing (t : Token) (blocks : List OpenBlock) : Grouped :=
  taking .endBlock t .statement blocks.tail

/-- At the end of the input open blocks are closed first, the innermost before the others. -/
def atEof (source : String) (t : Token) : List OpenBlock → Grouped
  | [] => taking .eof t .afterEof []
  | block :: blocks =>
    let error : Report :=
      ⟨Problem.unterminatedBlock, [block.start.render], ⟨source, block.start, block.stop⟩⟩
    ⟨(Phrase.boundary .endBlock t.start).withErrors (.single error), false, .statement, blocks⟩

def between (source : String) (g : Grouping) (blocks : List OpenBlock) (t : Token) : Grouped :=
  match t.kind with
  | .eof => atEof source t blocks
  | .semicolon => taking .control t g blocks
  | .leftCurly => opening t blocks
  | .rightCurly =>
    if blocks.isEmpty then
      let error : Report := ⟨Problem.unmatchedClosingCurly, [], ⟨source, t.start, t.stop⟩⟩
      ⟨(Phrase.ofToken .control t).withErrors (.single error), true, g, blocks⟩
    else closing t blocks
  | kind =>
    if kind.isIgnorable then taking .ignorable t g blocks
    else taking .significant t .statement blocks

def inside (g : Grouping) (blocks : List OpenBlock) (t : Token) : Grouped :=
  match t.kind with
  | .eof => leaving .statementEnd t .beforeEof blocks
  | .rightCurly =>
    let next := if blocks.isEmpty then .statementSequence else .beforeBlockEnd
    leaving .statementEnd t next blocks
  | .semicolon => taking .statementEnd t .statementSequence blocks
  | .leftCurly => opening t blocks
  | kind =>
    if kind = .newline ∧ g = .statement then
      taking .softStatementEnd t .statementAfterSoft blocks
    else if kind.isIgnorable then taking .ignorable t g blocks
    else taking .significant t .statement blocks

def ofToken (source : String) (g : Grouping) (blocks : List OpenBlock) (t : Token) : Grouped :=
  match g with
  | .statementSequence | .afterBlockStart => between source g blocks t
  | .statement | .statementAfterSoft => inside g blocks t
  | .beforeBlockEnd =>
    if t.kind = .rightCurly then closing t blocks
    else between source .statementSequence blocks t
  | .beforeEof | .afterEof => atEof source t blocks

end Grouped

namespace Grouper

def new : Grouper := ⟨none, .statementSequence, [], none, .start⟩

def start (g : Grouper) (source : String) : Except Misuse Grouper :=
  match g.source with
  | some _ => .error (.alreadyStarted .phrases)
  | none => .ok { g with source := some source }

def openBlocks (g : Grouper) : Nat := g.blocks.length

def parse (g : Grouper) (input : Cell Token) : Except Misuse (Progress × Grouper × Cell Token) :=
  match g.source with
  | none => .error (.notStarted .phrases)
  | some source =>
    if g.pending.isSome then .ok (.outputAvailable, g, input)
    else if g.grouping = .afterEof then .ok (.eof, g, input)
    else
      match input with
      | none => .ok (.inputNeeded, g, input)
      | some t =>
        let r := Grouped.ofToken source g.grouping g.blocks t
        .ok (.outputAvailable, ⟨g.source, r.grouping, r.blocks, some r.phrase, t.start⟩,
          if r.taken then none else input)

/-- Hands over the phrase that was made. After the last phrase there is always one more end. -/
def read (g : Grouper) : Except Misuse (Phrase × Grouper) :=
  match g.pending with
  | some p => .ok (p, { g with pending := none })
  | none =>
    if g.grouping = .afterEof then .ok (.boundary .eof g.last, g)
    else .error (.nothingToRead .phrases)

def drain (fuel : Nat) (g : Grouper) (input : Cell Token) (out : Array Phrase) :
    Except Misuse (Array Phrase × Progress × Grouper × Cell Token) :=
  match fuel with
  | 0 => .ok (out, .outputAvailable, g, input)
  | fuel + 1 => do
    let (progress, g, input) ← g.parse input
    if progress ≠ .outputAvailable then return (out, progress, g, input)
    let (p, g) ← g.read
    drain fuel g input (out.push p)

/-- Reads all phrases that can be read now. A phrase that does not take the token closes the
statement in front of it or one of the open blocks. -/
def readAll (g : Grouper) (input : Cell Token) :
    Except Misuse (Array Phrase × Progress × Grouper × Cell Token) :=
  g.drain (2 * g.blocks.length + 5) input #[]

end Grouper

def phrasesOf (source : String) (ts : List Token) : Except Misuse (List Phrase) := do
  let g ← Grouper.new.start source
  let (out, _) ← ts.foldlM (fun (out, g) t => do
    let (more, _, g, _) ← g.readAll (some t)
    return (out ++ more, g)) ((#[], g) : Array Phrase × Grouper)
  return out.toList

end TermStream
