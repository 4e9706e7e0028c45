import TermStream.Interpreter
import TermStream.Phrase.Grouper
import TermStream.Token.Lexer

namespace TermStream

def groupPieces :
    Nat → Lexer → Backlog → Grouper → Cell Token → List (List Char) → Bool → Array Phrase →
      Except Misuse (Array Phrase)
  | 0, _, _, _, _, _, _, out => .ok out
  | fuel + 1, l, b, g, token, pieces, final, out => do
    let (progress, g, token) ← g.parse token
    match progress with
    | .outputAvailable =>
      let (p, g) ← g.read
      groupPieces fuel l b g token pieces final (out.push p)
    | .eof => return out
    | .inputNeeded | .resourceNeeded =>
      let (progress, l, b) ← l.parse b final
      match progress, pieces with
      | .outputAvailable, _ =>
        let (t, l) ← l.read
        groupPieces fuel l b g (← Cell.put token t) pieces final out
      | .inputNeeded, piece :: pieces => groupPieces fuel l (b.push piece) g token pieces final out
      | .inputNeeded, [] => if final then return out else groupPieces fuel l b g token [] true out
      | _, _ => return out

/-- All phrases of a source. There are at most two for each token and two for each open block, which
bounds the number of rounds. -/
def phrases (source text : String) (settings : Settings) : Except Misuse (List Phrase) := do
  let l ← (Lexer.new settings).start source .start
  let g ← Grouper.new.start source
  let cs := text.toList
  let out ← groupPieces (8 * cs.length + 16) l .empty g none
    (Text.pieces settings.chunkSize cs) false #[]
  return out.toList

/-- A lexer, a grouper and an interpreter that hand tokens and phrases on through cells. The terms
do not depend on where the pieces of the source end. -/
structure Pipeline where
  source : String
  backlog : Backlog
  /-- Whether all text has been received. -/
  final : Bool
  lexer : Lexer
  grouper : Grouper
  interpreter : Interpreter
  token : Cell Token
  phrase : Cell Phrase

namespace Pipeline

def new (source : String) (settings : Settings) : Except Misuse Pipeline := do
  let lexer ← (Lexer.new settings).start source .start
  let grouper ← Grouper.new.start source
  let interpreter ← Interpreter.new.start source
  return ⟨source, .empty, false, lexer, grouper, interpreter, none, none⟩

def push (p : Pipeline) (text : List Char) : Pipeline := { p with backlog := p.backlog.push text }

def finish (p : Pipeline) : Pipeline := { p with final := true }

def forceGrammar (p : Pipeline) (g : Grammar) : Except Misuse Pipeline := do
  return { p with interpreter := ← p.interpreter.forceGrammar g }

def provideGrammar (p : Pipeline) (g : Grammar) : Except Misuse Pipeline := do
  return { p with interpreter := ← p.interpreter.provideGrammar g }

def request? (p : Pipeline) : Option GrammarReference := p.interpreter.request?

def substitute (source : String) (r : GrammarReference) : Grammar :=
  (Grammar.standard false).withLoadErrors
    (.single ⟨Problem.grammarNotFound, [r.render], .point source .start⟩)

def resolveWith (p : Pipeline) (resolver : Resolver) : Except Misuse Pipeline :=
  match p.request? with
  | none => .ok p
  | some r => p.provideGrammar ((resolver r).getD (substitute p.source r))

def fillToken (p : Pipeline) : Except Misuse (Bool × Pipeline) := do
  let (progress, lexer, backlog) ← p.lexer.parse p.backlog p.final
  let p := { p with lexer := lexer, backlog := backlog }
  if progress ≠ .outputAvailable then return (false, p)
  let (t, lexer) ← p.lexer.read
  let token ← Cell.put p.token t
  return (true, { p with lexer := lexer, token := token })

def takePhrase (p : Pipeline) : Except Misuse (Bool × Pipeline) := do
  let (progress, grouper, token) ← p.grouper.parse p.token
  let p := { p with grouper := grouper, token := token }
  if progress = .inputNeeded ∨ progress = .resourceNeeded then return (false, p)
  let (phrase, grouper) ← p.grouper.read
  let cell ← Cell.put p.phrase phrase
  return (true, { p with grouper := grouper, phrase := cell })

/-- Puts the next phrase into its cell, and says whether there was one. -/
def fillPhrase (p : Pipeline) : Except Misuse (Bool × Pipeline) := do
  let (ready, p) ← p.takePhrase
  if ready then return (true, p)
  let (ready, p) ← p.fillToken
  if ready then p.takePhrase else return (false, p)

/-- Works on until a term can be read, a piece of text or a grammar is needed, or all terms have
been read, in at most `rounds` rounds of at most `fuel` steps. -/
def work (fuel : Nat) : Nat → Pipeline → Except Halt Progress × Pipeline
  | 0, p => (.error .unfinished, p)
  | rounds + 1, p =>
    let (result, interpreter, phrase) := p.interpreter.parse fuel p.phrase
    let p := { p with interpreter := interpreter, phrase := phrase }
    match result with
    | .ok .inputNeeded =>
      match p.fillPhrase with
      | .error m => (.error (.misuse m), p)
      | .ok (true, p) => work fuel rounds p
      | .ok (false, p) => (.ok .inputNeeded, p)
    | other => (other, p)

def parse (fuel : Nat) (p : Pipeline) : Except Halt Progress × Pipeline := work fuel fuel p

def read (p : Pipeline) : Except Misuse (Term × Pipeline) := do
  let (t, interpreter) ← p.interpreter.read
  return (t, { p with interpreter := interpreter })

def drain (fuel : Nat) :
    Nat → Pipeline → Array Term → Except Halt (Array Term × Progress) × Pipeline
  | 0, p, _ => (.error .unfinished, p)
  | rounds + 1, p, out =>
    match p.parse fuel with
    | (.error h, p) => (.error h, p)
    | (.ok .outputAvailable, p) =>
      match p.read with
      | .error m => (.error (.misuse m), p)
      | .ok (t, p) => drain fuel rounds p (out.push t)
    | (.ok progress, p) => (.ok (out, progress), p)

def readAll (fuel : Nat) (p : Pipeline) : Except Halt (Array Term × Progress) × Pipeline :=
  drain fuel fuel p #[]

/-- What was read of a whole source, and the grammars that were asked for. -/
structure Transcript where
  terms : Array Term
  requests : List GrammarReference

def runPieces (fuel : Nat) (resolver : Resolver) :
    Nat → Pipeline → List (List Char) → Transcript → Except Halt Transcript
  | 0, _, _, _ => .error .unfinished
  | rounds + 1, p, pieces, done =>
    match p.parse fuel with
    | (.error h, _) => .error h
    | (.ok .outputAvailable, p) => do
      let (t, p) ← Halt.ofMisuse p.read
      runPieces fuel resolver rounds p pieces { done with terms := done.terms.push t }
    | (.ok .resourceNeeded, p) => do
      let requests := done.requests ++ p.request?.toList
      let p ← Halt.ofMisuse (p.resolveWith resolver)
      runPieces fuel resolver rounds p pieces { done with requests := requests }
    | (.ok .inputNeeded, p) =>
      match pieces with
      | piece :: pieces => runPieces fuel resolver rounds (p.push piece) pieces done
      | [] => if p.final then .ok done else runPieces fuel resolver rounds p.finish [] done
    | (.ok .eof, _) => .ok done

def run (fuel : Nat) (source text : String) (settings : Settings) (grammar : Option Grammar)
    (resolver : Resolver) : Except Halt Transcript := do
  let p ← Halt.ofMisuse (Pipeline.new source settings)
  let p ← match grammar with
    | some g => Halt.ofMisuse (p.forceGrammar g)
    | none => pure p
  runPieces fuel resolver fuel p (Text.pieces settings.chunkSize text.toList) ⟨#[], []⟩

end Pipeline

/-- More steps than any run comes to in practice. -/
def ampleSteps : Nat := 4611686018427387904

end TermStream
