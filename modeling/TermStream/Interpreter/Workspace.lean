import TermStream.Cell
import TermStream.Grammar.Request
import TermStream.Interpreter.KeywordStack
import TermStream.MarkedQueue
import TermStream.Term

namespace TermStream

/-- What all running frames share. -/
structure Workspace where
  source : String
  grammar : Option Grammar
  /-- Whether the grammar was given without being asked for. -/
  forced : Bool
  /-- What the document has asked for. -/
  request : Option GrammarReference
  queue : MarkedQueue Term
  keywords : KeywordStack
  /-- The end of the last token that was consumed. -/
  lastEnd : Position
  /-- Whether rules are being left for one that has voted to recover. -/
  recovering : Bool
  /-- How many running rules let no line break end a statement. -/
  softEndDisabled : Nat

namespace Workspace

def new : Workspace := ⟨"", none, false, none, .empty, .empty, .start, false, 0⟩

def stamp (ws : Workspace) (t : Term) : Term :=
  { t with grammar := t.grammar.or (ws.grammar.map Grammar.systemId) }

def report (ws : Workspace) (t : Term) : Workspace :=
  { ws with queue := ws.queue.append (ws.stamp t) }

/-- Puts a term at the innermost uncommitted mark, or at the end if there is none. -/
def reportAtMark (ws : Workspace) (t : Term) : Except Misuse Workspace :=
  if ws.queue.hasActiveMark then do
    let queue ← ws.queue.insertAtMark (ws.stamp t)
    return { ws with queue := queue }
  else .ok (ws.report t)

/-- Puts the start of a statement in front of what was reported since the mark of the statement. -/
def reportStatementStart (ws : Workspace) (t : Term) : Except Misuse Workspace := do
  let queue ←
    if ws.queue.markCount = 1 then ws.queue.insertBeforeMark (ws.stamp t)
    else ws.queue.insertAtMark (ws.stamp t)
  return { ws with queue := queue }

def pushMark (ws : Workspace) : Workspace := { ws with queue := ws.queue.pushMark }

def popMark (ws : Workspace) : Except Misuse Workspace := do
  let queue ← ws.queue.popMark
  return { ws with queue := queue }

def consume (ws : Workspace) (p : Phrase) : Workspace :=
  { ws with
    lastEnd := if p.hasToken then p.stop else ws.lastEnd
    keywords := ws.keywords.invalidate }

def take (ws : Workspace) (p : Phrase) (kind : TermKind) (role : Role) : Workspace :=
  (ws.consume p).report (.wrap kind role p)

def skip (ws : Workspace) (p : Phrase) : Workspace := (ws.consume p).report (.ignorable p)

/-- Where the first term behind the innermost uncommitted mark starts. -/
def markedStart? (ws : Workspace) : Option Position := ws.queue.peekAtMark?.map Term.start

def softEndEnabled (ws : Workspace) : Bool := ws.softEndDisabled == 0

def disableSoftEnd (ws : Workspace) : Workspace :=
  { ws with softEndDisabled := ws.softEndDisabled + 1 }

def enableSoftEnd (ws : Workspace) : Workspace :=
  { ws with softEndDisabled := ws.softEndDisabled - 1 }

/-- Whether an action that advances passes the phrase over. -/
def isSkippable (ws : Workspace) (p : Phrase) (skipDocComments : Bool) : Bool :=
  match p.kind with
  | .ignorable => skipDocComments || p.tokenKind? != some .docComment
  | .softStatementEnd => !ws.softEndEnabled
  | _ => false

def error (ws : Workspace) (code : ErrorCode) (args : List String) (start stop : Position) :
    ErrorChain :=
  .single ⟨code, args, ⟨ws.source, start, stop⟩⟩

def reportError (ws : Workspace) (code : ErrorCode) (args : List String) (start stop : Position) :
    Workspace :=
  ws.report ((Term.event .syntaxError .unknown start).withErrors (ws.error code args start stop))

end Workspace

end TermStream
