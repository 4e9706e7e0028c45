import TermStream.Interpreter.Document
import TermStream.Interpreter.Rule
import TermStream.Interpreter.Statement
import TermStream.Progress

namespace TermStream

/-- Turns phrases into terms by a grammar: the frame on top is stepped until a term can be read, a
phrase or a grammar is needed, or no frame is left. -/
structure Interpreter where
  workspace : Workspace
  /-- The frame on top first. -/
  stack : List Activation
  started : Bool
  finished : Bool

namespace Interpreter

def new : Interpreter := ⟨.new, [], false, false⟩

def forceGrammar (t : Interpreter) (g : Grammar) : Except Misuse Interpreter :=
  match t.workspace.grammar with
  | some _ => .error .grammarAlreadyProvided
  | none => .ok { t with workspace := { t.workspace with grammar := some g, forced := true } }

/-- Gives the document the grammar it asks for, or will ask for. -/
def provideGrammar (t : Interpreter) (g : Grammar) : Except Misuse Interpreter :=
  match t.workspace.grammar with
  | some _ => .error .grammarAlreadyProvided
  | none => .ok { t with workspace := { t.workspace with grammar := some g } }

def request? (t : Interpreter) : Option GrammarReference :=
  match t.workspace.grammar with
  | some _ => none
  | none => t.workspace.request

def start (t : Interpreter) (source : String) : Except Misuse Interpreter :=
  if t.started then .error (.alreadyStarted .terms)
  else .ok { t with
    started := true
    workspace := { t.workspace with source := source }
    stack := ⟨.document .new, .none⟩ :: t.stack }

def stepFrame (a : Activation) (below : List Activation) (ws : Workspace) (input : Cell Phrase) :
    Except Halt Turn :=
  match a.frame with
  | .document f => f.step below ws input
  | .sequence f => .ok (f.step below ws input)
  | .statement f => f.step below ws input a.result
  | .block f => .ok (f.step below ws input)
  | .rule f => f.step below ws input a.result

def deliver (result : CallResult) : List Activation → List Activation
  | [] => []
  | a :: below => { a with result := result } :: below

def stackAfter (move : Move) (below : List Activation) : Option Progress × List Activation :=
  match move with
  | .again f => (none, ⟨f, .none⟩ :: below)
  | .needInput f => (some .inputNeeded, ⟨f, .none⟩ :: below)
  | .needResource f => (some .resourceNeeded, ⟨f, .none⟩ :: below)
  | .call f child => (none, ⟨child, .none⟩ :: ⟨f, .none⟩ :: below)
  | .leave result => (none, deliver result below)

/-- One step, with the progress that ends the work if there is any. A frame whose step comes to
nothing is lost. -/
def step (t : Interpreter) (input : Cell Phrase) :
    Except Halt (Option Progress) × Interpreter × Cell Phrase :=
  if t.workspace.queue.hasOutput then (.ok (some .outputAvailable), t, input)
  else
    match t.stack with
    | [] => (.ok (some .eof), { t with finished := true }, input)
    | a :: below =>
      match stepFrame a below t.workspace input with
      | .error h => (.error h, { t with stack := below }, input)
      | .ok turn =>
        let (progress, stack) := stackAfter turn.move turn.below
        (.ok progress, { t with workspace := turn.workspace, stack := stack }, turn.input)

/-- Steps until there is progress, at most `fuel` times: a grammar may go around in circles. -/
def run : Nat → Interpreter → Cell Phrase → Except Halt Progress × Interpreter × Cell Phrase
  | 0, t, input => (.error .unfinished, t, input)
  | fuel + 1, t, input =>
    match t.step input with
    | (.error h, t, input) => (.error h, t, input)
    | (.ok (some progress), t, input) => (.ok progress, t, input)
    | (.ok none, t, input) => run fuel t input

/-- Works on until a term can be read, or something is needed, or all terms have been read. -/
def parse (fuel : Nat) (t : Interpreter) (input : Cell Phrase) :
    Except Halt Progress × Interpreter × Cell Phrase :=
  if !t.started then (.error (.misuse (.notStarted .terms)), t, input)
  else if t.finished then (.ok .eof, t, input)
  else run fuel t input

def read (t : Interpreter) : Except Misuse (Term × Interpreter) :=
  if !t.workspace.queue.hasOutput then .error (.nothingToRead .terms)
  else do
    match ← t.workspace.queue.get with
    | (some term, queue) => return (term, { t with workspace := { t.workspace with queue := queue } })
    | (none, _) => throw (.nothingToRead .terms)

def drain (fuel : Nat) :
    Nat → Interpreter → Cell Phrase → Array Term →
      Except Halt (Array Term × Progress) × Interpreter × Cell Phrase
  | 0, t, input, _ => (.error .unfinished, t, input)
  | rounds + 1, t, input, out =>
    match t.parse fuel input with
    | (.error h, t, input) => (.error h, t, input)
    | (.ok .outputAvailable, t, input) =>
      match t.read with
      | .error m => (.error (.misuse m), t, input)
      | .ok (term, t) => drain fuel rounds t input (out.push term)
    | (.ok progress, t, input) => (.ok (out, progress), t, input)

def readAll (fuel : Nat) (t : Interpreter) (input : Cell Phrase) :
    Except Halt (Array Term × Progress) × Interpreter × Cell Phrase :=
  drain fuel fuel t input #[]

end Interpreter

end TermStream
