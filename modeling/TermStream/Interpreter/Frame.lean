import TermStream.Interpreter.Workspace

namespace TermStream

/-- How the last child of a frame ended, until the frame takes notice. -/
inductive CallResult where
  | none
  | success
  | failure
deriving DecidableEq

def CallResult.ofSuccess (success : Bool) : CallResult := if success then .success else .failure

inductive DoctypeProperty where
  | publicId
  | systemId
  | context
deriving DecidableEq

def DoctypeProperty.name : DoctypeProperty → String
  | .publicId => "publicId"
  | .systemId => "systemId"
  | .context => "context"

def DoctypeProperty.keyword : DoctypeProperty → String
  | .publicId => "public"
  | .systemId => ""
  | .context => "context"

inductive DocumentPhase where
  | start
  | leading
  | properties
  | expectString (property : DoctypeProperty)
  | selectGrammar
  | awaitGrammar
  | loaded
  | body (grammar : Grammar) (context : ContextId)

/-- A context that a document has asked for, and the range of its string. -/
structure NamedContext where
  name : String
  start : Position
  stop : Position
deriving DecidableEq

structure DocumentFrame where
  phase : DocumentPhase
  publicId : Option String
  systemId : Option String
  context : Option NamedContext

structure SequenceFrame where
  grammar : Grammar
  context : ContextId

inductive StatementPhase where
  | start
  | leading
  | body
  | tail
deriving DecidableEq

structure StatementFrame where
  grammar : Grammar
  context : ContextId
  phase : StatementPhase
  ruleSucceeded : Bool
  /-- Whether a token that the rule has left over was reported as an error. -/
  reportedLeftover : Bool

inductive BlockPhase where
  | opening
  | body
  | closing
deriving DecidableEq

structure BlockFrame where
  grammar : Grammar
  context : ContextId
  phase : BlockPhase
  /-- The count of the enclosing rules that let no line break end a statement. -/
  savedSoftEnd : Nat

/-- A running rule, or the actions of a statement. -/
structure RuleFrame where
  grammar : Grammar
  current : ActionId
  entered : Bool
  marked : Bool
  keywords : Option KeywordContextId
  keywordsPushed : Bool
  disablesSoftEnd : Bool
  /-- The depth of the keyword stack right after the frame was entered. -/
  keywordDepth : Nat
  recoveryTest : Option ActionId
  /-- Where the frame has voted to go on. -/
  activeChoice : Option ActionId

/-- The interpreter keeps all of its state on a stack of frames, so that it can stop after any step
and go on later. -/
inductive Frame where
  | document (f : DocumentFrame)
  | sequence (f : SequenceFrame)
  | statement (f : StatementFrame)
  | block (f : BlockFrame)
  | rule (f : RuleFrame)

structure Activation where
  frame : Frame
  result : CallResult

/-- What is to be done after a step of the frame on top, which is given in its new state. -/
inductive Move where
  | again (f : Frame)
  | needInput (f : Frame)
  | needResource (f : Frame)
  | call (f child : Frame)
  | leave (result : CallResult)

/-- Why a step came to nothing. -/
inductive Halt where
  | misuse (m : Misuse)
  | missing (p : MissingPart)
  /-- The allotted number of steps was not enough. -/
  | unfinished
deriving DecidableEq

/-- The outcome of a step: the move, the frames below, and all that the frames share. -/
structure Turn where
  move : Move
  below : List Activation
  workspace : Workspace
  input : Cell Phrase

def Halt.ofMisuse {α : Type} : Except Misuse α → Except Halt α
  | .ok a => .ok a
  | .error m => .error (.misuse m)

def Halt.ofMissing {α : Type} : Except MissingPart α → Except Halt α
  | .ok a => .ok a
  | .error p => .error (.missing p)

namespace DocumentFrame

def new : DocumentFrame := ⟨.start, none, none, none⟩

end DocumentFrame

namespace StatementFrame

def new (g : Grammar) (context : ContextId) : StatementFrame := ⟨g, context, .start, false, false⟩

end StatementFrame

namespace BlockFrame

def new (g : Grammar) (context : ContextId) : BlockFrame := ⟨g, context, .opening, 0⟩

end BlockFrame

namespace RuleFrame

def new (g : Grammar) (entry : ActionId) : RuleFrame :=
  ⟨g, entry, false, false, none, false, false, 0, none, none⟩

def ofContext (g : Grammar) (id : ContextId) : Except MissingPart RuleFrame := do
  let c ← g.context id
  return { new g c.entry with keywords := c.keywords }

end RuleFrame

def Frame.ofRule (g : Grammar) (id : RuleId) : Except MissingPart Frame := do
  let r ← g.rule id
  match r.body with
  | .block context => return .block (.new g context)
  | .actions entry =>
    return .rule { RuleFrame.new g entry with
      marked := r.marked, keywords := r.keywords, disablesSoftEnd := r.disablesSoftEnd }

end TermStream
