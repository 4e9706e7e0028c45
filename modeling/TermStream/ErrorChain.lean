import TermStream.Position
import TermStream.Text.Quoted
import TermStream.Text.Template
import TermStream.Vocabulary.Problem

namespace TermStream

/-- A code with the template of its message. Grammars may have codes of their own. -/
structure ErrorCode where
  code : String
  template : String
deriving DecidableEq, Inhabited

namespace ErrorCode

def ofProblem (p : Problem) : ErrorCode := ⟨p.code, p.template⟩

instance : Coe Problem ErrorCode := ⟨ofProblem⟩

def problem? (c : ErrorCode) : Option Problem := Problem.ofCode? c.code

def render (c : ErrorCode) (args : List String) : String := Text.Template.render c.template args

end ErrorCode

structure Report where
  code : ErrorCode
  args : List String
  location : Location
deriving DecidableEq, Inhabited

namespace Report

def message (r : Report) : String := r.code.render r.args

def render (r : Report) : String :=
  r.location.render ++ ": " ++ r.message ++ " [" ++ r.code.code ++ "]"

def renderTuple (r : Report) : String :=
  let p := r.location.start
  "(" ++ Text.quoted r.code.code ++ ", " ++ Text.quoted r.message ++ ", TextPos \x7b line: " ++
    toString p.line ++ ", column: " ++ toString p.column ++ ", offset: " ++ toString p.offset ++
    " \x7d)"

end Report

/-- A possibly empty chain: its newest error, the cause of that error, and the older errors. -/
inductive ErrorChain where
  | nil
  | cons (report : Report) (cause : ErrorChain) (next : ErrorChain)
deriving DecidableEq, Inhabited

namespace ErrorChain

def single (r : Report) : ErrorChain := .cons r .nil .nil

def explained (r : Report) (cause : ErrorChain) : ErrorChain := .cons r cause .nil

def prepend (chain : ErrorChain) (r : Report) : ErrorChain := .cons r .nil chain

/-- The errors of `first` in front of those of `second`. -/
def join : ErrorChain → ErrorChain → ErrorChain
  | .nil, second => second
  | .cons r cause next, second => .cons r cause (next.join second)

def isEmpty : ErrorChain → Bool
  | .nil => true
  | .cons .. => false

def next : ErrorChain → ErrorChain
  | .nil => .nil
  | .cons _ _ next => next

def cause : ErrorChain → ErrorChain
  | .nil => .nil
  | .cons _ cause _ => cause

/-- The errors of a chain with their causes, newest first. -/
def nodes : ErrorChain → List (Report × ErrorChain)
  | .nil => []
  | .cons r cause next => (r, cause) :: next.nodes

/-- The errors of a chain, newest first, causes left out. -/
def reports (chain : ErrorChain) : List Report := chain.nodes.map (·.1)

def length (chain : ErrorChain) : Nat := chain.nodes.length

def contains (chain : ErrorChain) (p : Problem) : Bool :=
  chain.reports.any (fun r => r.code.problem? == some p)

def renderTuples (chain : ErrorChain) : String :=
  "[" ++ String.intercalate ", " (chain.reports.map Report.renderTuple) ++ "]"

end ErrorChain

end TermStream
