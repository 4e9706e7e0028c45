import TermStream.Grammar

namespace TermStream

/-- The sets of keywords of the running rules. The answer for the current phrase is kept until the
phrase is consumed or the stack changes. -/
structure KeywordStack where
  /-- The innermost set of keywords first. -/
  contexts : List KeywordContextId
  memo : Option (Option KeywordId)

namespace KeywordStack

def empty : KeywordStack := ⟨[], none⟩

def push (s : KeywordStack) (id : KeywordContextId) : KeywordStack := ⟨id :: s.contexts, none⟩

def pop (s : KeywordStack) : KeywordStack := ⟨s.contexts.tail, none⟩

def depth (s : KeywordStack) : Nat := s.contexts.length

def invalidate (s : KeywordStack) : KeywordStack := { s with memo := none }

def top? (s : KeywordStack) (depth : Nat) : Option KeywordContextId :=
  if depth = 0 ∨ s.depth < depth then none else s.contexts[s.depth - depth]?

/-- The keyword that a phrase is when the stack has only its `depth` outermost sets. -/
def classifyAt (s : KeywordStack) (g : Grammar) (depth : Nat) (p : Phrase) :
    Except MissingPart (Option KeywordId) :=
  if p.kind ≠ .significant then .ok none
  else
    match s.top? depth with
    | none => .ok none
    | some id => g.classify id p

def classify (s : KeywordStack) (g : Grammar) (p : Phrase) :
    Except MissingPart (Option KeywordId × KeywordStack) :=
  match s.memo with
  | some answer => .ok (answer, s)
  | none => (s.classifyAt g s.depth p).map fun answer => (answer, { s with memo := some answer })

end KeywordStack

end TermStream
