namespace TermStream

inductive Layer where
  | lexer
  | phrases
  | terms
deriving DecidableEq

def Layer.title : Layer → String
  | .lexer => "lexer"
  | .phrases => "phrase parser"
  | .terms => "term parser"

/-- A mistake of a caller. A malformed source is never one: its errors travel on the tokens. -/
inductive Misuse where
  | alreadyStarted (layer : Layer)
  | notStarted (layer : Layer)
  | nothingToRead (layer : Layer)
  | grammarAlreadyProvided
  | marksLive (count : Nat)
  | noMark
  | cellOccupied
deriving DecidableEq

def Misuse.message : Misuse → String
  | .alreadyStarted l => l.title ++ " was started twice"
  | .notStarted l => l.title ++ " was used before start"
  | .nothingToRead l => l.title ++ " has no token ready to read"
  | .grammarAlreadyProvided => "a grammar was already provided to the term parser"
  | .marksLive n => "cannot dequeue while " ++ toString n ++ " mark(s) are live"
  | .noMark => "mark operation without a live uncommitted mark"
  | .cellOccupied => "cell already holds a value"

end TermStream
