import TermStream.Term
import TermStream.Token

namespace TermStream.Listing

def ofTokens (ts : List Token) : List String := ts.map Token.render

def ofPhrases (ps : List Phrase) : List String := ps.map Phrase.render

/-- White space and comments that are terms of their own. -/
def isTrivia (t : Term) : Bool :=
  t.kind == .ignorable && (t.role == .ignorable || t.role == .documentation)

def indent (depth : Nat) : String := String.ofList (List.replicate (2 * depth) ' ')

/-- The lines of terms inside `depth` starts. An end stands on the level of its start. -/
def termsFrom (trivia : Bool) (depth : Nat) : List Term → List String
  | [] => []
  | t :: ts =>
    let depth := if t.kind.isEnd then depth - 1 else depth
    let line := if trivia || !isTrivia t then [indent depth ++ t.render] else []
    line ++ termsFrom trivia (if t.kind.isStart then depth + 1 else depth) ts

def ofTerms (ts : List Term) (trivia : Bool) : List String := termsFrom trivia 0 ts

end TermStream.Listing
