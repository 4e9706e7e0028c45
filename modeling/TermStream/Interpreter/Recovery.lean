import TermStream.Interpreter.Frame

namespace TermStream

def maxTestSteps : Nat := 64

/-- The vote of a recovery test, a small graph of actions that only looks at the phrase, if it comes
to one in the given number of actions. -/
def testVote (g : Grammar) (p : Phrase) (keyword : Option KeywordId) :
    Nat → ActionId → Except MissingPart (Option ActionId)
  | 0, _ => .ok none
  | fuel + 1, id => do
    match ← g.action id with
    | .advance _ next => testVote g p keyword fuel next
    | .choice table =>
      testVote g p keyword fuel (table.select p.kind (p.token.map Token.key) keyword)
    | .recoveryVote resume _ => return some resume
    | _ => return none

namespace RuleFrame

/-- Where the frame would go on at a phrase, with the keywords it had when it was entered. -/
def vote (f : RuleFrame) (ws : Workspace) (p : Phrase) : Except MissingPart (Option ActionId) :=
  match f.recoveryTest with
  | none => .ok none
  | some test => do
    let keyword ← ws.keywords.classifyAt f.grammar f.keywordDepth p
    testVote f.grammar p keyword maxTestSteps test

end RuleFrame

/-- The frames after the nearest of the rules on top has voted, if one of them votes. -/
def voteAmong (ws : Workspace) (p : Phrase) :
    List Activation → Except MissingPart (Option (List Activation))
  | ⟨.rule f, result⟩ :: below => do
    match ← f.vote ws p with
    | some resume => return some (⟨.rule { f with activeChoice := some resume }, result⟩ :: below)
    | none =>
      let voted ← voteAmong ws p below
      return voted.map (⟨.rule f, result⟩ :: ·)
  | _ => .ok none

/-- The frames after a vote of the enclosing rules. Nobody votes at the end of the input. -/
def enclosingVote (ws : Workspace) (p : Phrase) (below : List Activation) :
    Except MissingPart (Option (List Activation)) :=
  if p.kind = .eof then .ok none else voteAmong ws p below

end TermStream
