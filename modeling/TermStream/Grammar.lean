import TermStream.Phrase
import TermStream.Grammar.Action

namespace TermStream

/-- What a rule runs: the actions from an entry on, or a block with statements of a context. -/
inductive RuleBody where
  | actions (entry : ActionId)
  | block (context : ContextId)
deriving DecidableEq

structure Rule where
  name : String
  body : RuleBody
  /-- Whether the rule can put terms in front of those it has reported. -/
  marked : Bool
  /-- The keywords while the rule runs. -/
  keywords : Option KeywordContextId
  /-- Whether line breaks inside the rule end no statement. -/
  disablesSoftEnd : Bool
deriving DecidableEq

structure Context where
  name : String
  /-- Where the actions start that are run once for each statement. -/
  entry : ActionId
  keywords : Option KeywordContextId
deriving DecidableEq

/-- A set of words that are keywords at the same places. -/
structure KeywordContext where
  name : String
  words : List (String × KeywordId)
deriving DecidableEq

def KeywordContext.lookup? (k : KeywordContext) (text : String) : Option KeywordId :=
  (k.words.find? (fun w => w.1 == text)).map (·.2)

/-- A graph of actions with the rules and statement contexts that start in it, and sets of words
that are keywords in some of them. Everything is addressed by its index. -/
structure Grammar where
  systemId : String
  isScript : Bool
  actions : Array Action
  rules : Array Rule
  contexts : Array Context
  defaultContext : ContextId
  keywords : Array String
  keywordContexts : Array KeywordContext
  /-- What went wrong when the grammar was loaded. -/
  errors : ErrorChain
deriving DecidableEq

inductive Part where
  | action
  | rule
  | context
  | keyword
  | keywordContext
deriving DecidableEq

def Part.title : Part → String
  | .action => "action"
  | .rule => "rule"
  | .context => "context"
  | .keyword => "keyword"
  | .keywordContext => "keyword context"

/-- A part that a grammar does not have. -/
structure MissingPart where
  part : Part
  index : Nat
deriving DecidableEq

namespace Grammar

def action (g : Grammar) (id : ActionId) : Except MissingPart Action :=
  match g.actions[id]? with
  | some a => .ok a
  | none => .error ⟨.action, id⟩

def rule (g : Grammar) (id : RuleId) : Except MissingPart Rule :=
  match g.rules[id]? with
  | some r => .ok r
  | none => .error ⟨.rule, id⟩

def context (g : Grammar) (id : ContextId) : Except MissingPart Context :=
  match g.contexts[id]? with
  | some c => .ok c
  | none => .error ⟨.context, id⟩

def keywordContext (g : Grammar) (id : KeywordContextId) : Except MissingPart KeywordContext :=
  match g.keywordContexts[id]? with
  | some k => .ok k
  | none => .error ⟨.keywordContext, id⟩

def keywordText (g : Grammar) (id : KeywordId) : Except MissingPart String :=
  match g.keywords[id]? with
  | some w => .ok w
  | none => .error ⟨.keyword, id⟩

def contextNamed? (g : Grammar) (name : String) : Option ContextId :=
  g.contexts.findIdx? (fun c => c.name == name)

/-- The keyword that the token of a phrase is in one set of keywords. -/
def classify (g : Grammar) (id : KeywordContextId) (p : Phrase) :
    Except MissingPart (Option KeywordId) :=
  match p.token with
  | none => .ok none
  | some t => (g.keywordContext id).map (fun k => k.lookup? t.text)

def withLoadErrors (g : Grammar) (errors : ErrorChain) : Grammar :=
  { g with errors := errors.join g.errors }

def count (g : Grammar) : Part → Nat
  | .action => g.actions.size
  | .rule => g.rules.size
  | .context => g.contexts.size
  | .keyword => g.keywords.size
  | .keywordContext => g.keywordContexts.size

end Grammar

end TermStream
