import TermStream.Grammar

namespace TermStream

/-- A part of a grammar that refers to others, as it is named in a message. -/
inductive Holder where
  | action (id : ActionId)
  | rule (name : String)
  | context (name : String)
  | keywordContext (name : String)
  | grammar
deriving DecidableEq

def Holder.title : Holder → String
  | .action id => "action #" ++ toString id
  | .rule name => "rule '" ++ name ++ "'"
  | .context name => "context '" ++ name ++ "'"
  | .keywordContext name => "keyword context '" ++ name ++ "'"
  | .grammar => "grammar"

inductive GrammarError where
  | undefinedAction (id : ActionId)
  | actionRedefined (id : ActionId)
  | undefinedRule (name : String)
  | ruleRedefined (name : String)
  | danglingReference (holder : Holder) (missing : MissingPart)
  | duplicateContext (name : String)
  | noContexts
deriving DecidableEq

def GrammarError.message : GrammarError → String
  | .undefinedAction id => "action #" ++ toString id ++ " was reserved but never defined"
  | .actionRedefined id => "action #" ++ toString id ++ " is defined twice"
  | .undefinedRule name => "rule '" ++ name ++ "' was reserved but never defined"
  | .ruleRedefined name => "rule '" ++ name ++ "' is defined twice"
  | .danglingReference holder missing =>
    holder.title ++ " refers to missing " ++ missing.part.title ++ " " ++ toString missing.index
  | .duplicateContext name => "statement context '" ++ name ++ "' is defined twice"
  | .noContexts => "grammar defines no statement context"

structure PartReference where
  holder : Holder
  target : MissingPart

namespace Grammar

def actionReferences (id : ActionId) (a : Action) : List PartReference :=
  let refer := fun part index => (⟨.action id, ⟨part, index⟩⟩ : PartReference)
  a.successors.map (refer .action) ++
    match a with
    | .call rule _ _ => [refer .rule rule]
    | .choice table => table.keywords.map (fun k => refer .keyword k.1)
    | _ => []

def ruleReferences (r : Rule) : List PartReference :=
  let refer := fun part index => (⟨.rule r.name, ⟨part, index⟩⟩ : PartReference)
  (match r.body with
    | .actions entry => refer .action entry
    | .block context => refer .context context) ::
    (r.keywords.map (refer .keywordContext)).toList

def contextReferences (c : Context) : List PartReference :=
  let refer := fun part index => (⟨.context c.name, ⟨part, index⟩⟩ : PartReference)
  refer .action c.entry :: (c.keywords.map (refer .keywordContext)).toList

def keywordReferences (k : KeywordContext) : List PartReference :=
  k.words.map fun w => ⟨.keywordContext k.name, ⟨.keyword, w.2⟩⟩

/-- All references of a grammar, in the order in which they are checked. -/
def references (g : Grammar) : List PartReference :=
  g.actions.toList.zipIdx.flatMap (fun a => actionReferences a.2 a.1) ++
    g.rules.toList.flatMap ruleReferences ++
    g.contexts.toList.flatMap contextReferences ++
    g.keywordContexts.toList.flatMap keywordReferences ++
    [⟨.grammar, ⟨.context, g.defaultContext⟩⟩]

def dangling? (g : Grammar) : Option PartReference :=
  g.references.find? (fun r => g.count r.target.part ≤ r.target.index)

end Grammar

/-- A grammar that is being assembled. The graph of actions has cycles, so a part can be given its
index before it is defined. -/
structure Draft where
  systemId : String
  isScript : Bool
  /-- An action that is only reserved is missing. -/
  actions : Array (Option Action)
  rules : Array (String × Option Rule)
  contexts : Array Context
  defaultContext : Option ContextId
  keywords : Array String
  keywordContexts : Array KeywordContext
  errors : ErrorChain

namespace Draft

def new (systemId : String) : Draft := ⟨systemId, false, #[], #[], #[], none, #[], #[], .nil⟩

def setScript (d : Draft) (script : Bool) : Draft := { d with isScript := script }

def setErrors (d : Draft) (errors : ErrorChain) : Draft := { d with errors := errors }

def reserve (d : Draft) : ActionId × Draft :=
  (d.actions.size, { d with actions := d.actions.push none })

def define (d : Draft) (id : ActionId) (a : Action) : Except GrammarError Draft :=
  match d.actions[id]? with
  | none => .error (.undefinedAction id)
  | some (some _) => .error (.actionRedefined id)
  | some none => .ok { d with actions := d.actions.setIfInBounds id (some a) }

def add (d : Draft) (a : Action) : ActionId × Draft :=
  (d.actions.size, { d with actions := d.actions.push (some a) })

def keyword (d : Draft) (text : String) : KeywordId × Draft :=
  match d.keywords.findIdx? (fun w => w == text) with
  | some id => (id, d)
  | none => (d.keywords.size, { d with keywords := d.keywords.push text })

/-- The keywords of a list of words. A word that is repeated counts once. -/
def keywordList (d : Draft) : List String → List (String × KeywordId) × Draft
  | [] => ([], d)
  | w :: words =>
    let (id, d) := d.keyword w
    let (rest, d) := d.keywordList words
    (if words.contains w then rest else (w, id) :: rest, d)

def keywordContext (d : Draft) (name : String) (words : List String) :
    KeywordContextId × Draft :=
  let (known, d) := d.keywordList words
  (d.keywordContexts.size, { d with keywordContexts := d.keywordContexts.push ⟨name, known⟩ })

def reserveRule (d : Draft) (name : String) : RuleId × Draft :=
  (d.rules.size, { d with rules := d.rules.push (name, none) })

def defineRule (d : Draft) (id : RuleId) (r : Rule) : Except GrammarError Draft :=
  match d.rules[id]? with
  | none => .error (.undefinedRule r.name)
  | some (name, some _) => .error (.ruleRedefined name)
  | some (name, none) => .ok { d with rules := d.rules.setIfInBounds id (name, some r) }

def rule (d : Draft) (r : Rule) : RuleId × Draft :=
  (d.rules.size, { d with rules := d.rules.push (r.name, some r) })

/-- Defines a statement context. The first one is the default. -/
def context (d : Draft) (name : String) (entry : ActionId) (keywords : Option KeywordContextId) :
    Except GrammarError (ContextId × Draft) :=
  if d.contexts.any (fun c => c.name == name) then .error (.duplicateContext name)
  else .ok (d.contexts.size, { d with contexts := d.contexts.push ⟨name, entry, keywords⟩ })

def setDefaultContext (d : Draft) (id : ContextId) : Draft := { d with defaultContext := some id }

def definedActions (d : Draft) : Except GrammarError (Array Action) :=
  match d.actions.findIdx? Option.isNone with
  | some id => .error (.undefinedAction id)
  | none => .ok (d.actions.filterMap id)

def definedRules (d : Draft) : Except GrammarError (Array Rule) :=
  match d.rules.find? (fun r => r.2.isNone) with
  | some (name, _) => .error (.undefinedRule name)
  | none => .ok (d.rules.filterMap (·.2))

def build (d : Draft) : Except GrammarError Grammar := do
  if d.contexts.isEmpty then throw .noContexts
  let actions ← d.definedActions
  let rules ← d.definedRules
  let g : Grammar := ⟨d.systemId, d.isScript, actions, rules, d.contexts,
    d.defaultContext.getD 0, d.keywords, d.keywordContexts, d.errors⟩
  match g.dangling? with
  | some r => throw (.danglingReference r.holder r.target)
  | none => return g

end Draft

end TermStream
