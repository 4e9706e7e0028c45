import TermStream.Token
import TermStream.Vocabulary.PhraseKind
import TermStream.Vocabulary.Role
import TermStream.Vocabulary.TermKind

namespace TermStream

abbrev ActionId := Nat
abbrev RuleId := Nat
abbrev ContextId := Nat
abbrev KeywordId := Nat
abbrev KeywordContextId := Nat

/-- What a start term opens: an object of some namespace, or a property, which may be a list. -/
inductive StructuralName where
  | object (space name : String)
  | property (name : String) (isList : Bool)
deriving DecidableEq

def StructuralName.render : StructuralName → String
  | .object space name => if space.isEmpty then name else space ++ ":" ++ name
  | .property name isList => if isList then name ++ "[]" else name

def retarget {κ : Type} [DecidableEq κ] (key : κ) (target : ActionId) :
    List (κ × ActionId) → List (κ × ActionId)
  | [] => [(key, target)]
  | (k, t) :: table => if k = key then (k, target) :: table else (k, t) :: retarget key target table

def targetOf? {κ : Type} [DecidableEq κ] (table : List (κ × ActionId)) (key : κ) :
    Option ActionId :=
  (table.find? (fun t => t.1 = key)).map (·.2)

/-- A choice of the next action by the current phrase. -/
structure ChoiceTable where
  kinds : List (PhraseKind × ActionId)
  keywords : List (KeywordId × ActionId)
  tokens : List (TokenKey × ActionId)
  unmatched : ActionId
deriving DecidableEq

namespace ChoiceTable

def otherwise (unmatched : ActionId) : ChoiceTable := ⟨[], [], [], unmatched⟩

def onKind (c : ChoiceTable) (kind : PhraseKind) (target : ActionId) : ChoiceTable :=
  { c with kinds := retarget kind target c.kinds }

def onKeyword (c : ChoiceTable) (keyword : KeywordId) (target : ActionId) : ChoiceTable :=
  { c with keywords := retarget keyword target c.keywords }

def onToken (c : ChoiceTable) (key : TokenKey) (target : ActionId) : ChoiceTable :=
  { c with tokens := retarget key target c.tokens }

/-- The target for a keyword, else for the token's key, else for the key's kind. -/
def significant? (c : ChoiceTable) (key : Option TokenKey) (keyword : Option KeywordId) :
    Option ActionId :=
  (keyword.bind (targetOf? c.keywords)).or
    (key.bind fun k => (targetOf? c.tokens k).or (targetOf? c.tokens k.kindOnly))

/-- The target for a phrase. Only a significant one is chosen by more than its kind. -/
def select (c : ChoiceTable) (kind : PhraseKind) (key : Option TokenKey)
    (keyword : Option KeywordId) : ActionId :=
  let special := if kind = .significant then c.significant? key keyword else none
  (special.or (targetOf? c.kinds kind)).getD c.unmatched

/-- All targets, the one for anything else last. -/
def targets (c : ChoiceTable) : List ActionId :=
  c.kinds.map (·.2) ++ c.keywords.map (·.2) ++ c.tokens.map (·.2) ++ [c.unmatched]

end ChoiceTable

/-- A node of the graph by which a grammar describes its statements. -/
inductive Action where
  /-- Report ignorable phrases until one comes that is not. -/
  | advance (skipDocComments : Bool) (next : ActionId)
  | call (rule : RuleId) (success failure : ActionId)
  | choice (table : ChoiceTable)
  /-- Report a term for the current phrase, which it wraps if it is to be consumed. -/
  | report (kind : TermKind) (role : Role) (name : Option StructuralName) (consume : Bool)
      (next : ActionId)
  /-- Put a term in front of what the running rule has reported. -/
  | reportBefore (kind : TermKind) (name : Option StructuralName) (next : ActionId)
  | reportError (code : ErrorCode) (args : List String) (next : ActionId)
  /-- Make `test` the recovery test of the running rule. -/
  | recoverySetup (test next : ActionId)
  /-- In a recovery test, vote for going on at `resume`; otherwise do nothing. -/
  | recoveryVote (resume next : ActionId)
  /-- Branch between the normal course and recovery. -/
  | recoveryChoice (normal recovery : ActionId)
  /-- Give up the keywords of the running rule before its end. -/
  | popKeywords (next : ActionId)
  | done (success : Bool)
deriving DecidableEq

def Action.successors : Action → List ActionId
  | .advance _ next | .report _ _ _ _ next | .reportBefore _ _ next | .reportError _ _ next
  | .popKeywords next => [next]
  | .call _ success failure => [success, failure]
  | .choice table => table.targets
  | .recoverySetup test next => [test, next]
  | .recoveryVote resume next => [resume, next]
  | .recoveryChoice normal recovery => [normal, recovery]
  | .done _ => []

end TermStream
