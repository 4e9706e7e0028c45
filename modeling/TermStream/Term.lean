import TermStream.Grammar.Action
import TermStream.Phrase

namespace TermStream

/-- An event of the stream that a grammar makes of phrases. It wraps a phrase and has its range, or
it stands at a position and has no width. -/
structure Term where
  kind : TermKind
  role : Role
  name : Option StructuralName
  phrase : Option Phrase
  start : Position
  stop : Position
  /-- The system id of the grammar that produced the term, once there is a grammar. -/
  grammar : Option String
  /-- The errors of the term itself. -/
  ownErrors : ErrorChain
deriving DecidableEq, Inhabited

namespace Term

def event (kind : TermKind) (role : Role) (p : Position) : Term :=
  ⟨kind, role, none, none, p, p, none, .nil⟩

def wrap (kind : TermKind) (role : Role) (p : Phrase) : Term :=
  ⟨kind, role, none, some p, p.start, p.stop, none, .nil⟩

/-- A phrase that is passed over, with the role that its token has. -/
def ignorable (p : Phrase) : Term :=
  wrap .ignorable (if p.tokenKind? = some .docComment then .documentation else .ignorable) p

def named (t : Term) (name : Option StructuralName) : Term := { t with name := name }

def withErrors (t : Term) (errors : ErrorChain) : Term := { t with ownErrors := errors }

def text (t : Term) : String :=
  match t.phrase with
  | some p => p.text
  | none => ""

/-- The chains of a term, of its phrase and of its token, in this order. -/
def chains (t : Term) : List ErrorChain :=
  match t.phrase with
  | none => [t.ownErrors]
  | some ⟨_, none, _, errors⟩ => [t.ownErrors, errors]
  | some ⟨_, some k, _, errors⟩ => [t.ownErrors, errors, k.errors]

def errors (t : Term) : List (Report × ErrorChain) := t.chains.flatMap ErrorChain.nodes

def render (t : Term) : String :=
  let name := match t.name with
    | some n => "(" ++ n.render ++ ")"
    | none => ""
  let text := match t.phrase with
    | some p => if p.hasToken then " " ++ Text.quoted p.text else ""
    | none => ""
  let role := if t.role = .unknown then "" else " [" ++ t.role.name ++ "]"
  t.kind.name ++ name ++ text ++ role ++ " @" ++ t.start.render

end Term

end TermStream
