import TermStream.Grammar.Standard

namespace TermStream

/-- What a document names its grammar by. -/
structure GrammarReference where
  publicId : Option String
  systemId : Option String
deriving DecidableEq

namespace GrammarReference

def isEmpty (r : GrammarReference) : Bool := r.publicId.isNone && r.systemId.isNone

def render : GrammarReference → String
  | ⟨some p, some s⟩ => p ++ " (" ++ s ++ ")"
  | ⟨some p, none⟩ => p
  | ⟨none, some s⟩ => s
  | ⟨none, none⟩ => "<default>"

end GrammarReference

abbrev Resolver := GrammarReference → Option Grammar

def Resolver.standard : Resolver := fun r =>
  if r.isEmpty || r.systemId == some Grammar.standardId then some (Grammar.standard false)
  else none

end TermStream
