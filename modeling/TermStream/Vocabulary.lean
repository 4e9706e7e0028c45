namespace TermStream.Vocabulary

inductive Stability where
  | stable
  | draft
  | deprecated
deriving DecidableEq

def Stability.name : Stability → String
  | .stable => "Stable"
  | .draft => "Draft"
  | .deprecated => "Deprecated"

structure Since where
  major : Nat
  minor : Nat
deriving DecidableEq

def Since.render (s : Since) : String :=
  toString s.major ++ "." ++ toString s.minor

/-- One spelling with the other accepted ones, a description and a history: the shape shared by all
registries. -/
structure Entry (κ : Type) where
  kind : κ
  canonical : String
  aliases : List String
  description : String
  since : Since
  stability : Stability

def entry {κ : Type} (kind : κ) (canonical description : String) : Entry κ :=
  ⟨kind, canonical, [], description, ⟨0, 1⟩, .stable⟩

def Entry.alsoSpelled {κ : Type} (e : Entry κ) (aliases : List String) : Entry κ :=
  { e with aliases := aliases }

/-- The kind with the given spelling; canonical spellings come before aliases. -/
def resolve? {κ : Type} (entries : List (Entry κ)) (spelling : String) : Option κ :=
  match entries.find? (fun e => e.canonical == spelling) with
  | some e => some e.kind
  | none => (entries.find? (fun e => e.aliases.contains spelling)).map (·.kind)

end TermStream.Vocabulary
