import TermStream.Grammar.Draft

namespace TermStream.Grammar

def standardId : String := "strata:default"

/-- The grammar of documents that name no other: every statement is a run of values, operators,
separators and nested blocks. In script mode a document cannot choose another grammar. -/
def standard (script : Bool) : Grammar where
  systemId := standardId
  isScript := script
  actions := #[
    .advance true 6,
    .done true,
    .report .value .primary none true 0,
    .report .structural .operator none true 0,
    .report .structural .separator none true 0,
    .call 0 0 0,
    .choice
      ⟨[(.significant, 2), (.startBlock, 5)], [],
       [(.simple .graphics, 3), (.simple .comma, 4), (.simple .bracket, 4)], 1⟩]
  rules := #[⟨"block", .block 0, false, none, false⟩]
  contexts := #[⟨"statement", 0, none⟩]
  defaultContext := 0
  keywords := #[]
  keywordContexts := #[]
  errors := .nil

theorem dangling?_standard (script : Bool) : (standard script).dangling? = none := by
  cases script <;> rfl

end TermStream.Grammar
