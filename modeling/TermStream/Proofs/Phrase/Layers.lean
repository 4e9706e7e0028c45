import TermStream.Proofs.Phrase.Turns
import TermStream.Proofs.Token.Findings

namespace TermStream

/-- The layer that has found an error. An error of a grammar's own belongs to none. -/
def Report.layer? (r : Report) : Option ProblemLayer := r.code.problem?.map Problem.layer

theorem Report.layer?_ofProblem (p : Problem) (args : List String) (location : Location) :
    Report.layer? ⟨p, args, location⟩ = some p.layer := by
  rw [layer?, ErrorCode.problem?_ofProblem]
  rfl

namespace Lexer

theorem lexemeWithin_lexical {l : Lexer} {limit : Nat} {final : Bool} {first : Char}
    {cs : List Char} {found : Extent} (h : l.lexemeWithin limit final first cs = some found) :
    ∀ f ∈ found.findings, f.problem.layer = .lexical := by
  have hr := Lexeme.lexical_recognize l.atStart l.docComments first (upTo (limit - 1) cs)
  unfold lexemeWithin at h
  dsimp only at h
  split at h
  · cases h
    exact fun f hf => (hr f hf).1
  · split at h
    · cases h
      intro f hf
      rcases List.mem_append.1 hf with hf | hf
      · exact (hr f hf).1
      · obtain rfl := List.mem_singleton.1 hf
        rfl
    · split at h
      · cases h
        exact fun f hf => (hr f hf).1
      · cases h

theorem nextLexeme_lexical {l : Lexer} {final : Bool} {first : Char} {cs : List Char}
    {found : Extent} (h : l.nextLexeme final first cs = some found) :
    ∀ f ∈ found.findings, f.problem.layer = .lexical := by
  unfold nextLexeme at h
  split at h
  · cases h
  · next e he =>
    split at h
    · cases h
      exact lexemeWithin_lexical he
    · exact lexemeWithin_lexical h

theorem layer?_chainOf (location : Location) {findings : List Finding}
    (hf : ∀ f ∈ findings, f.problem.layer = .lexical) :
    ∀ n ∈ (chainOf location findings).nodes, n.1.layer? = some .lexical := by
  intro n hn
  rw [nodes_chainOf] at hn
  obtain ⟨f, hmem, rfl⟩ := List.mem_map.1 hn
  rw [Report.layer?_ofProblem, hf f (List.mem_reverse.1 hmem)]

theorem ahead_lexical {l : Lexer} {source : String} (cs : List Char) (hs : l.source = some source)
    (hp : l.pending = none) (he : l.ended = false) :
    ∀ t ∈ l.ahead cs, ∀ n ∈ t.errors.nodes, n.1.layer? = some .lexical := by
  refine ahead_induction (motive := fun _ _ ts =>
    ∀ t ∈ ts, ∀ n ∈ t.errors.nodes, n.1.layer? = some .lexical) ?_ ?_ cs hs hp he
  · intro l t ht
    obtain rfl := List.mem_singleton.1 ht
    exact List.forall_mem_nil _
  · intro l first rest found text ts hf htext ih
    exact List.forall_mem_cons.2 ⟨layer?_chainOf _ (nextLexeme_lexical hf), ih⟩

end Lexer

theorem tokens_lexical {source text : String} {settings : Settings} {ts : List Token}
    (h : tokens source text settings = .ok ts) :
    ∀ t ∈ ts, ∀ n ∈ t.errors.nodes, n.1.layer? = some .lexical := by
  rw [tokens_eq_ahead] at h
  cases h
  exact Lexer.ahead_lexical text.toList rfl rfl rfl

namespace Grouped

variable {source : String} {g : Grouping} {blocks : List OpenBlock} {t : Token} {ts : List Token}

theorem Turns.layer?_errors {r : Grouped} (h : Turns source g blocks t r) :
    ∀ n ∈ r.phrase.errors.nodes, n.1.layer? = some .phrase := by
  intro n hn
  cases h with
  | stray hg hk hb =>
    obtain rfl := List.mem_singleton.1 hn
    exact Report.layer?_ofProblem _ _ _
  | unterminated hg hk block rest hb =>
    obtain rfl := List.mem_singleton.1 hn
    exact Report.layer?_ofProblem _ _ _
  | _ => cases hn

theorem Course.layer?_errors {out : List (Phrase × Grouper)} (h : Course source g blocks ts out) :
    ∀ x ∈ out, ∀ n ∈ x.1.errors.nodes, n.1.layer? = some .phrase := by
  induction h with
  | ended => exact List.forall_mem_nil _
  | turn ha hr ht rest ih => exact List.forall_mem_cons.2 ⟨ht.layer?_errors, ih⟩

end Grouped

/-- All errors of the phrases of a source, but for those of their tokens, are errors of the
structure. -/
theorem phrases_layer {source : String} {ts : List Token} {ps : List Phrase}
    (ht : EndsOnce Token.isEof ts) (h : phrasesOf source ts = .ok ps) :
    ∀ p ∈ ps, ∀ n ∈ p.errors.nodes, n.1.layer? = some .phrase := by
  obtain ⟨out, hout⟩ := Grouped.exists_course source .statementSequence [] ts ht
  rw [phrasesOf_eq, hout.phrases_eq] at h
  cases h
  intro p hp
  obtain ⟨x, hx, rfl⟩ := List.mem_map.1 hp
  exact hout.layer?_errors x hx

end TermStream
