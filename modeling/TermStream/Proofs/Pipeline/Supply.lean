import TermStream.Pipeline
import TermStream.Proofs.Interpreter.Preface
import TermStream.Proofs.Phrase.Placement
import TermStream.Proofs.Token.Quoted

namespace TermStream

def Phrase.Quoted (p : Phrase) : Prop := ∀ t ∈ p.token, t.Quoted

theorem Phrase.quoted_boundary (kind : PhraseKind) (position : Position) :
    (boundary kind position).Quoted :=
  fun t ht => absurd ht (Option.not_mem_none t)

/-- Whether what a document takes out of a phrase is what its token yields. -/
def Phrase.Taken (p : Phrase) : Prop :=
  ∃ t body, p.token = some t ∧ p.stringBody? = some body ∧ t.Yields body

theorem Phrase.Quoted.taken {p : Phrase} (h : p.Quoted) (hs : p.isString = true) : p.Taken := by
  unfold isString at hs
  cases ht : p.token with
  | none => simp [ht] at hs
  | some t =>
    simp only [ht] at hs
    obtain ⟨body, hb, hy⟩ := (h t ht).exists_yields hs
    exact ⟨t, body, ht, by rw [stringBody?, ht]; exact hb, hy⟩

theorem Grouper.Parsed.quoted {g g' : Grouper} {source : String} {input input' : Cell Token}
    {progress : Progress} (h : Parsed g source input progress g' input')
    (hp : ∀ p ∈ g.pending, p.Quoted) (ht : ∀ t ∈ input, t.Quoted) :
    (∀ p ∈ g'.pending, p.Quoted) ∧ ∀ t ∈ input', t.Quoted := by
  cases h with
  | pending => exact ⟨hp, ht⟩
  | ended => exact ⟨hp, ht⟩
  | starved => exact ⟨hp, ht⟩
  | phrase t hnone he hi r hr =>
    subst hi hr
    refine ⟨?_, ?_⟩
    · intro p hmem u hu
      cases hmem
      rw [(Grouped.ofToken_stands source g.grouping g.blocks t).token_eq] at hu
      split at hu
      · exact ht u hu
      · cases hu
    · split
      · exact fun u hu => absurd hu (Option.not_mem_none u)
      · exact ht

theorem Grouper.read_ok {g g' : Grouper} {p : Phrase} (h : g.read = .ok (p, g')) :
    (p ∈ g.pending ∨ p = .boundary .eof g.last) ∧ g'.pending = none ∧ g'.source = g.source := by
  unfold read at h
  split at h
  · next q hq =>
    cases h
    exact ⟨.inl hq, rfl, rfl⟩
  · next hn =>
    split at h
    · cases h
      exact ⟨.inr rfl, hn, rfl⟩
    · cases h

theorem Lexer.read_ok {l l' : Lexer} {t : Token} (h : l.read = .ok (t, l')) :
    t ∈ l.pending ∧ l' = l.emptied := by
  unfold read at h
  split at h
  · next u hu =>
    cases h
    exact ⟨hu, rfl⟩
  · cases h

namespace Pipeline

variable {p p' p₁ : Pipeline} {ready : Bool}

/-- The layers have been started, and every string between them has its quotes. -/
structure Supplied (p : Pipeline) : Prop where
  lexer : ∃ source, p.lexer.source = some source
  grouper : ∃ source, p.grouper.source = some source
  pendingToken : ∀ t ∈ p.lexer.pending, t.Quoted
  token : ∀ t ∈ p.token, t.Quoted
  pendingPhrase : ∀ q ∈ p.grouper.pending, q.Quoted
  phrase : ∀ q ∈ p.phrase, q.Quoted

def Supplies (p p' : Pipeline) : Prop :=
  p.Supplied → p'.Supplied ∧ p'.interpreter = p.interpreter

theorem Supplies.trans (h : p.Supplies p₁) (h' : p₁.Supplies p') : p.Supplies p' := by
  intro hs
  obtain ⟨hs₁, hi₁⟩ := h hs
  obtain ⟨hs₂, hi₂⟩ := h' hs₁
  exact ⟨hs₂, hi₂.trans hi₁⟩

theorem fillToken_supplies (hf : p.fillToken = .ok (ready, p')) : p.Supplies p' := by
  intro h
  obtain ⟨source, hs⟩ := h.lexer
  obtain ⟨progress, l, b, hok, hparsed⟩ := Lexer.parse_parsed p.backlog p.final hs
  have hl : l.source = some source := hparsed.source_eq.trans hs
  have hquoted := hparsed.quoted h.pendingToken
  simp only [fillToken, hok, bind, Except.bind] at hf
  split at hf
  · cases hf
    exact ⟨⟨⟨source, hl⟩, h.grouper, hquoted, h.token, h.pendingPhrase, h.phrase⟩, rfl⟩
  · split at hf
    · cases hf
    · next found hr =>
      obtain ⟨t, l'⟩ := found
      obtain ⟨hpending, rfl⟩ := Lexer.read_ok hr
      cases hc : p.token with
      | some t' => simp [hc, Cell.put] at hf
      | none =>
        simp only [hc, Cell.put] at hf
        cases hf
        refine ⟨⟨⟨source, hl⟩, h.grouper, ?_, ?_, h.pendingPhrase, h.phrase⟩, rfl⟩
        · exact fun u hu => absurd hu (Option.not_mem_none u)
        · intro u hu
          cases hu
          exact hquoted t hpending

theorem takePhrase_supplies (hf : p.takePhrase = .ok (ready, p')) : p.Supplies p' := by
  intro h
  obtain ⟨source, hs⟩ := h.grouper
  obtain ⟨progress, g, token, hok, hparsed⟩ := Grouper.parse_parsed p.token hs
  have hg : g.source = some source := hparsed.source_eq.trans hs
  obtain ⟨hphrase, htoken⟩ := hparsed.quoted h.pendingPhrase h.token
  simp only [takePhrase, hok, bind, Except.bind] at hf
  split at hf
  · cases hf
    exact ⟨⟨h.lexer, ⟨source, hg⟩, h.pendingToken, htoken, hphrase, h.phrase⟩, rfl⟩
  · split at hf
    · cases hf
    · next found hr =>
      obtain ⟨q, g'⟩ := found
      obtain ⟨hq, hpending, hsource⟩ := Grouper.read_ok hr
      cases hc : p.phrase with
      | some q' => simp [hc, Cell.put] at hf
      | none =>
        simp only [hc, Cell.put] at hf
        cases hf
        refine ⟨⟨h.lexer, ⟨source, hsource.trans hg⟩, h.pendingToken, htoken, ?_, ?_⟩, rfl⟩
        · intro u hu
          cases hpending.symm.trans hu
        · intro u hu
          cases hu
          rcases hq with hq | rfl
          · exact hphrase q hq
          · exact Phrase.quoted_boundary _ _

theorem fillPhrase_supplies (hf : p.fillPhrase = .ok (ready, p')) : p.Supplies p' := by
  simp only [fillPhrase, bind, Except.bind] at hf
  split at hf
  · cases hf
  · next found hp =>
    have h := takePhrase_supplies hp
    split at hf
    · cases hf
      exact h
    · split at hf
      · cases hf
      · next found hq =>
        have h' := h.trans (fillToken_supplies hq)
        split at hf
        · exact h'.trans (takePhrase_supplies hf)
        · cases hf
          exact h'

end Pipeline

end TermStream
