import TermStream.Proofs.Token.Limit

namespace TermStream

open Text

/-- The words that can stand in front of a string or behind a number. -/
def IsWord (cs : List Char) : Prop :=
  ∃ first more, cs = first :: more ∧ isIdentifierStart first = true ∧
    ∀ c ∈ more, isIdentifierPart c = true

theorem isIdentifierPart_of_start {c : Char} (h : isIdentifierStart c = true) :
    isIdentifierPart c = true := by
  unfold isIdentifierStart at h
  unfold isIdentifierPart isAlphanumeric
  rcases Bool.or_eq_true_iff.1 h with ha | ha
  · rw [ha]
    rfl
  · rw [ha, Bool.or_true]

theorem IsWord.all {cs : List Char} (h : IsWord cs) : ∀ c ∈ cs, isIdentifierPart c = true := by
  obtain ⟨first, more, rfl, hs, hp⟩ := h
  exact List.forall_mem_cons.2 ⟨isIdentifierPart_of_start hs, hp⟩

/-- What a token is, but for its place: the findings are in the order in which they were made. -/
structure Form where
  key : TokenKey
  text : List Char
  findings : List Finding

/-- A token with the errors of its form and no others. The last finding is the newest error; all are
located at the token, and none has a cause. -/
structure Token.HasForm (t : Token) (source : String) (f : Form) : Prop where
  key_eq : t.key = f.key
  text_eq : t.text.toList = f.text
  errors_eq : t.errors.nodes = f.findings.reverse.map fun finding =>
    (⟨finding.problem, finding.args, ⟨source, t.start, t.stop⟩⟩, .nil)

structure Lexeme.HasForm (found : Lexeme) (f : Form) (rest : List Char) : Prop where
  key_eq : found.key = f.key
  rest_eq : found.scan.rest = rest
  findings_eq : found.scan.findings = f.findings

namespace Lexer

variable {l : Lexer} {b : Backlog} {source : String} {first : Char} {cs rest : List Char} {f : Form}

theorem uncut_of_form (hf : (Lexeme.recognize l.atStart l.docComments first cs).HasForm f rest)
    (ht : first :: cs = f.text ++ rest) :
    l.uncut first cs = ⟨f.key, f.text.length, f.findings⟩ := by
  have hlength := congrArg List.length ht
  rw [List.length_cons, List.length_append] at hlength
  unfold uncut Lexeme.length
  dsimp only
  rw [hf.key_eq, hf.rest_eq, hf.findings_eq, hlength, Nat.add_sub_cancel]

theorem tokenOf_hasForm (ht : first :: cs = f.text ++ rest) :
    (l.tokenOf source first cs ⟨f.key, f.text.length, f.findings⟩).HasForm source f := by
  constructor
  · rfl
  · rw [tokenOf_text_toList, ht]
    exact List.take_left
  · exact nodes_chainOf _ _

theorem reportsOf_ne_nil {t : Token} {n : Nat}
    (h : (t.errors.reportsOf .tooManyCharacters).map (·.args) = [[toString n]]) :
    t.errors.reportsOf .tooManyCharacters ≠ [] := by
  intro hn
  rw [hn] at h
  cases h

/-- A token that is no operator is reported as too long if it is longer than the limit, and if it is
a number that the limit cuts in front of a point. Otherwise it has its form. -/
theorem exists_parse_form (hs : l.source = some source) (hp : l.pending = none)
    (he : l.ended = false) (hl : 0 < l.limit) (hb : b.rest = first :: cs)
    (hg : isGraphic first = false)
    (hf : (Lexeme.recognize l.atStart l.docComments first cs).HasForm f rest)
    (ht : first :: cs = f.text ++ rest) :
    ∃ t l' b', l.parse b true = .ok (.outputAvailable, l', b') ∧ l'.pending = some t ∧
      (t.errors.reportsOf .tooManyCharacters = [] ↔
        f.text.length ≤ l.limit ∧ ¬l.PointAhead first cs) ∧
      (t.errors.reportsOf .tooManyCharacters = [] → t.HasForm source f ∧ b'.rest = rest) := by
  have huncut := uncut_of_form hf ht
  have hcomment : ¬l.CommentAhead first cs := by
    intro hc
    exact absurd (hg.symm.trans hc.1) nofun
  obtain ⟨e, hnext⟩ := l.nextLexeme_final first cs
  refine ⟨l.tokenOf source first cs e, _, _, parse_token hs hp he hb hnext, rfl, ?_⟩
  by_cases hpoint : l.PointAhead first cs
  · obtain rfl := Option.some.inj (hpoint.nextLexeme.symm.trans hnext)
    have hcut : Extent.TooLong (l.limit + 1)
        ⟨.simple .integer, l.limit, [⟨.tooManyCharacters, [toString (l.limit + 1)]⟩]⟩ :=
      ⟨[], rfl, List.forall_mem_nil _⟩
    have hne := reportsOf_ne_nil (hcut.reportsOf_made l source ((first :: cs).take l.limit))
    exact ⟨⟨fun h => absurd h hne, fun h => absurd hpoint h.2⟩, fun h => absurd h hne⟩
  · rcases nextLexeme_limited hl hpoint hcomment with ⟨hle, hsame⟩ | ⟨hlt, e', he', hcut⟩
    · obtain rfl := Option.some.inj (hsame.symm.trans hnext)
      rw [huncut] at hle ⊢
      have hnil := Extent.reportsOf_made (l.uncut_found first cs) l source
        ((first :: cs).take f.text.length)
      rw [huncut] at hnil
      refine ⟨⟨fun _ => ⟨hle, hpoint⟩, fun _ => hnil⟩, fun _ => ⟨tokenOf_hasForm ht, ?_⟩⟩
      rw [Backlog.rest_consume, hb, ht]
      exact List.drop_left
    · obtain rfl := Option.some.inj (he'.symm.trans hnext)
      have hne := reportsOf_ne_nil (hcut.reportsOf_made l source ((first :: cs).take e'.length))
      rw [huncut] at hlt
      exact ⟨⟨fun h => absurd h hne, fun h => absurd h.1 (Nat.not_le_of_lt hlt)⟩,
        fun h => absurd h hne⟩

end Lexer

end TermStream
