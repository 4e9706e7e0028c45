import TermStream.Proofs.Phrase.Braces
import TermStream.Proofs.Phrase.Layers
import TermStream.Proofs.Phrase.Sentence
import TermStream.Proofs.Phrase.Tiling
import TermStream.Proofs.Token.Quoted

namespace TermStream

open Text

/-- A range that cuts `inside` out of a text starts and stops between two of its characters. -/
def Location.Cuts (l : Location) (text inside : List Char) : Prop :=
  ∃ before after, text = before ++ inside ++ after ∧ l.start = .behind before ∧
    l.stop = .behind (before ++ inside)

/-- Each part of what stands one after the other is cut out by its own range. -/
theorem Laid.cuts {α : Type} {start stop : α → Position} {text : α → String} {as : List α} {a : α}
    (h : Laid start stop text [] as) (ha : a ∈ as) (source : String) :
    Location.Cuts ⟨source, start a, stop a⟩ (textOf text as) (text a).toList := by
  obtain ⟨front, back, rfl⟩ := List.append_of_mem ha
  obtain ⟨-, hstart, hstop, -⟩ := laid_append.1 h
  refine ⟨textOf text front, textOf text back, ?_, hstart, hstop⟩
  rw [textOf_append, textOf_cons, List.append_assoc]

theorem Location.cuts_point (source : String) (before after : List Char) :
    (Location.point source (.behind before)).Cuts (before ++ after) [] := by
  refine ⟨before, after, ?_, rfl, ?_⟩
  · rw [List.append_nil]
  · rw [List.append_nil]
    rfl

def TokenKind.brace? : TokenKind → Option Char
  | .leftCurly => some '\x7b'
  | .rightCurly => some '\x7d'
  | _ => none

theorem Number.brace?_literal (first : Char) (cs : List Char) :
    (literal first cs).key.kind.brace? = none := by
  have hnumber := isNumber_literal first cs
  generalize (literal first cs).key.kind = kind at hnumber ⊢
  cases kind <;> first | rfl | cases hnumber

theorem Quotation.brace?_literal (quote : Char) (cs : List Char) :
    (literal quote cs).key.kind.brace? = none := by
  rcases literal_kind quote cs with hk | hk <;> rw [hk] <;> rfl

namespace Lexeme

variable {atStart docComments : Bool} {first c : Char} {cs : List Char}

theorem brace?_word (first : Char) (cs : List Char) : (word first cs).key.kind.brace? = none := by
  unfold word
  split
  · next q rest hd =>
    split
    · rcases Quotation.literal_kind q rest with hk | hk <;>
        simp [TokenKey.withLead, hk, TokenKind.brace?]
    · rfl
  · rfl

theorem brace?_ordinary (atStart : Bool) (first : Char) (cs : List Char) :
    (ordinary atStart first cs).key.kind.brace? = none := by
  unfold ordinary
  split
  · rfl
  · split
    · exact Quotation.brace?_literal first cs
    · split
      · rfl
      · split
        · rfl
        · split
          · exact Number.brace?_literal first cs
          · split
            · exact brace?_word first cs
            · split <;> rfl

theorem recognize_brace
    (h : (recognize atStart docComments first cs).key.kind.brace? = some c) :
    first = c ∧ (recognize atStart docComments first cs).scan.rest = cs := by
  revert h
  unfold recognize
  split
  case h_6 =>
    rintro ⟨⟩
    exact ⟨rfl, rfl⟩
  case h_7 =>
    rintro ⟨⟩
    exact ⟨rfl, rfl⟩
  case h_8 rest =>
    intro h
    rw [lineComment_eq] at h
    revert h
    dsimp only [ofScan]
    split <;> intro h <;> cases h
  case h_10 =>
    intro h
    cases h.symm.trans (brace?_ordinary atStart first cs)
  -- no other form is a brace
  all_goals
    intro h
    cases h

end Lexeme

namespace Lexer

variable {l : Lexer} {first c : Char} {cs : List Char} {found : Extent} {final : Bool}

theorem lexemeWithin_brace {limit : Nat} (h : l.lexemeWithin limit final first cs = some found)
    (hb : found.key.kind.brace? = some c) : first = c ∧ found.length = 1 := by
  rw [(lexemeWithin_isOpen h).1] at hb
  obtain ⟨hfirst, hrest⟩ := Lexeme.recognize_brace hb
  refine ⟨hfirst, ?_⟩
  rw [lexemeWithin_length_eq h, Lexeme.length, hrest]
  omega

theorem nextLexeme_brace (h : l.nextLexeme final first cs = some found)
    (hb : found.key.kind.brace? = some c) : first = c ∧ found.length = 1 := by
  unfold nextLexeme at h
  split at h
  · cases h
  · next e he =>
    split at h
    · cases h
      exact lexemeWithin_brace he hb
    · exact lexemeWithin_brace h hb

theorem ahead_brace {source : String} (cs : List Char) (hs : l.source = some source)
    (hp : l.pending = none) (he : l.ended = false) :
    ∀ t ∈ l.ahead cs, ∀ c, t.kind.brace? = some c → t.text.toList = [c] := by
  refine ahead_induction (motive := fun _ _ ts =>
    ∀ t ∈ ts, ∀ c, t.kind.brace? = some c → t.text.toList = [c]) ?_ ?_ cs hs hp he
  · intro l t ht c hb
    obtain rfl := List.mem_singleton.1 ht
    cases hb
  · intro l first rest found text ts hf htext ih
    rw [List.forall_mem_cons]
    refine ⟨?_, ih⟩
    intro c hb
    obtain ⟨rfl, hlength⟩ := nextLexeme_brace hf hb
    rw [hlength] at htext
    change (String.ofList text).toList = _
    rw [String.toList_ofList, htext]
    rfl

end Lexer

section

variable {source text : String} {settings : Settings} {ts : List Token} {ps : List Phrase}

theorem tokens_brace (h : tokens source text settings = .ok ts) :
    ∀ t ∈ ts, ∀ c, t.kind.brace? = some c → t.text.toList = [c] := by
  rw [tokens_eq_ahead] at h
  cases h
  exact Lexer.ahead_brace text.toList rfl rfl rfl

theorem tokens_text (h : tokens source text settings = .ok ts) :
    textOf Token.text ts = text.toList := by
  rw [tokens_eq_ahead] at h
  cases h
  exact (Lexer.ahead_tiles text.toList rfl rfl rfl).1

theorem tokens_located (h : tokens source text settings = .ok ts) :
    ∀ t ∈ ts, ∀ n ∈ t.errors.nodes, n.1.location = ⟨source, t.start, t.stop⟩ := by
  rw [tokens_eq_ahead] at h
  cases h
  have hl : 0 < (Lexer.new settings).limit :=
    Nat.lt_of_lt_of_le Nat.zero_lt_one (Nat.le_max_right _ _)
  obtain ⟨init, p, hahead, -, herrors⟩ :=
    Lexer.ahead_cut (l := { Lexer.new settings with source := some source, position := .start })
      text.toList rfl rfl rfl hl
  rw [hahead]
  intro t ht n hn
  rcases List.mem_append.1 ht with ht | ht
  · exact (herrors t ht n hn).1
  · obtain rfl := List.mem_singleton.1 ht
    cases hn

end

namespace Grouped

variable {source : String} {g : Grouping} {blocks : List OpenBlock} {t : Token}
  {ts whole opened : List Token} {out : List (Phrase × Grouper)}

/-- An error of the structure is about a brace that has no partner among the tokens. -/
inductive Blames (source : String) (ts : List Token) : Report → Prop where
  | stray {t : Token} (ht : t ∈ ts) (hk : t.kind = .rightCurly) :
      Blames source ts ⟨Problem.unmatchedClosingCurly, [], ⟨source, t.start, t.stop⟩⟩
  | unterminated {t : Token} (ht : t ∈ ts) (hk : t.kind = .leftCurly) :
      Blames source ts
        ⟨Problem.unterminatedBlock, [t.start.render], ⟨source, t.start, t.stop⟩⟩

theorem mem_matchBrace {b : Token} (h : b ∈ matchBrace opened t) :
    b ∈ opened ∨ b = t ∧ t.kind = .leftCurly := by
  unfold matchBrace at h
  split at h
  · next hk =>
    rcases List.mem_cons.1 h with rfl | h
    · exact .inr ⟨rfl, hk⟩
    · exact .inl h
  · exact .inl (List.mem_of_mem_tail h)
  · exact .inl h

theorem Course.blames (h : Course source g blocks ts out) (hb : blocks = opened.map Token.block)
    (ho : ∀ t ∈ opened, t ∈ whole ∧ t.kind = .leftCurly) (hts : ∀ t ∈ ts, t ∈ whole) :
    ∀ x ∈ out, ∀ n ∈ x.1.errors.nodes, Blames source whole n.1 := by
  induction h generalizing opened with
  | ended => exact List.forall_mem_nil _
  | @turn g blocks t ts r out ha hr ht rest ih =>
    subst hb
    have hmem : t ∈ whole := hts t List.mem_cons_self
    have htail : ∀ t ∈ ts, t ∈ whole := fun t ht => hts t (List.mem_cons_of_mem _ ht)
    rw [List.forall_mem_cons]
    cases ht.braced with
    | taken _ htaken htoken hblocks hclosing hclean =>
      rw [htaken, if_pos rfl] at ih
      refine ⟨?_, ih hblocks ?_ htail⟩
      · intro n hn
        change n ∈ r.phrase.errors.nodes at hn
        by_cases hk : t.kind = .rightCurly
        · rw [hclosing hk] at hn
          split at hn
          · obtain rfl := List.mem_singleton.1 hn
            exact .stray hmem hk
          · cases hn
        · rw [hclean hk] at hn
          cases hn
      · intro b hb
        rcases mem_matchBrace hb with hb | ⟨rfl, hk⟩
        · exact ho b hb
        · exact ⟨hmem, hk⟩
    | boundary _ htaken hphrase hblocks =>
      rw [htaken, if_neg Bool.false_ne_true] at ih
      refine ⟨?_, ih hblocks ho hts⟩
      intro n hn
      change n ∈ r.phrase.errors.nodes at hn
      rw [hphrase] at hn
      cases hn
    | unterminated brace braces hopened hk =>
      subst hopened
      obtain ⟨hbrace, hbraces⟩ := List.forall_mem_cons.1 ho
      refine ⟨?_, ih rfl hbraces hts⟩
      intro n hn
      obtain rfl := List.mem_singleton.1 hn
      exact .unterminated hbrace.1 hbrace.2

end Grouped

section

variable {source : String} {ts : List Token} {ps : List Phrase}

/-- The errors of the structure are each at a brace. -/
theorem phrases_blame (ht : EndsOnce Token.isEof ts) (h : phrasesOf source ts = .ok ps) :
    ∀ p ∈ ps, ∀ n ∈ p.errors.nodes, Grouped.Blames source ts n.1 := by
  obtain ⟨out, hout⟩ := Grouped.exists_course source .statementSequence [] ts ht
  rw [phrasesOf_eq, hout.phrases_eq] at h
  cases h
  intro p hp
  obtain ⟨x, hx, rfl⟩ := List.mem_map.1 hp
  exact hout.blames List.map_nil.symm (List.forall_mem_nil _) (fun _ h => h) x hx

theorem phrases_token (ht : EndsOnce Token.isEof ts) (h : phrasesOf source ts = .ok ps) {p : Phrase}
    (hp : p ∈ ps) (hk : p.kind = .significant) : ∃ k, p.token = some k := by
  obtain ⟨out, hout⟩ := Grouped.exists_course source .statementSequence [] ts ht
  rw [phrasesOf_eq, hout.phrases_eq] at h
  cases h
  obtain ⟨⟨p, g⟩, hx, rfl⟩ := List.mem_map.1 hp
  obtain ⟨front, back, hs⟩ := List.append_of_mem hx
  cases htoken : p.token with
  | some k => exact ⟨k, rfl⟩
  | none =>
    obtain ⟨hkind, -⟩ := hout.boundary hs htoken
    rw [hk] at hkind
    rcases hkind with hkind | hkind <;> cases hkind

theorem phrases_tokens (ht : EndsOnce Token.isEof ts) (h : phrasesOf source ts = .ok ps) :
    ps.filterMap Phrase.token = ts := by
  rw [phrasesOf_eq] at h
  cases h
  exact (Grouped.phrasesFrom_tiling source .statementSequence [] ts ht nofun nofun).tokens_eq

theorem textOf_filterMap_token (ps : List Phrase) :
    textOf Phrase.text ps = textOf Token.text (ps.filterMap Phrase.token) := by
  induction ps with
  | nil => rfl
  | cons p ps ih =>
    rw [textOf_cons, ih, Phrase.text]
    cases hk : p.token with
    | none =>
      rw [List.filterMap_cons_none hk]
      rfl
    | some k =>
      rw [List.filterMap_cons_some hk]
      rfl

end

end TermStream
