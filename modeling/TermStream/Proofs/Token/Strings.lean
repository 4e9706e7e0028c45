import TermStream.Proofs.Token.Escapes
import TermStream.Proofs.Token.Forms
import TermStream.Proofs.Token.Quoted

namespace TermStream

open Text

namespace Quotation

/-- What is read at a time between quotes. An escape comes with the character that is named in an
error, if it is malformed. -/
inductive Piece where
  | plain (c : Char)
  | escape (chars : List Char) (error : Option Char)

namespace Piece

def text : Piece → List Char
  | .plain c => [c]
  | .escape chars _ => '\\' :: chars

def findings : Piece → List Finding
  | .plain _ => []
  | .escape _ error => escapeFindings error

def Stands (rest : List Char) : Piece → Prop
  | .plain c => c ≠ '\\'
  | .escape chars error => Escaped rest chars error

theorem Stands.unique {rest rest' : List Char} {p p' : Piece} (h : p.Stands rest)
    (h' : p'.Stands rest') (ht : p.text ++ rest = p'.text ++ rest') : p = p' := by
  cases p with
  | plain c =>
    cases p' with
    | plain c' => exact congrArg _ (List.cons.inj ht).1
    | escape chars error => exact absurd (List.cons.inj ht).1 h
  | escape chars error =>
    cases p' with
    | plain c' => exact absurd (List.cons.inj ht).1.symm h'
    | escape chars' error' =>
      obtain ⟨rfl, rfl⟩ := Escaped.unique h h' (List.cons.inj ht).2
      rfl

end Piece

def contentOf (pieces : List Piece) : List Char := pieces.flatMap Piece.text

@[simp] theorem contentOf_cons (p : Piece) (pieces : List Piece) :
    contentOf (p :: pieces) = p.text ++ contentOf pieces := rfl

/-- Whether a literal ends in front of a text. -/
def EndsAt (quote : Char) (triple : Bool) (cs : List Char) : Prop :=
  quotes quote triple <+: cs ∨ cs = [] ∨ triple = false ∧ cs.head?.any isLineBreak = true

instance (quote : Char) (triple : Bool) (cs : List Char) : Decidable (EndsAt quote triple cs) :=
  inferInstanceAs (Decidable (_ ∨ _ ∨ _ ∧ _))

/-- The pieces of a literal that ends in front of `stop`, and not in front of any of its pieces. -/
inductive Reads (quote : Char) (triple : Bool) (stop : List Char) : List Piece → Prop where
  | stop (h : EndsAt quote triple stop) : Reads quote triple stop []
  | piece {p : Piece} {pieces : List Piece} (hp : p.Stands (contentOf pieces ++ stop))
      (hn : ¬EndsAt quote triple (p.text ++ (contentOf pieces ++ stop)))
      (h : Reads quote triple stop pieces) : Reads quote triple stop (p :: pieces)

def closing (quote : Char) (triple closed : Bool) : List Char :=
  if closed then quotes quote triple else []

/-- What a literal is behind its opening quotes, if it leaves `rest`. -/
structure Contains (quote : Char) (triple : Bool) (pieces : List Piece) (closed : Bool)
    (rest : List Char) : Prop where
  reads : Reads quote triple (closing quote triple closed ++ rest) pieces
  unclosed : closed = false → ¬quotes quote triple <+: rest

def contentFindings (pieces : List Piece) (closed : Bool) : List Finding :=
  pieces.flatMap Piece.findings ++ if closed then [] else [⟨.unterminatedString, []⟩]

variable {quote : Char} {triple closed closed' : Bool} {rest rest' stop stop' cs : List Char}
  {pieces pieces' : List Piece}

theorem Reads.unique (h : Reads quote triple stop pieces) (h' : Reads quote triple stop' pieces')
    (ht : contentOf pieces ++ stop = contentOf pieces' ++ stop') :
    pieces = pieces' ∧ stop = stop' := by
  induction h generalizing pieces' with
  | stop he =>
    cases h' with
    | stop he' => exact ⟨rfl, ht⟩
    | piece hp hn h' =>
      rw [contentOf_cons, List.append_assoc] at ht
      exact absurd (ht ▸ he) hn
  | piece hp hn h ih =>
    rw [contentOf_cons, List.append_assoc] at ht
    cases h' with
    | stop he' => exact absurd (ht ▸ he') hn
    | piece hp' hn' h' =>
      rw [contentOf_cons, List.append_assoc] at ht
      obtain rfl := hp.unique hp' ht
      obtain ⟨rfl, rfl⟩ := ih h' (List.append_cancel_left ht)
      exact ⟨rfl, rfl⟩

theorem Contains.unique (h : Contains quote triple pieces closed rest)
    (h' : Contains quote triple pieces' closed' rest')
    (ht : contentOf pieces ++ (closing quote triple closed ++ rest) =
      contentOf pieces' ++ (closing quote triple closed' ++ rest')) :
    pieces = pieces' ∧ closed = closed' := by
  obtain ⟨rfl, hstop⟩ := h.reads.unique h'.reads ht
  refine ⟨rfl, ?_⟩
  cases closed with
  | true =>
    cases closed' with
    | true => rfl
    | false => exact absurd ⟨rest, hstop⟩ (h'.unclosed rfl)
  | false =>
    cases closed' with
    | true => exact absurd ⟨rest', hstop.symm⟩ (h.unclosed rfl)
    | false => rfl

def IsQuote (c : Char) : Prop := c = '"' ∨ c = '\''

theorem IsQuote.ne_backslash (h : IsQuote quote) : quote ≠ '\\' := by
  rcases h with rfl | rfl <;> decide

theorem IsQuote.not_lineBreak (h : IsQuote quote) : isLineBreak quote = false := by
  rcases h with rfl | rfl <;> rfl

theorem quotes_eq_cons (quote : Char) (triple : Bool) :
    ∃ more, quotes quote triple = quote :: more := by
  cases triple
  · exact ⟨[], rfl⟩
  · exact ⟨[quote, quote], rfl⟩

theorem head_of_quotes {c : Char} (h : quotes quote triple <+: c :: cs) : c = quote := by
  obtain ⟨more, hmore⟩ := quotes_eq_cons quote triple
  rw [hmore] at h
  exact (List.cons_prefix_cons.1 h).1.symm

/-- A literal does not end in front of a character that neither opens quotes nor breaks the line. -/
theorem not_endsAt {c : Char} (hq : c = quote → ¬quotes quote triple <+: c :: cs)
    (hl : triple = false → isLineBreak c = false) : ¬EndsAt quote triple (c :: cs) := by
  rintro (h | h | ⟨ht, h⟩)
  · exact hq (head_of_quotes h) h
  · cases h
  · exact absurd ((hl ht).symm.trans h) nofun

/-- The scan `s` of `cs` reads pieces and stops behind the closing quotes, if there are any. -/
def Comprises (quote : Char) (triple : Bool) (cs : List Char) (s : Scan) : Prop :=
  ∃ pieces closed, cs = contentOf pieces ++ (closing quote triple closed ++ s.rest) ∧
    Contains quote triple pieces closed s.rest ∧ s.findings = contentFindings pieces closed

theorem Comprises.cons {s s' : Scan} {p : Piece} (h : Comprises quote triple cs s)
    (hp : p.Stands cs) (hn : ¬EndsAt quote triple (p.text ++ cs)) (hr : s'.rest = s.rest)
    (hf : s'.findings = p.findings ++ s.findings) :
    Comprises quote triple (p.text ++ cs) s' := by
  obtain ⟨pieces, closed, rfl, hc, hs⟩ := h
  refine ⟨p :: pieces, closed, ?_, ?_, ?_⟩
  · rw [hr, contentOf_cons, List.append_assoc]
  · rw [hr]
    exact ⟨.piece hp hn hc.reads, hc.unclosed⟩
  · rw [hf, hs]
    exact (List.append_assoc _ _ _).symm

theorem Comprises.of_closed {s : Scan} (hr : s.rest = rest) (hf : s.findings = []) :
    Comprises quote triple (quotes quote triple ++ rest) s := by
  subst hr
  exact ⟨[], true, rfl, ⟨.stop (.inl (List.prefix_append _ _)), nofun⟩, hf⟩

theorem Comprises.of_unclosed {s : Scan} (he : EndsAt quote triple cs)
    (hn : ¬quotes quote triple <+: cs) (hr : s.rest = cs)
    (hf : s.findings = [⟨.unterminatedString, []⟩]) :
    Comprises quote triple cs s := by
  subst hr
  exact ⟨[], false, rfl, ⟨.stop he, fun _ => hn⟩, hf⟩

theorem comprises_body (hq : IsQuote quote) (triple : Bool) (cs : List Char) :
    Comprises quote triple cs (body quote triple cs) := by
  fun_induction body quote triple cs with
  | case1 =>
    apply Comprises.of_unclosed (.inr (.inl rfl)) _ rfl rfl
    obtain ⟨more, hmore⟩ := quotes_eq_cons quote triple
    rw [hmore, List.prefix_nil]
    exact List.cons_ne_nil quote more
  | case2 c cs hc =>
    obtain ⟨ht, hl⟩ := Bool.and_eq_true_iff.1 hc
    have he : EndsAt quote triple (c :: cs) := .inr (.inr ⟨by simpa using ht, hl⟩)
    apply Comprises.of_unclosed he _ rfl rfl
    intro h
    rw [head_of_quotes h, hq.not_lineBreak] at hl
    cases hl
  | case3 cs hle e b hl ih =>
    obtain ⟨chars, error, hcs, hescaped, hf⟩ := finds_escape cs
    have hend : ¬EndsAt quote triple ('\\' :: cs) :=
      not_endsAt (fun h => absurd h.symm hq.ne_backslash) fun _ => rfl
    rw [hcs] at hend ⊢
    exact Comprises.cons (p := .escape chars error) ih hescaped hend rfl
      (congrArg (· ++ b.findings) hf)
  | case4 cs ht hl hc =>
    obtain rfl : triple = false := by simpa using ht
    exact .of_closed rfl rfl
  | case5 cs ht htwo hl hc =>
    obtain rfl : triple = true := by simpa using ht
    rw [eq_of_twoMore htwo]
    exact .of_closed rfl rfl
  | case6 cs ht htwo hl hc ih =>
    obtain rfl : triple = true := by simpa using ht
    have hend : ¬EndsAt quote true (quote :: cs) := by
      apply not_endsAt _ fun h => absurd h (by decide)
      rintro - ⟨more, hmore⟩
      cases hmore
      exact htwo (by simp [twoMore])
    exact Comprises.cons (p := .plain quote) ih hq.ne_backslash hend rfl rfl
  | case7 c cs hl hc hne ih =>
    have hend : ¬EndsAt quote triple (c :: cs) := by
      apply not_endsAt (fun h => absurd h hne)
      intro ht
      simpa [ht] using hl
    exact Comprises.cons (p := .plain c) ih hc hend rfl rfl

theorem literal_eq_body (quote : Char) (cs : List Char) :
    ∃ triple behind, quote :: cs = quotes quote triple ++ behind ∧
      (triple = true ↔ List.replicate 3 quote <+: quote :: cs) ∧
      (literal quote cs).key = .string quote triple ∧
      (literal quote cs).scan.rest = (body quote triple behind).rest ∧
      (literal quote cs).scan.findings = (body quote triple behind).findings := by
  by_cases htwo : twoMore quote cs = true
  · have hcs := eq_of_twoMore htwo
    refine ⟨true, cs.drop 2, congrArg (quote :: ·) hcs, ⟨fun _ => ⟨cs.drop 2, ?_⟩, fun _ => rfl⟩,
      ?_⟩
    · exact congrArg (quote :: ·) hcs.symm
    · rw [literal, if_pos htwo]
      exact ⟨rfl, rfl, rfl⟩
  · refine ⟨false, cs, rfl, ⟨nofun, ?_⟩, ?_⟩
    · rintro ⟨more, hmore⟩
      cases hmore
      exact absurd (by simp [twoMore]) htwo
    · rw [literal, if_neg htwo]
      exact ⟨rfl, rfl, rfl⟩

end Quotation

open Quotation

theorem isDigit_eq_false_of_start {c : Char} (h : isIdentifierStart c = true) :
    isDigit c = false := by
  rw [Bool.eq_false_iff]
  intro hd
  have hnine : c.toNat ≤ '9'.toNat := of_decide_eq_true (Bool.and_eq_true_iff.1 hd).2
  rcases Bool.or_eq_true_iff.1 h with ha | ha
  · have hlt : c.toNat < 65 := Nat.lt_of_le_of_lt hnine (by decide)
    change (if c.toNat < 65 then false else _) = true at ha
    rw [if_pos hlt] at ha
    cases ha
  · obtain rfl : c = '_' := eq_of_beq ha
    exact absurd hnine (by decide)

theorem isGraphic_eq_false_of_start {c : Char} (h : isIdentifierStart c = true) :
    isGraphic c = false := by
  rw [Bool.eq_false_iff]
  exact fun hg => not_mem_of_all h rfl (List.contains_iff_mem.1 hg)

theorem Lexeme.recognize_start (atStart docComments : Bool) {first : Char} (cs : List Char)
    (h : isIdentifierStart first = true) :
    recognize atStart docComments first cs = word first cs := by
  have hb : ¬['(', ')', '[', ']'].contains first = true := fun hm =>
    not_mem_of_all h rfl (List.contains_iff_mem.1 hm)
  have hg : ¬isGraphic first = true := by simp [isGraphic_eq_false_of_start h]
  have hd : ¬isDigit first = true := by simp [isDigit_eq_false_of_start h]
  have hother : first ∉ ['"', '\'', '#', '/'] := not_mem_of_all h rfl
  simp only [List.mem_cons, List.not_mem_nil, or_false, not_or] at hother
  obtain ⟨hdouble, hsingle, hs, hslash⟩ := hother
  rw [recognize_eq_ordinary _ _ (not_mem_of_all h rfl) fun he => absurd he hslash, ordinary,
    if_neg hb, if_neg (not_or.2 ⟨hdouble, hsingle⟩), if_neg (by simp [hs]), if_neg hg, if_neg hd,
    if_pos h]

theorem Lexeme.recognize_quote (atStart docComments : Bool) {quote : Char} (cs : List Char)
    (h : IsQuote quote) : recognize atStart docComments quote cs = literal quote cs := by
  rcases h with rfl | rfl <;> rfl

theorem Quotation.IsQuote.not_graphic {quote : Char} (h : IsQuote quote) :
    isGraphic quote = false := by
  rcases h with rfl | rfl <;> rfl

theorem Quotation.IsQuote.not_digit {quote : Char} (h : IsQuote quote) : isDigit quote = false := by
  rcases h with rfl | rfl <;> rfl

theorem Quotation.IsQuote.not_identifierPart {quote : Char} (h : IsQuote quote) :
    isIdentifierPart quote = false := by
  rcases h with rfl | rfl <;> decide

theorem isRun_lead {lead cs : List Char} {quote : Char} (hw : lead = [] ∨ IsWord lead)
    (hq : IsQuote quote) : Scan.IsRun isIdentifierPart lead (quote :: cs) := by
  constructor
  · rcases hw with rfl | hword
    · exact List.forall_mem_nil _
    · exact hword.all
  · rintro c ⟨⟩
    exact hq.not_identifierPart

/-- A string literal: the word in front of it, if there is one, its quote and whether there are
three of them, what stands between them, and whether the closing ones are there. -/
structure StringForm where
  lead : List Char
  quote : Char
  triple : Bool
  pieces : List Piece
  closed : Bool

namespace StringForm

def text (s : StringForm) : List Char :=
  s.lead ++ quotes s.quote s.triple ++ contentOf s.pieces ++ closing s.quote s.triple s.closed

def kind (s : StringForm) : TokenKind :=
  match s.lead, s.triple with
  | [], false => .string
  | [], true => .multilineString
  | _ :: _, false => .prefixedString
  | _ :: _, true => .prefixedMultilineString

def form (s : StringForm) : Form where
  key :=
    { kind := s.kind
      lead := if s.lead = [] then none else some (String.ofList s.lead)
      quote := some s.quote
      triple := s.triple
      suffix := none }
  text := s.text
  findings := contentFindings s.pieces s.closed

structure Stands (s : StringForm) (rest : List Char) : Prop where
  quote : IsQuote s.quote
  lead : s.lead = [] ∨ IsWord s.lead
  triple : s.triple = true ↔ s.lead ++ List.replicate 3 s.quote <+: s.text ++ rest
  contains : Contains s.quote s.triple s.pieces s.closed rest

variable {s s' : StringForm} {rest rest' lead cs : List Char} {quote : Char}

theorem exists_text_eq (s : StringForm) (rest : List Char) :
    ∃ more, s.text ++ rest = s.lead ++ s.quote :: more := by
  obtain ⟨more, hmore⟩ := quotes_eq_cons s.quote s.triple
  refine ⟨more ++ contentOf s.pieces ++ closing s.quote s.triple s.closed ++ rest, ?_⟩
  simp only [text, hmore, List.append_assoc, List.cons_append]

/-- There is one way to read a string literal at the front of a text. -/
theorem Stands.unique (h : s.Stands rest) (h' : s'.Stands rest')
    (ht : s.text ++ rest = s'.text ++ rest') : s = s' := by
  obtain ⟨more, hmore⟩ := s.exists_text_eq rest
  obtain ⟨more', hmore'⟩ := s'.exists_text_eq rest'
  have hlead := (isRun_lead h.lead h.quote).unique (isRun_lead h'.lead h'.quote)
    (hmore.symm.trans (ht.trans hmore'))
  have htriple := h.triple
  have htriple' := h'.triple
  have hcontains := h.contains
  have hcontains' := h'.contains
  obtain ⟨lead, quote, triple, pieces, closed⟩ := s
  obtain ⟨lead', quote', triple', pieces', closed'⟩ := s'
  dsimp only at hlead htriple htriple' hcontains hcontains'
  obtain ⟨rfl, hcons⟩ := hlead
  obtain ⟨rfl, rfl⟩ := List.cons.inj hcons
  rw [ht] at htriple
  obtain rfl : triple = triple' := Bool.eq_iff_iff.2 (htriple.trans htriple'.symm)
  simp only [text, List.append_assoc] at ht
  obtain ⟨rfl, rfl⟩ := hcontains.unique hcontains'
    (List.append_cancel_left (List.append_cancel_left ht))
  rfl

/-- The token at the front of a text that starts with a quote, or with a word and a quote behind it,
is a string literal. -/
theorem exists_recognized (hw : lead = [] ∨ IsWord lead) (hq : IsQuote quote) (cs : List Char) :
    ∃ (s : StringForm) (rest : List Char), lead ++ quote :: cs = s.text ++ rest ∧ s.Stands rest ∧
      s.lead = lead ∧ s.quote = quote ∧
      ∀ atStart docComments first more, first :: more = lead ++ quote :: cs →
        (Lexeme.recognize atStart docComments first more).HasForm s.form rest := by
  obtain ⟨triple, behind, hcs, htriple, hkey, hrest, hfindings⟩ := literal_eq_body quote cs
  obtain ⟨pieces, closed, hbehind, hcontains, hf⟩ := comprises_body hq triple behind
  rw [← hrest] at hbehind hcontains
  rw [← hfindings] at hf
  have ht : lead ++ quote :: cs =
      (StringForm.mk lead quote triple pieces closed).text ++ (literal quote cs).scan.rest := by
    rw [hcs, hbehind]
    simp only [text, List.append_assoc]
  refine ⟨⟨lead, quote, triple, pieces, closed⟩, _, ht, ⟨hq, hw, ?_, hcontains⟩, rfl, rfl, ?_⟩
  · rw [← ht]
    exact htriple.trans (List.prefix_append_right_inj lead).symm
  · intro atStart docComments first more hfirst
    rcases hw with rfl | ⟨start, word, rfl, hs, hword⟩
    · obtain ⟨rfl, rfl⟩ := List.cons.inj hfirst
      rw [Lexeme.recognize_quote _ _ _ hq]
      refine ⟨hkey.trans ?_, rfl, hf⟩
      cases triple <;> rfl
    · rw [List.cons_append] at hfirst
      obtain ⟨rfl, rfl⟩ := List.cons.inj hfirst
      have hrun : Scan.IsRun isIdentifierPart word (quote :: cs) :=
        ⟨hword, fun c hc => by cases hc; exact hq.not_identifierPart⟩
      have hrecognize : Lexeme.recognize atStart docComments first (word ++ quote :: cs) =
          ⟨(literal quote cs).key.withLead (String.ofList (first :: word)),
            (literal quote cs).scan⟩ := by
        rw [Lexeme.recognize_start _ _ _ hs, Lexeme.word, hrun.dropWhile_eq, hrun.takeWhile_eq]
        exact if_pos hq
      rw [hrecognize]
      refine ⟨?_, rfl, hf⟩
      change (literal quote cs).key.withLead _ = _
      rw [hkey]
      cases triple <;> rfl

end StringForm

namespace Lexer

variable {l : Lexer} {b : Backlog} {source : String} {lead cs : List Char} {quote : Char}

/-- A text that starts with a quote, or with a word and a quote behind it, starts with a string
literal. It is the only one that can be read there, and the token is that literal, with its errors
and no others, unless it has more characters than a token may have. -/
theorem parse_string (hs : l.source = some source) (hp : l.pending = none)
    (he : l.ended = false) (hl : 0 < l.limit) (hw : lead = [] ∨ IsWord lead) (hq : IsQuote quote)
    (hb : b.rest = lead ++ quote :: cs) :
    ∃ (s : StringForm) (rest : List Char), b.rest = s.text ++ rest ∧ s.Stands rest ∧
      s.lead = lead ∧ s.quote = quote ∧
      (∀ s' rest', b.rest = s'.text ++ rest' → StringForm.Stands s' rest' → s' = s) ∧
      ∃ t l' b', l.parse b true = .ok (.outputAvailable, l', b') ∧ l'.pending = some t ∧
        (t.errors.reportsOf .tooManyCharacters = [] ↔ s.text.length ≤ l.limit) ∧
        (s.text.length ≤ l.limit → t.HasForm source s.form ∧ b'.rest = rest) := by
  obtain ⟨s, rest, ht, hstands, hlead, hquote, hrecognize⟩ := StringForm.exists_recognized hw hq cs
  refine ⟨s, rest, hb.trans ht, hstands, hlead, hquote, ?_, ?_⟩
  · intro s' rest' ht' hstands'
    exact hstands'.unique hstands (ht'.symm.trans (hb.trans ht))
  · obtain ⟨first, more, hfirst, hgraphic, hdigit⟩ :
        ∃ first more, first :: more = lead ++ quote :: cs ∧ isGraphic first = false ∧
          isDigit first = false := by
      rcases hw with rfl | ⟨first, word, rfl, hstart, -⟩
      · exact ⟨quote, cs, rfl, hq.not_graphic, hq.not_digit⟩
      · exact ⟨first, _, rfl, isGraphic_eq_false_of_start hstart, isDigit_eq_false_of_start hstart⟩
    obtain ⟨t, l', b', hparse, hpending, hcut, hform⟩ :=
      exists_parse_form hs hp he hl (hb.trans hfirst.symm) hgraphic
        (hrecognize l.atStart l.docComments first more hfirst) (hfirst.trans ht)
    have hpoint : ¬l.PointAhead first more := fun h => absurd (hdigit.symm.trans h.1) nofun
    have hcut : t.errors.reportsOf .tooManyCharacters = [] ↔ s.text.length ≤ l.limit :=
      hcut.trans (and_iff_left hpoint)
    exact ⟨t, l', b', hparse, hpending, hcut, fun hle => hform (hcut.2 hle)⟩

/-- Between three quotes a malformed escape stops in front of a quote, and one quote ends nothing.
-/
theorem parse_string_triple :
    let l : Lexer := { Lexer.new .standard with source := some "in" }
    let s : StringForm :=
      { lead := ['s']
        quote := '"'
        triple := true
        pieces := [.escape ['u', '\x7b', '1'] (some 'u'), .plain '"', .plain ' ',
          .escape ['"'] none]
        closed := true }
    ∃ t l' b', l.parse (.ofText "s\"\"\"\\u\x7b1\" \\\"\"\"\" x") true =
        .ok (.outputAvailable, l', b') ∧
      l'.pending = some t ∧ t.HasForm "in" s.form ∧ b'.rest = [' ', 'x'] := by
  intro l s
  have hword : IsWord ['s'] := ⟨'s', [], rfl, by decide, List.forall_mem_nil _⟩
  have hdigits : IsLongest IsStart ['u', '\x7b', '1']
      ('u' :: '\x7b' :: (['1'] ++ "\" \\\"\"\"\" x".toList)) ∧ ¬IsEscape ['u', '\x7b', '1'] :=
    isLongestStart_codePoint (by decide) (List.all_eq_true.1 rfl)
      (by rintro - _ ⟨⟩; rfl) (.inr (by decide))
  have hescape : Escaped "\" \\\"\"\"\" x".toList ['u', '\x7b', '1'] (some 'u') :=
    .malformed_of_start hdigits.1 hdigits.2 rfl rfl
  have hstands : s.Stands [' ', 'x'] := by
    refine ⟨.inl rfl, .inr hword, by decide, ?_, nofun⟩
    apply Reads.piece
    · exact hescape
    · decide
    apply Reads.piece
    · exact (by decide : '"' ≠ '\\')
    · decide
    apply Reads.piece
    · exact (by decide : ' ' ≠ '\\')
    · decide
    apply Reads.piece
    · exact Escaped.wellFormed (.simple (by decide))
    · decide
    exact .stop (by decide)
  obtain ⟨s', rest, ht, -, -, -, hunique, t, l', b', hparse, hpending, -, hform⟩ :=
    parse_string (l := l) (b := .ofText "s\"\"\"\\u\x7b1\" \\\"\"\"\" x")
      rfl rfl rfl (by decide) (.inr hword) (.inl rfl)
      (show _ = ['s'] ++ '"' :: "\"\"\\u\x7b1\" \\\"\"\"\" x".toList from rfl)
  obtain rfl : s = s' := hunique s [' ', 'x'] rfl hstands
  obtain ⟨htoken, hrest⟩ := hform (by decide)
  have htext : s.text ++ [' ', 'x'] = s.text ++ rest := ht
  exact ⟨t, l', b', hparse, hpending, htoken, hrest.trans (List.append_cancel_left htext).symm⟩

end Lexer

end TermStream
