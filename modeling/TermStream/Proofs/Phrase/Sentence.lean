import TermStream.Proofs.Phrase.Turns

namespace TermStream

namespace Sentence

mutual

/-- `Sequence ::= (IGNORABLE | CONTROL | Statement)*` -/
inductive Sequence : List PhraseKind → Prop where
  | nil : Sequence []
  | ignorable {ks : List PhraseKind} (h : Sequence ks) : Sequence (.ignorable :: ks)
  | control {ks : List PhraseKind} (h : Sequence ks) : Sequence (.control :: ks)
  | statement {ss ks : List PhraseKind} (s : Statement ss) (h : Sequence ks) : Sequence (ss ++ ks)

/-- `Statement ::= Element (Element | IGNORABLE | SOFT_STATEMENT_END)* STATEMENT_END` -/
inductive Statement : List PhraseKind → Prop where
  | mk {es ks : List PhraseKind} (e : Element es) (b : Body true ks) :
      Statement (es ++ ks ++ [.statementEnd])

/-- `Element ::= SIGNIFICANT | START_BLOCK Sequence END_BLOCK` -/
inductive Element : List PhraseKind → Prop where
  | significant : Element [.significant]
  | block {ks : List PhraseKind} (s : Sequence ks) : Element (.startBlock :: (ks ++ [.endBlock]))

/-- What is between the first element of a statement and its end. There is an element between any
two soft ends: `soft` says that a soft end may come before the next element. -/
inductive Body : Bool → List PhraseKind → Prop where
  | nil {soft : Bool} : Body soft []
  | element {soft : Bool} {es ks : List PhraseKind} (e : Element es) (b : Body true ks) :
      Body soft (es ++ ks)
  | ignorable {soft : Bool} {ks : List PhraseKind} (b : Body soft ks) : Body soft (.ignorable :: ks)
  | softEnd {ks : List PhraseKind} (b : Body false ks) : Body true (.softStatementEnd :: ks)

end

/-- `Document ::= Sequence EOF` -/
inductive Document : List PhraseKind → Prop where
  | mk {ks : List PhraseKind} (s : Sequence ks) : Document (ks ++ [.eof])

/-- What may come between two statements inside of `depth` blocks. -/
def SequenceTail : Nat → List PhraseKind → Prop
  | 0, ks => Document ks
  | depth + 1, ks => ∃ seq body rest, Sequence seq ∧ Body true body ∧ SequenceTail depth rest ∧
      ks = seq ++ .endBlock :: (body ++ .statementEnd :: rest)

def StatementTail (soft : Bool) (depth : Nat) (ks : List PhraseKind) : Prop :=
  ∃ body rest, Body soft body ∧ SequenceTail depth rest ∧ ks = body ++ .statementEnd :: rest

variable {depth : Nat} {soft : Bool} {ks es ss : List PhraseKind}

theorem SequenceTail.append (h : SequenceTail depth ks) (front : List PhraseKind)
    (hf : ∀ seq, Sequence seq → Sequence (front ++ seq)) : SequenceTail depth (front ++ ks) := by
  cases depth with
  | zero =>
    obtain ⟨s⟩ := h
    rw [← List.append_assoc]
    exact .mk (hf _ s)
  | succ depth =>
    obtain ⟨seq, body, rest, hs, hb, hr, rfl⟩ := h
    exact ⟨_, body, rest, hf seq hs, hb, hr, (List.append_assoc front seq _).symm⟩

theorem SequenceTail.ignorable (h : SequenceTail depth ks) :
    SequenceTail depth (.ignorable :: ks) :=
  h.append [.ignorable] fun _ => .ignorable

theorem SequenceTail.control (h : SequenceTail depth ks) : SequenceTail depth (.control :: ks) :=
  h.append [.control] fun _ => .control

theorem SequenceTail.statement (s : Statement ss) (h : SequenceTail depth ks) :
    SequenceTail depth (ss ++ ks) :=
  h.append ss fun _ => .statement s

theorem SequenceTail.of_element (e : Element es) (h : StatementTail true depth ks) :
    SequenceTail depth (es ++ ks) := by
  obtain ⟨body, rest, hb, hr, rfl⟩ := h
  have hs := SequenceTail.statement (.mk e hb) hr
  simpa using hs

theorem StatementTail.of_element (e : Element es) (h : StatementTail true depth ks) :
    StatementTail soft depth (es ++ ks) := by
  obtain ⟨body, rest, hb, hr, rfl⟩ := h
  exact ⟨es ++ body, rest, .element e hb, hr, (List.append_assoc _ _ _).symm⟩

theorem StatementTail.ignorable (h : StatementTail soft depth ks) :
    StatementTail soft depth (.ignorable :: ks) := by
  obtain ⟨body, rest, hb, hr, rfl⟩ := h
  exact ⟨_, rest, .ignorable hb, hr, rfl⟩

theorem StatementTail.softEnd (h : StatementTail false depth ks) :
    StatementTail true depth (.softStatementEnd :: ks) := by
  obtain ⟨body, rest, hb, hr, rfl⟩ := h
  exact ⟨_, rest, .softEnd hb, hr, rfl⟩

theorem StatementTail.statementEnd (h : SequenceTail depth ks) :
    StatementTail soft depth (.statementEnd :: ks) :=
  ⟨[], ks, .nil, h, rfl⟩

theorem SequenceTail.endBlock (h : StatementTail true depth ks) :
    SequenceTail (depth + 1) (.endBlock :: ks) := by
  obtain ⟨body, rest, hb, hr, rfl⟩ := h
  exact ⟨[], body, rest, .nil, hb, hr, rfl⟩

theorem SequenceTail.block (h : SequenceTail (depth + 1) ks) :
    ∃ es rest, Element es ∧ StatementTail true depth rest ∧ .startBlock :: ks = es ++ rest := by
  obtain ⟨seq, body, rest, hs, hb, hr, rfl⟩ := h
  exact ⟨_, _, .block hs, ⟨body, rest, hb, hr, rfl⟩, by simp⟩

end Sentence

namespace Grouping
open Sentence

def Continues (g : Grouping) (depth : Nat) (ks : List PhraseKind) : Prop :=
  match g with
  | .statementSequence | .afterBlockStart | .beforeBlockEnd | .beforeEof => SequenceTail depth ks
  | .statement => StatementTail true depth ks
  | .statementAfterSoft => StatementTail false depth ks
  | .afterEof => ks = []

variable {g : Grouping} {depth : Nat} {ks es : List PhraseKind}

theorem continues_of_isBetween (hg : g.isBetween) :
    g.Continues depth ks ↔ SequenceTail depth ks := by
  cases g with
  | statement | statementAfterSoft | afterEof => cases hg
  | _ => exact .rfl

theorem continues_resumed : g.resumed.Continues depth ks ↔ g.Continues depth ks := by
  cases g <;> exact .rfl

theorem Continues.of_element (hg : g ≠ .afterEof) (e : Element es)
    (h : StatementTail true depth ks) : g.Continues depth (es ++ ks) := by
  cases g with
  | statement | statementAfterSoft => exact .of_element e h
  | afterEof => exact absurd rfl hg
  | _ => exact .of_element e h

theorem Continues.ignorable (hg : g ≠ .afterEof) (h : g.Continues depth ks) :
    g.Continues depth (.ignorable :: ks) := by
  cases g with
  | statement | statementAfterSoft => exact StatementTail.ignorable h
  | afterEof => exact absurd rfl hg
  | _ => exact SequenceTail.ignorable h

theorem Continues.statementEnd (hg : g.isInside) (h : SequenceTail depth ks) :
    g.Continues depth (.statementEnd :: ks) := by
  cases g with
  | statement | statementAfterSoft => exact .statementEnd h
  | _ => cases hg

end Grouping

namespace Grouped
open Sentence Grouper

variable {source : String} {g : Grouping} {blocks : List OpenBlock} {t : Token} {ts : List Token}
  {r : Grouped} {ks : List PhraseKind} {out : List (Phrase × Grouper)}

/-- A phrase is the next word of a sentence. -/
theorem Turns.continues (h : Turns source g blocks t r) (hg : g ≠ .afterEof)
    (hc : r.grouping.Continues r.blocks.length ks) :
    g.Continues blocks.length (r.phrase.kind :: ks) := by
  cases h with
  | opens hk =>
    obtain ⟨es, rest, he, hr, heq⟩ := SequenceTail.block hc
    change g.Continues blocks.length (.startBlock :: ks)
    rw [heq]
    exact .of_element hg he hr
  | closes hg' hk hb =>
    obtain ⟨block, rest, rfl⟩ := List.exists_cons_of_ne_nil hb
    exact (Grouping.continues_of_isBetween hg').2 (.endBlock hc)
  | stray hg' hk hb =>
    subst hb
    exact (Grouping.continues_of_isBetween hg').2
      (.control ((Grouping.continues_of_isBetween hg').1 (Grouping.continues_resumed.1 hc)))
  | control hg' hk =>
    exact (Grouping.continues_of_isBetween hg').2
      (.control ((Grouping.continues_of_isBetween hg').1 (Grouping.continues_resumed.1 hc)))
  | ignorable hk => exact .ignorable hg (Grouping.continues_resumed.1 hc)
  | significant hk => exact .of_element hg .significant hc
  | softEnd hg' hk =>
    subst hg'
    exact StatementTail.softEnd hc
  | explicitEnd hg' hk => exact .statementEnd hg' hc
  | endBeforeBrace hg' hk =>
    refine .statementEnd hg' ?_
    dsimp only [leaving] at hc
    split at hc <;> exact hc
  | endBeforeEof hg' hk => exact .statementEnd hg' hc
  | unterminated hg' hk block rest hb =>
    subst hb
    exact (Grouping.continues_of_isBetween hg').2 (.endBlock hc)
  | last hg' hk hb =>
    subst hb
    obtain rfl : ks = [] := hc
    exact (Grouping.continues_of_isBetween hg').2 (.mk .nil)

theorem Course.continues (h : Course source g blocks ts out) :
    g.Continues blocks.length (out.map fun x => x.1.kind) := by
  induction h with
  | ended => rfl
  | turn ha hr ht rest ih => exact ht.continues ha.ne_afterEof ih

theorem Course.boundary (h : Course source g blocks ts out) {front back : List (Phrase × Grouper)}
    {p : Phrase} {g' : Grouper} (hs : out = front ++ (p, g') :: back) (hp : p.token = none) :
    (p.kind = .statementEnd ∨ p.kind = .endBlock) ∧
      ∃ t rest, ts = tokensOf front ++ t :: rest ∧ p.position = t.start := by
  induction h generalizing front with
  | ended => cases front <;> cases hs
  | @turn g blocks t ts r out ha hr ht rest ih =>
    have hstands : r.Stands t := hr ▸ ofToken_stands source g blocks t
    have htoken := hstands.token_eq
    cases front with
    | nil =>
      obtain ⟨hpg, -⟩ := List.cons.inj hs
      obtain ⟨rfl, -⟩ := Prod.mk.inj hpg
      have htaken : r.taken = false := by
        cases hr' : r.taken with
        | false => rfl
        | true => simp [hr', hp] at htoken
      exact ⟨ht.boundary htaken, t, ts, rfl, hstands.position_eq⟩
    | cons first front =>
      obtain ⟨rfl, rfl⟩ := List.cons.inj hs
      obtain ⟨hkind, t', rest', hts, hpos⟩ := ih rfl
      refine ⟨hkind, t', rest', ?_, hpos⟩
      rw [tokensOf_cons, htoken]
      cases hr' : r.taken with
      | true => simpa [hr'] using hts
      | false => simpa [hr'] using hts

end Grouped

namespace Grouper
open Sentence

/-- Whatever tokens are fed to a grouper before the end of the input, it takes them all, makes
nothing more after that, and its phrases are a document. Their tokens are those that were fed, in
this order, and a phrase without a token is an end of a statement or of a block where the next token
starts. -/
theorem phrases_form_document (source : String) (ts : List Token) (e : Token)
    (hts : ∀ t ∈ ts, t.kind ≠ .eof) (he : e.kind = .eof) :
    ∃ g out, Grouper.new.start source = .ok g ∧ Fed g (ts ++ [e]) out ∧
      (∀ out', Fed g (ts ++ [e]) out' → out' = out) ∧
      (∀ front p g', out = front ++ [(p, g')] → ∀ input, g'.parse input = .ok (.eof, g', input)) ∧
      phrasesOf source (ts ++ [e]) = .ok (out.map Prod.fst) ∧
      Document (out.map fun x => x.1.kind) ∧
      tokensOf out = ts ++ [e] ∧
      ∀ front p g' back, out = front ++ (p, g') :: back → p.token = none →
        (p.kind = .statementEnd ∨ p.kind = .endBlock) ∧
          ∃ t rest, ts ++ [e] = tokensOf front ++ t :: rest ∧ p.position = t.start := by
  obtain ⟨g, out, hg, hfed, hcourse⟩ := exists_fed source hts he
  refine ⟨g, out, hg, hfed, fun out' h => hfed.unique h, fun front p g' hs => hcourse.parse_last hs,
    ?_, hcourse.continues, hcourse.tokens_eq, fun front p g' back hs hp => hcourse.boundary hs hp⟩
  rw [phrasesOf_eq, hcourse.phrases_eq]

/-- A closing brace too many, and a block that is not closed. -/
theorem phrases_form_document_braces :
    let closing : Token := ⟨.simple .rightCurly, "\x7d", ⟨1, 1, 0⟩, ⟨1, 2, 1⟩, .nil⟩
    let opening : Token := ⟨.simple .leftCurly, "\x7b", ⟨1, 2, 1⟩, ⟨1, 3, 2⟩, .nil⟩
    let word : Token := ⟨.simple .identifier, "a", ⟨1, 3, 2⟩, ⟨1, 4, 3⟩, .nil⟩
    (∀ t ∈ [closing, opening, word], t.kind ≠ .eof) ∧ (Token.eof ⟨1, 4, 3⟩).kind = .eof ∧
    ∃ g out, Grouper.new.start "in" = .ok g ∧
      Fed g [closing, opening, word, .eof ⟨1, 4, 3⟩] out ∧
      Document (out.map fun x => x.1.kind) ∧
      (out.map fun x => x.1.kind) = [.control, .startBlock, .significant, .statementEnd, .endBlock,
        .statementEnd, .eof] := by
  intro closing opening word
  have hts : ∀ t ∈ [closing, opening, word], t.kind ≠ .eof := by decide
  obtain ⟨g, out, hg, hfed, -, -, hps, hdoc, -, -⟩ :=
    phrases_form_document "in" [closing, opening, word] (.eof ⟨1, 4, 3⟩) hts rfl
  refine ⟨hts, rfl, g, out, hg, hfed, hdoc, ?_⟩
  have hkinds : (phrasesOf "in" ([closing, opening, word] ++ [.eof ⟨1, 4, 3⟩])).toOption.map
      (fun ps => ps.map Phrase.kind) = some [.control, .startBlock, .significant, .statementEnd,
        .endBlock, .statementEnd, .eof] := by
    decide +kernel
  rw [hps] at hkinds
  simpa [Except.toOption, Function.comp_def] using hkinds

end Grouper

end TermStream
