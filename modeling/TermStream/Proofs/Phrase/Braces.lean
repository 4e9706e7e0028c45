import TermStream.Proofs.Phrase.Turns

namespace TermStream

/-- An opening brace is pushed, and a closing one takes the innermost off, if there is one. -/
def matchBrace (opened : List Token) (t : Token) : List Token :=
  match t.kind with
  | .leftCurly => t :: opened
  | .rightCurly => opened.tail
  | _ => opened

/-- The opening braces that are not matched after `ts`, the innermost first, if there were `opened`
before. -/
def unmatched (opened ts : List Token) : List Token := ts.foldl matchBrace opened

def Token.block (t : Token) : OpenBlock := ⟨t.start, t.stop⟩

/-- The end of a block for which there is no brace. -/
def Phrase.isImplicitEnd (p : Phrase) : Bool := p.kind == .endBlock && !p.hasToken

def Grouper.implicitEnds (out : List (Phrase × Grouper)) : Nat :=
  out.countP fun x => x.1.isImplicitEnd

theorem Grouper.implicitEnds_cons (p : Phrase) (g : Grouper) (out : List (Phrase × Grouper)) :
    implicitEnds ((p, g) :: out) = implicitEnds out + if p.isImplicitEnd then 1 else 0 :=
  List.countP_cons

theorem Grouper.implicitEnds_concat (out : List (Phrase × Grouper)) (p : Phrase) (g : Grouper) :
    implicitEnds (out ++ [(p, g)]) = implicitEnds out + if p.isImplicitEnd then 1 else 0 := by
  rw [implicitEnds, List.countP_append, List.countP_singleton]
  rfl

theorem Phrase.isImplicitEnd_of_token {p : Phrase} {t : Token} (h : p.token = some t) :
    p.isImplicitEnd = false := by
  simp [isImplicitEnd, hasToken, h]

namespace Grouped
open Grouper Phrase

variable {source : String} {g : Grouping} {blocks : List OpenBlock} {t e : Token}
  {ts opened : List Token} {r : Grouped} {out : List (Phrase × Grouper)}

theorem matchBrace_of_ne (hl : t.kind ≠ .leftCurly) (hr : t.kind ≠ .rightCurly) :
    matchBrace opened t = opened := by
  unfold matchBrace
  split
  · next h => exact absurd h hl
  · next h => exact absurd h hr
  · rfl

theorem unmatched_eof (hk : t.kind = .eof) : unmatched opened [t] = opened :=
  matchBrace_of_ne (by simp [hk]) (by simp [hk])

/-- What a turn does to the braces that are open. -/
inductive Braced (source : String) (opened : List Token) (t : Token) : Grouped → Prop where
  | taken (r : Grouped) (hr : r.taken = true) (ht : r.phrase.token = some t)
      (hb : r.blocks = (matchBrace opened t).map Token.block)
      (hc : t.kind = .rightCurly →
        r.phrase = if opened = [] then stray source t else .ofToken .endBlock t)
      (he : t.kind ≠ .rightCurly → r.phrase.errors = .nil) : Braced source opened t r
  | boundary (r : Grouped) (hr : r.taken = false) (hk : r.phrase = .boundary .statementEnd t.start)
      (hb : r.blocks = opened.map Token.block) : Braced source opened t r
  | unterminated (brace : Token) (rest : List Token) (ho : opened = brace :: rest)
      (hk : t.kind = .eof) :
      Braced source opened t
        ⟨unterminated source t brace.block, false, .statement, rest.map Token.block⟩

theorem Braced.of_taking (kind : PhraseKind) (g : Grouping) (hl : t.kind ≠ .leftCurly)
    (hr : t.kind ≠ .rightCurly) :
    Braced source opened t (taking kind t g (opened.map Token.block)) :=
  .taken _ rfl rfl (by rw [matchBrace_of_ne hl hr]; rfl) (fun h => absurd h hr) fun _ => rfl

theorem Turns.braced (h : Turns source g (opened.map Token.block) t r) :
    Braced source opened t r := by
  cases h with
  | opens hk =>
    have hb : (opening t (opened.map Token.block)).blocks =
        (matchBrace opened t).map Token.block := by
      simp [matchBrace, hk, opening, taking, Token.block]
    exact .taken _ rfl rfl hb (fun h => by simp [hk] at h) fun _ => rfl
  | closes hg hk hb =>
    have ho : opened ≠ [] := by simpa using hb
    have hb : (closing t (opened.map Token.block)).blocks =
        (matchBrace opened t).map Token.block := by
      simp [matchBrace, hk, closing, taking]
    refine .taken _ rfl rfl hb (fun _ => ?_) fun _ => rfl
    rw [if_neg ho]
    rfl
  | stray hg hk hb =>
    obtain rfl : opened = [] := by simpa using hb
    have hb : ([] : List OpenBlock) = (matchBrace [] t).map Token.block := by simp [matchBrace, hk]
    exact .taken _ rfl rfl hb (fun _ => rfl) fun h => absurd hk h
  | control hg hk => exact .of_taking _ _ (by simp [hk]) (by simp [hk])
  | ignorable hk => exact .of_taking _ _ (ne_of_isIgnorable hk rfl) (ne_of_isIgnorable hk rfl)
  | significant hk => exact .of_taking _ _ hk.2.1 hk.2.2
  | softEnd hg hk => exact .of_taking _ _ (by simp [hk]) (by simp [hk])
  | explicitEnd hg hk => exact .of_taking _ _ (by simp [hk]) (by simp [hk])
  | endBeforeBrace hg hk => exact .boundary _ rfl rfl rfl
  | endBeforeEof hg hk => exact .boundary _ rfl rfl rfl
  | unterminated hg hk block rest hb =>
    obtain ⟨brace, braces, rfl, rfl, rfl⟩ := List.map_eq_cons_iff.1 hb
    exact .unterminated brace braces rfl hk
  | last hg hk hb =>
    obtain rfl : opened = [] := by simpa using hb
    exact .of_taking _ _ (by simp [hk]) (by simp [hk])

/-- The phrases `front` stand before one that is made of the token `t`, when the braces `closed` and
`left` have not been matched. The blocks of `closed` have been ended at the end of the input. -/
structure Split (source : String) (opened ts : List Token) (front : List (Phrase × Grouper))
    (t : Token) (rest : List Token) (r : Grouped) (closed left : List Token) : Prop where
  tokens : ts = tokensOf front ++ t :: rest
  last : t.kind = .eof → rest = []
  braced : Braced source left t r
  unmatched_eq : unmatched opened (tokensOf front) = closed ++ left
  closed_length : closed.length = implicitEnds front
  eof_of_closed : closed ≠ [] → t.kind = .eof

/-- The braces that are open when a phrase is made are those that the tokens before it leave
unmatched, without those whose blocks have been ended at the end of the input. -/
theorem Course.split (h : Course source g blocks ts out) (hb : blocks = opened.map Token.block)
    {front back : List (Phrase × Grouper)} {p : Phrase} {g' : Grouper}
    (hs : out = front ++ (p, g') :: back) :
    ∃ t rest r closed left, Split source opened ts front t rest r closed left ∧
      p = r.phrase ∧ g' = r.after source t := by
  induction h generalizing opened front with
  | ended => cases front <;> cases hs
  | @turn g blocks t ts r out ha hr ht rest ih =>
    subst hb
    cases front with
    | nil =>
      obtain ⟨hpg, -⟩ := List.cons.inj hs
      obtain ⟨rfl, rfl⟩ := Prod.mk.inj hpg
      exact ⟨t, ts, r, [], opened, ⟨rfl, ha.eq_nil, ht.braced, rfl, rfl, nofun⟩, rfl, rfl⟩
    | cons first front =>
      obtain ⟨rfl, rfl⟩ := List.cons.inj hs
      cases ht.braced with
      | taken _ htaken htoken hblocks hc he =>
        rw [htaken, if_pos rfl] at ih
        obtain ⟨t', rest', r', closed, left, hsplit, hp, hg⟩ := ih hblocks rfl
        obtain rfl := hsplit.tokens
        refine ⟨t', rest', r', closed, left, { hsplit with
          tokens := ?_
          unmatched_eq := ?_
          closed_length := ?_ }, hp, hg⟩
        · rw [tokensOf_cons, htoken]
          rfl
        · rw [tokensOf_cons, htoken]
          exact hsplit.unmatched_eq
        · rw [implicitEnds_cons, isImplicitEnd_of_token htoken]
          exact hsplit.closed_length
      | boundary _ htaken hphrase hblocks =>
        rw [htaken, if_neg Bool.false_ne_true] at ih
        obtain ⟨t', rest', r', closed, left, hsplit, hp, hg⟩ := ih hblocks rfl
        rw [hphrase]
        exact ⟨t', rest', r', closed, left, { hsplit with }, hp, hg⟩
      | unterminated brace braces ho hk =>
        obtain rfl := ha.eq_nil hk
        obtain ⟨t', rest', r', closed, left, hsplit, hp, hg⟩ := ih rfl rfl
        -- only the end of the input is left, so no token comes before it
        obtain ⟨hfront, ht'⟩ :=
          List.append_eq_singleton_iff.1 hsplit.tokens.symm |>.resolve_right nofun
        obtain ⟨rfl, rfl⟩ := List.cons.inj ht'
        have hleft := hsplit.unmatched_eq
        rw [hfront] at hleft
        refine ⟨t', [], r', brace :: closed, left, { hsplit with
          unmatched_eq := ?_
          closed_length := ?_
          eof_of_closed := fun _ => hk }, hp, hg⟩
        · rw [tokensOf_cons, hfront, ho]
          exact congrArg (brace :: ·) hleft
        · rw [implicitEnds_cons, List.length_cons, hsplit.closed_length]
          rfl

/-- Blocks are ended without a brace for the opening braces that are left unmatched. -/
theorem Course.implicitEnds_eq (h : Course source g blocks ts out)
    (hb : blocks = opened.map Token.block) (he : ∀ t ∈ ts.getLast?, t = e) :
    (out.map Prod.fst).filter isImplicitEnd =
      (unmatched opened ts).map fun brace => unterminated source e brace.block := by
  induction h generalizing opened with
  | ended =>
    obtain rfl := List.map_eq_nil_iff.1 hb.symm
    rfl
  | @turn g blocks t ts r out ha hr ht rest ih =>
    subst hb
    cases ht.braced with
    | taken _ htaken htoken hblocks =>
      rw [htaken, if_pos rfl] at ih
      have hlast : ∀ t' ∈ ts.getLast?, t' = e := by
        intro t' hmem
        apply he
        cases ts with
        | nil => cases hmem
        | cons t₁ ts => rwa [List.getLast?_cons_cons]
      rw [List.map_cons, List.filter_cons_of_neg (by simp [isImplicitEnd_of_token htoken])]
      exact ih hblocks hlast
    | boundary _ htaken hphrase hblocks =>
      rw [htaken, if_neg Bool.false_ne_true] at ih
      rw [List.map_cons, List.filter_cons_of_neg (by simp [hphrase, isImplicitEnd, boundary])]
      exact ih hblocks he
    | unterminated brace braces ho hk =>
      obtain rfl := ha.eq_nil hk
      obtain rfl : t = e := he t rfl
      have hrest : (out.map Prod.fst).filter isImplicitEnd =
          (unmatched braces [t]).map fun brace => unterminated source t brace.block := ih rfl he
      rw [unmatched_eof hk] at hrest ⊢
      rw [List.map_cons, List.filter_cons_of_pos rfl, hrest, ho]
      rfl

theorem Braced.eq_of_closing (h : Braced source opened t r) {t' : Token}
    (ht : r.phrase.token = some t') (hk : t'.kind = .rightCurly) :
    t' = t ∧ r.phrase = if opened = [] then stray source t else .ofToken .endBlock t := by
  cases h with
  | taken _ _ htoken _ hclosing =>
    obtain rfl := Option.some.inj (htoken.symm.trans ht)
    exact ⟨rfl, hclosing hk⟩
  | boundary _ _ hphrase =>
    rw [hphrase] at ht
    cases ht
  | unterminated => cases ht

theorem Braced.of_errors (h : Braced source opened t r) (he : r.phrase.errors ≠ .nil) :
    r.phrase.isImplicitEnd = true ∨ ∃ t', r.phrase.token = some t' ∧ t'.kind = .rightCurly := by
  cases h with
  | taken _ _ htoken _ _ hclean => exact .inr ⟨t, htoken, Decidable.not_imp_comm.1 hclean he⟩
  | boundary _ _ hphrase =>
    rw [hphrase] at he
    exact absurd rfl he
  | unterminated => exact .inl rfl

theorem Braced.kind_of_implicitEnd (h : Braced source opened t r)
    (hi : r.phrase.isImplicitEnd = true) : t.kind = .eof := by
  cases h with
  | taken _ _ htoken =>
    rw [isImplicitEnd_of_token htoken] at hi
    cases hi
  | boundary _ _ hphrase =>
    rw [hphrase] at hi
    cases hi
  | unterminated _ _ _ hk => exact hk

theorem Braced.blocks_length (h : Braced source opened t r) :
    r.blocks.length + (if r.phrase.isImplicitEnd then 1 else 0) =
      (unmatched opened r.phrase.token.toList).length := by
  cases h with
  | taken _ _ htoken hblocks =>
    rw [isImplicitEnd_of_token htoken, htoken, hblocks, List.length_map]
    rfl
  | boundary _ _ hphrase hblocks =>
    rw [hphrase, hblocks, List.length_map]
    rfl
  | unterminated brace rest ho =>
    rw [ho, List.length_map]
    rfl

/-- Braces whose blocks have been ended at the end of the input are not matched any more. -/
theorem Braced.unmatched_closed (h : Braced source opened t r) {closed : List Token}
    (hk : closed ≠ [] → t.kind = .eof) :
    unmatched (closed ++ opened) r.phrase.token.toList =
      closed ++ unmatched opened r.phrase.token.toList := by
  cases closed with
  | nil => rfl
  | cons brace closed =>
    have heof := hk nofun
    cases h with
    | taken _ _ htoken =>
      rw [htoken, Option.toList_some, unmatched_eof heof, unmatched_eof heof]
    | boundary _ _ hphrase =>
      rw [hphrase]
      rfl
    | unterminated => rfl

theorem unmatched_append (opened ts ts' : List Token) :
    unmatched opened (ts ++ ts') = unmatched (unmatched opened ts) ts' :=
  List.foldl_append

end Grouped

namespace Grouper
open Phrase Grouped

/-- A closing brace ends a block if it matches an opening one, and otherwise stands alone with an
error of its own. At the end of the input a block is ended for each opening brace that is not
matched, the innermost first, with an error at the brace. There are no other errors, and at any
moment as many blocks are open as braces are, those left out whose blocks have been ended so. -/
theorem braces_matched (source : String) (ts : List Token) (e : Token)
    (hts : ∀ t ∈ ts, t.kind ≠ .eof) (he : e.kind = .eof) :
    ∃ g out, Grouper.new.start source = .ok g ∧ Fed g (ts ++ [e]) out ∧
      (∀ out', Fed g (ts ++ [e]) out' → out' = out) ∧ tokensOf out = ts ++ [e] ∧
      (∀ front p g' back, out = front ++ (p, g') :: back →
        (∀ t, p.token = some t → t.kind = .rightCurly →
          (unmatched [] (tokensOf front) ≠ [] → p.kind = .endBlock ∧ p.errors = .nil) ∧
          (unmatched [] (tokensOf front) = [] → p.kind = .control ∧
            p.errors = .cons
              ⟨Problem.unmatchedClosingCurly, [], ⟨source, t.start, t.stop⟩⟩ .nil .nil)) ∧
        (p.isImplicitEnd = true → tokensOf front = ts) ∧
        (p.errors ≠ .nil →
          p.isImplicitEnd = true ∨ ∃ t, p.token = some t ∧ t.kind = .rightCurly) ∧
        g'.openBlocks + implicitEnds (front ++ [(p, g')]) =
          (unmatched [] (tokensOf (front ++ [(p, g')]))).length) ∧
      (out.map Prod.fst).filter isImplicitEnd =
        (unmatched [] ts).map fun brace =>
          { kind := .endBlock
            token := none
            position := e.start
            errors := .cons
              ⟨Problem.unterminatedBlock,
                [toString brace.start.line ++ ":" ++ toString brace.start.column],
                ⟨source, brace.start, brace.stop⟩⟩ .nil .nil } := by
  obtain ⟨g, out, hg, hfed, hcourse⟩ := exists_fed source hts he
  refine ⟨g, out, hg, hfed, fun out' h => hfed.unique h, hcourse.tokens_eq,
    fun front p g' back hs => ?_, ?_⟩
  · obtain ⟨t, rest, r, closed, left, hsplit, rfl, rfl⟩ := hcourse.split List.map_nil.symm hs
    refine ⟨fun t' ht' hk => ?_, fun hi => ?_, hsplit.braced.of_errors, ?_⟩
    · obtain ⟨rfl, hp⟩ := hsplit.braced.eq_of_closing ht' hk
      have hclosed : closed = [] := by
        cases closed with
        | nil => rfl
        | cons brace closed =>
          rw [hsplit.eof_of_closed nofun] at hk
          cases hk
      have hleft : unmatched [] (tokensOf front) = left := by rw [hsplit.unmatched_eq, hclosed]; rfl
      rw [hleft, hp]
      refine ⟨fun hne => ?_, fun heq => ?_⟩
      · rw [if_neg hne]
        exact ⟨rfl, rfl⟩
      · rw [if_pos heq]
        exact ⟨rfl, rfl⟩
    · have hall := hsplit.tokens
      rw [hsplit.last (hsplit.braced.kind_of_implicitEnd hi)] at hall
      exact (List.append_inj' hall rfl).1.symm
    · have hopen : (r.after source t).openBlocks = r.blocks.length := rfl
      rw [hopen, implicitEnds_concat, tokensOf_concat, unmatched_append, hsplit.unmatched_eq,
        hsplit.braced.unmatched_closed hsplit.eof_of_closed, List.length_append,
        ← hsplit.braced.blocks_length, hsplit.closed_length]
      omega
  · have hlast : ∀ t ∈ (ts ++ [e]).getLast?, t = e := fun t ht => by simpa using ht.symm
    rw [hcourse.implicitEnds_eq List.map_nil.symm hlast, unmatched_append, unmatched_eof he]
    rfl

/-- A closing brace too many, and a block that is not closed. -/
theorem braces_matched_stray :
    let closing : Token := ⟨.simple .rightCurly, "\x7d", ⟨1, 1, 0⟩, ⟨1, 2, 1⟩, .nil⟩
    let opening : Token := ⟨.simple .leftCurly, "\x7b", ⟨1, 2, 1⟩, ⟨1, 3, 2⟩, .nil⟩
    (∀ t ∈ [closing, opening], t.kind ≠ .eof) ∧ (Token.eof ⟨1, 3, 2⟩).kind = .eof ∧
    ∃ g out, Grouper.new.start "in" = .ok g ∧ Fed g [closing, opening, .eof ⟨1, 3, 2⟩] out ∧
      (out.map Prod.fst).filter isImplicitEnd =
        [⟨.endBlock, none, ⟨1, 3, 2⟩,
          .cons ⟨Problem.unterminatedBlock, ["1:2"], ⟨"in", ⟨1, 2, 1⟩, ⟨1, 3, 2⟩⟩⟩ .nil .nil⟩] ∧
      ∀ p g' back, out = (p, g') :: back → p.token = some closing →
        (p.kind = .control ∧ p.errors = .cons
          ⟨Problem.unmatchedClosingCurly, [], ⟨"in", ⟨1, 1, 0⟩, ⟨1, 2, 1⟩⟩⟩ .nil .nil) ∧
          g'.openBlocks + implicitEnds [(p, g')] = 0 := by
  intro closing opening
  have hts : ∀ t ∈ [closing, opening], t.kind ≠ .eof := by decide
  obtain ⟨g, out, hg, hfed, -, -, hphrase, hends⟩ :=
    braces_matched "in" [closing, opening] (.eof ⟨1, 3, 2⟩) hts rfl
  refine ⟨hts, rfl, g, out, hg, hfed, hends.trans (by decide), fun p g' back hs hp => ?_⟩
  obtain ⟨hclosing, -, -, hcount⟩ := hphrase [] p g' back hs
  refine ⟨(hclosing closing hp rfl).2 rfl, ?_⟩
  rw [List.nil_append] at hcount
  rw [hcount, tokensOf_cons, hp]
  rfl

end Grouper

end TermStream
