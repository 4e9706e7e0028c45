import TermStream.Proofs.Phrase.Placement

namespace TermStream

namespace Grouping

def isBetween : Grouping → Bool
  | .statementSequence | .afterBlockStart | .beforeBlockEnd | .beforeEof => true
  | _ => false

def isInside : Grouping → Bool
  | .statement | .statementAfterSoft => true
  | _ => false

def resumed : Grouping → Grouping
  | .beforeBlockEnd => .statementSequence
  | g => g

/-- The tokens that a state can meet. What is announced comes next, and the end of the input comes
once, as the last token. -/
def Awaits (g : Grouping) (blocks : List OpenBlock) (ts : List Token) : Prop :=
  match g with
  | .afterEof => ts = [] ∧ blocks = []
  | .beforeEof => ∃ t, ts = [t] ∧ t.kind = .eof
  | .beforeBlockEnd => blocks ≠ [] ∧ EndsOnce Token.isEof ts
  | _ => EndsOnce Token.isEof ts

theorem Awaits.endsOnce {g : Grouping} {blocks : List OpenBlock} {t : Token} {ts : List Token}
    (h : g.Awaits blocks (t :: ts)) : EndsOnce Token.isEof (t :: ts) := by
  cases g with
  | afterEof => cases h.1
  | beforeEof =>
    obtain ⟨t', ht, hk⟩ := h
    rw [ht]
    simp [EndsOnce, Token.isEof, hk]
  | beforeBlockEnd => exact h.2
  | _ => exact h

theorem Awaits.ne_afterEof {g : Grouping} {blocks : List OpenBlock} {t : Token} {ts : List Token}
    (h : g.Awaits blocks (t :: ts)) : g ≠ .afterEof := by
  rintro rfl
  cases h.1

theorem Awaits.tail {g : Grouping} {blocks : List OpenBlock} {t : Token} {ts : List Token}
    (h : g.Awaits blocks (t :: ts)) (hk : t.kind ≠ .eof) : EndsOnce Token.isEof ts := by
  have hends := h.endsOnce
  rwa [EndsOnce, if_neg (by simpa [Token.isEof] using hk)] at hends

theorem Awaits.resumed {g : Grouping} {blocks : List OpenBlock} {t : Token} {ts : List Token}
    (h : g.Awaits blocks (t :: ts)) (hk : t.kind ≠ .eof) (blocks' : List OpenBlock) :
    g.resumed.Awaits blocks' ts := by
  cases g with
  | afterEof => cases h.1
  | beforeEof =>
    obtain ⟨t', ht, hk'⟩ := h
    obtain ⟨rfl, -⟩ := List.cons.inj ht
    exact absurd hk' hk
  | _ => exact h.tail hk

theorem Awaits.eq_nil {g : Grouping} {blocks : List OpenBlock} {t : Token} {ts : List Token}
    (h : g.Awaits blocks (t :: ts)) (hk : t.kind = .eof) : ts = [] := by
  simpa [EndsOnce, Token.isEof, hk] using h.endsOnce

end Grouping

namespace Grouper

def tokensOf (out : List (Phrase × Grouper)) : List Token := out.filterMap fun x => x.1.token

theorem tokensOf_cons (p : Phrase) (g : Grouper) (out : List (Phrase × Grouper)) :
    tokensOf ((p, g) :: out) = p.token.toList ++ tokensOf out := by
  cases hp : p.token <;> simp [tokensOf, hp]

theorem tokensOf_concat (out : List (Phrase × Grouper)) (p : Phrase) (g : Grouper) :
    tokensOf (out ++ [(p, g)]) = tokensOf out ++ p.token.toList := by
  rw [tokensOf, List.filterMap_append]
  cases hp : p.token <;> simp [tokensOf, hp]

end Grouper

namespace Grouped
open Grouper

variable {source : String} {g : Grouping} {blocks : List OpenBlock} {t : Token} {ts : List Token}
  {r : Grouped}

def stray (source : String) (t : Token) : Phrase :=
  ⟨.control, some t, t.start,
    .single ⟨Problem.unmatchedClosingCurly, [], ⟨source, t.start, t.stop⟩⟩⟩

def unterminated (source : String) (t : Token) (block : OpenBlock) : Phrase :=
  ⟨.endBlock, none, t.start,
    .single ⟨Problem.unterminatedBlock, [block.start.render], ⟨source, block.start, block.stop⟩⟩⟩

inductive Turns (source : String) (g : Grouping) (blocks : List OpenBlock) (t : Token) :
    Grouped → Prop where
  | opens (hk : t.kind = .leftCurly) : Turns source g blocks t (opening t blocks)
  | closes (hg : g.isBetween) (hk : t.kind = .rightCurly) (hb : blocks ≠ []) :
      Turns source g blocks t (closing t blocks)
  | stray (hg : g.isBetween) (hk : t.kind = .rightCurly) (hb : blocks = []) :
      Turns source g blocks t ⟨stray source t, true, g.resumed, []⟩
  | control (hg : g.isBetween) (hk : t.kind = .semicolon) :
      Turns source g blocks t (taking .control t g.resumed blocks)
  | ignorable (hk : t.kind.isIgnorable) :
      Turns source g blocks t (taking .ignorable t g.resumed blocks)
  | significant (hk : t.kind ≠ .eof ∧ t.kind ≠ .leftCurly ∧ t.kind ≠ .rightCurly) :
      Turns source g blocks t (taking .significant t .statement blocks)
  | softEnd (hg : g = .statement) (hk : t.kind = .newline) :
      Turns source g blocks t (taking .softStatementEnd t .statementAfterSoft blocks)
  | explicitEnd (hg : g.isInside) (hk : t.kind = .semicolon) :
      Turns source g blocks t (taking .statementEnd t .statementSequence blocks)
  | endBeforeBrace (hg : g.isInside) (hk : t.kind = .rightCurly) :
      Turns source g blocks t
        (leaving .statementEnd t (if blocks = [] then .statementSequence else .beforeBlockEnd) blocks)
  | endBeforeEof (hg : g.isInside) (hk : t.kind = .eof) :
      Turns source g blocks t (leaving .statementEnd t .beforeEof blocks)
  | unterminated (hg : g.isBetween) (hk : t.kind = .eof) (block : OpenBlock)
      (rest : List OpenBlock) (hb : blocks = block :: rest) :
      Turns source g blocks t ⟨unterminated source t block, false, .statement, rest⟩
  | last (hg : g.isBetween) (hk : t.kind = .eof) (hb : blocks = []) :
      Turns source g blocks t (taking .eof t .afterEof [])

theorem atEof_turns (hg : g.isBetween) (hk : t.kind = .eof) :
    Turns source g blocks t (atEof source t blocks) := by
  cases blocks with
  | nil => exact .last hg hk rfl
  | cons block rest => exact .unterminated hg hk block rest rfl

theorem between_turns (hg : g.isBetween) :
    Turns source g blocks t (between source g.resumed blocks t) := by
  unfold between
  cases hk : t.kind with
  | eof => exact atEof_turns hg hk
  | semicolon => exact .control hg hk
  | leftCurly => exact .opens hk
  | rightCurly =>
    dsimp only
    split
    · next hb =>
      obtain rfl := List.isEmpty_iff.1 hb
      exact .stray hg hk rfl
    · next hb => exact .closes hg hk (by simpa using hb)
  | _ =>
    dsimp only
    split
    · next hi => exact .ignorable (hk ▸ hi)
    · exact .significant (by simp [hk])

theorem inside_turns (hg : g.isInside) : Turns source g blocks t (inside g blocks t) := by
  have hres : g.resumed = g := by
    cases g with
    | beforeBlockEnd => cases hg
    | _ => rfl
  unfold inside
  cases hk : t.kind with
  | eof => exact .endBeforeEof hg hk
  | semicolon => exact .explicitEnd hg hk
  | leftCurly => exact .opens hk
  | rightCurly => simpa using Turns.endBeforeBrace hg hk
  | _ =>
    dsimp only
    split
    · next hn => exact .softEnd hn.2 (hk.trans hn.1)
    · split
      · next hi =>
        have h : Turns source g blocks t (taking .ignorable t g.resumed blocks) := .ignorable (hk ▸ hi)
        rwa [hres] at h
      · exact .significant (by simp [hk])

/-- What becomes of a token that the state can meet. -/
theorem ofToken_turns (source : String) (h : g.Awaits blocks (t :: ts)) :
    Turns source g blocks t (ofToken source g blocks t) := by
  cases g with
  | statementSequence | afterBlockStart => exact between_turns rfl
  | statement | statementAfterSoft => exact inside_turns rfl
  | beforeBlockEnd =>
    rw [ofToken]
    split
    · next hk => exact .closes rfl hk h.1
    · exact between_turns (g := .beforeBlockEnd) rfl
  | beforeEof =>
    obtain ⟨t', ht, hk⟩ := h
    obtain ⟨rfl, -⟩ := List.cons.inj ht
    exact atEof_turns rfl hk
  | afterEof => cases h.1

theorem ne_of_isIgnorable {kind : TokenKind} (hk : t.kind.isIgnorable = true)
    (hn : kind.isIgnorable = false) : t.kind ≠ kind := by
  rintro rfl
  rw [hn] at hk
  cases hk

theorem Turns.boundary (h : Turns source g blocks t r) (ht : r.taken = false) :
    r.phrase.kind = .statementEnd ∨ r.phrase.kind = .endBlock := by
  cases h with
  | endBeforeBrace | endBeforeEof => exact .inl rfl
  | unterminated => exact .inr rfl
  | _ => cases ht

theorem Turns.awaits (h : Turns source g blocks t r) (ha : g.Awaits blocks (t :: ts)) :
    r.grouping.Awaits r.blocks (if r.taken then ts else t :: ts) := by
  cases h with
  | opens hk => exact ha.tail (by simp [hk])
  | closes hg hk hb => exact ha.tail (by simp [hk])
  | stray hg hk hb => exact ha.resumed (by simp [hk]) []
  | control hg hk => exact ha.resumed (by simp [hk]) blocks
  | ignorable hk => exact ha.resumed (ne_of_isIgnorable hk rfl) blocks
  | significant hk => exact ha.tail hk.1
  | softEnd hg hk => exact ha.tail (by simp [hk])
  | explicitEnd hg hk => exact ha.tail (by simp [hk])
  | endBeforeBrace hg hk =>
    dsimp only [leaving]
    split
    · exact ha.endsOnce
    · next hb => exact ⟨hb, ha.endsOnce⟩
  | endBeforeEof hg hk => exact ⟨t, by rw [ha.eq_nil hk]; rfl, hk⟩
  | unterminated hg hk block rest hb => exact ha.endsOnce
  | last hg hk hb => exact ⟨ha.eq_nil hk, rfl⟩

def after (r : Grouped) (source : String) (t : Token) : Grouper :=
  ⟨some source, r.grouping, r.blocks, none, t.start⟩

/-- What becomes of tokens, from a state on: each phrase with the grouper after it. -/
inductive Course (source : String) :
    Grouping → List OpenBlock → List Token → List (Phrase × Grouper) → Prop where
  | ended : Course source .afterEof [] [] []
  | turn {g : Grouping} {blocks : List OpenBlock} {t : Token} {ts : List Token} {r : Grouped}
      {out : List (Phrase × Grouper)} (ha : g.Awaits blocks (t :: ts))
      (hr : r = ofToken source g blocks t) (ht : Turns source g blocks t r)
      (rest : Course source r.grouping r.blocks (if r.taken then ts else t :: ts) out) :
      Course source g blocks (t :: ts) ((r.phrase, r.after source t) :: out)

theorem exists_course (source : String) (g : Grouping) (blocks : List OpenBlock) (ts : List Token)
    (h : g.Awaits blocks ts) : ∃ out, Course source g blocks ts out := by
  revert h
  refine phrasesFrom.induct source
    (fun g blocks ts => g.Awaits blocks ts → ∃ out, Course source g blocks ts out) ?_ ?_ ?_ g blocks ts
  · rintro blocks ts ⟨rfl, rfl⟩
    exact ⟨[], .ended⟩
  · intro g blocks hg h
    cases g with
    | afterEof => exact absurd rfl hg
    | beforeEof =>
      obtain ⟨t, ht, -⟩ := h
      cases ht
    | beforeBlockEnd => exact h.2.elim
    | _ => exact h.elim
  · intro g blocks hg t ts r hadv ih h
    have ht := ofToken_turns source h
    obtain ⟨out, hout⟩ := ih (ht.awaits h)
    exact ⟨_, .turn h rfl ht hout⟩

theorem Course.tokens_eq {out : List (Phrase × Grouper)} (h : Course source g blocks ts out) :
    tokensOf out = ts := by
  induction h with
  | ended => rfl
  | @turn g blocks t ts r out ha hr ht rest ih =>
    have htoken := (ofToken_stands source g blocks t).token_eq
    rw [← hr] at htoken
    rw [tokensOf_cons, htoken, ih]
    cases r.taken <;> rfl

theorem Course.phrases_eq {out : List (Phrase × Grouper)} (h : Course source g blocks ts out) :
    phrasesFrom source g blocks ts = out.map Prod.fst := by
  induction h with
  | ended => exact phrasesFrom_nil source _ _
  | turn ha hr ht rest ih =>
    rw [phrasesFrom_cons source ha.ne_afterEof, ← hr, ih]
    rfl

theorem Course.grouping_of_nil (h : Course source g blocks ts []) : g = .afterEof := by
  cases h
  rfl

theorem Course.parse_last {out : List (Phrase × Grouper)} (h : Course source g blocks ts out)
    {front : List (Phrase × Grouper)} {p : Phrase} {g' : Grouper} (hs : out = front ++ [(p, g')])
    (input : Cell Token) : g'.parse input = .ok (.eof, g', input) := by
  induction h generalizing front with
  | ended => cases front <;> cases hs
  | @turn g blocks t ts r out ha hr ht rest ih =>
    cases front with
    | nil =>
      obtain ⟨hpg, rfl⟩ := List.cons.inj hs
      obtain ⟨-, rfl⟩ := Prod.mk.inj hpg
      have hended : r.grouping = .afterEof := rest.grouping_of_nil
      simp [after, parse, hended]
    | cons first front =>
      obtain ⟨-, rfl⟩ := List.cons.inj hs
      exact ih rfl

end Grouped

namespace Grouper

/-- Tokens are put into the cell one after the other, each until it has been taken. Recorded are the
phrases that are read, each with the grouper after it. -/
inductive Fed : Grouper → List Token → List (Phrase × Grouper) → Prop where
  | done (g : Grouper) : Fed g [] []
  | read {g g₁ g₂ : Grouper} {t : Token} {ts : List Token} {input : Cell Token} {p : Phrase}
      {out : List (Phrase × Grouper)} (hp : g.parse (some t) = .ok (.outputAvailable, g₁, input))
      (hr : g₁.read = .ok (p, g₂)) (rest : Fed g₂ (input.toList ++ ts) out) :
      Fed g (t :: ts) ((p, g₂) :: out)

theorem Fed.unique {g : Grouper} {ts : List Token} {out out' : List (Phrase × Grouper)}
    (h : Fed g ts out) (h' : Fed g ts out') : out' = out := by
  induction h generalizing out' with
  | done g =>
    cases h'
    rfl
  | read hp hr rest ih =>
    cases h' with
    | read hp' hr' rest' =>
      rw [hp] at hp'
      cases hp'
      rw [hr] at hr'
      cases hr'
      rw [ih rest']

theorem fed_of_course {source : String} {g : Grouping} {blocks : List OpenBlock} {ts : List Token}
    {out : List (Phrase × Grouper)} (h : Grouped.Course source g blocks ts out) (last : Position) :
    Fed ⟨some source, g, blocks, none, last⟩ ts out := by
  induction h generalizing last with
  | ended => exact .done _
  | @turn g blocks t ts r out ha hr ht rest ih =>
    have hcell : (if r.taken then none else some t : Cell Token).toList ++ ts =
        if r.taken then ts else t :: ts := by
      cases r.taken <;> rfl
    have hparse : parse ⟨some source, g, blocks, none, last⟩ (some t) =
        .ok (.outputAvailable, ⟨some source, r.grouping, r.blocks, some r.phrase, t.start⟩,
          if r.taken then none else some t) := by
      simp [parse, ha.ne_afterEof, hr]
    exact .read hparse rfl (hcell ▸ ih t.start)

theorem endsOnce_concat {ts : List Token} {e : Token} (hts : ∀ t ∈ ts, t.kind ≠ .eof)
    (he : e.kind = .eof) : EndsOnce Token.isEof (ts ++ [e]) := by
  induction ts with
  | nil => simp [EndsOnce, Token.isEof, he]
  | cons t ts ih =>
    have ht : t.isEof = false := by simpa [Token.isEof] using hts t List.mem_cons_self
    rw [List.cons_append, EndsOnce, ht]
    exact ih fun t' ht' => hts t' (List.mem_cons_of_mem _ ht')

/-- Tokens that end with the end of the input are all taken. -/
theorem exists_fed (source : String) {ts : List Token} {e : Token} (hts : ∀ t ∈ ts, t.kind ≠ .eof)
    (he : e.kind = .eof) :
    ∃ g out, Grouper.new.start source = .ok g ∧ Fed g (ts ++ [e]) out ∧
      Grouped.Course source .statementSequence [] (ts ++ [e]) out := by
  obtain ⟨out, hout⟩ :=
    Grouped.exists_course source .statementSequence [] _ (endsOnce_concat hts he)
  exact ⟨_, out, rfl, fed_of_course hout .start, hout⟩

end Grouper

end TermStream
