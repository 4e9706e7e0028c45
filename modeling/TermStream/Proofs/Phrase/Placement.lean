import TermStream.Proofs.Phrase.Ahead
import TermStream.Proofs.Token.Placement

namespace TermStream

def Phrase.Laid : List Char → List Phrase → Prop :=
  TermStream.Laid Phrase.start Phrase.stop Phrase.text

namespace Grouped

variable {source : String} {t : Token} {blocks : List OpenBlock} {g : Grouping}

/-- A phrase stands where its token is, and has the token if it takes it. -/
structure Stands (r : Grouped) (t : Token) : Prop where
  position_eq : r.phrase.position = t.start
  token_eq : r.phrase.token = if r.taken then some t else none

theorem taking_stands (kind : PhraseKind) (t : Token) (g : Grouping) (blocks : List OpenBlock) :
    (taking kind t g blocks).Stands t := ⟨rfl, rfl⟩

theorem atEof_stands (source : String) (t : Token) (blocks : List OpenBlock) :
    (atEof source t blocks).Stands t := by
  cases blocks with
  | nil => exact ⟨rfl, rfl⟩
  | cons block blocks => exact ⟨rfl, rfl⟩

theorem between_stands (source : String) (g : Grouping) (blocks : List OpenBlock) (t : Token) :
    (between source g blocks t).Stands t := by
  unfold between
  split
  · exact atEof_stands source t blocks
  · exact taking_stands _ t _ _
  · exact taking_stands _ t _ _
  · split
    · exact ⟨rfl, rfl⟩
    · exact taking_stands _ t _ _
  · split
    · exact taking_stands _ t _ _
    · exact taking_stands _ t _ _

theorem inside_stands (g : Grouping) (blocks : List OpenBlock) (t : Token) :
    (inside g blocks t).Stands t := by
  unfold inside
  split
  · exact ⟨rfl, rfl⟩
  · exact ⟨rfl, rfl⟩
  · exact taking_stands _ t _ _
  · exact taking_stands _ t _ _
  · split
    · exact taking_stands _ t _ _
    · split
      · exact taking_stands _ t _ _
      · exact taking_stands _ t _ _

theorem ofToken_stands (source : String) (g : Grouping) (blocks : List OpenBlock) (t : Token) :
    (ofToken source g blocks t).Stands t := by
  cases g with
  | statementSequence | afterBlockStart => exact between_stands source _ blocks t
  | statement | statementAfterSoft => exact inside_stands _ blocks t
  | beforeBlockEnd =>
    rw [ofToken]
    split
    · exact taking_stands _ t _ _
    · exact between_stands source _ blocks t
  | beforeEof | afterEof => exact atEof_stands source t blocks

theorem Stands.laid_cons {r : Grouped} {before : List Char} {ts : List Token} {ps : List Phrase}
    (h : r.Stands t) (ht : Token.Laid before (t :: ts))
    (hps : ∀ before', Token.Laid before' (if r.taken then ts else t :: ts) →
      Phrase.Laid before' ps) :
    Phrase.Laid before (r.phrase :: ps) := by
  obtain ⟨hstart, hstop, hrest⟩ := ht
  have hpos : r.phrase.start = .behind before := h.position_eq.trans hstart
  have htoken := h.token_eq
  cases hr : r.taken with
  | true =>
    rw [hr] at htoken hps
    have htext : r.phrase.text = t.text := by simp [Phrase.text, htoken]
    have hpstop : r.phrase.stop = t.stop := by simp [Phrase.stop, htoken]
    refine ⟨hpos, ?_, ?_⟩
    · rw [hpstop, htext, hstop]
    · rw [htext]
      exact hps _ hrest
  | false =>
    rw [hr] at htoken hps
    have htext : before ++ r.phrase.text.toList = before := by simp [Phrase.text, htoken]
    have hpstop : r.phrase.stop = r.phrase.start := by simp [Phrase.stop, Phrase.start, htoken]
    refine ⟨hpos, ?_, ?_⟩
    · rw [htext, hpstop, hpos]
    · rw [htext]
      exact hps _ ⟨hstart, hstop, hrest⟩

/-- The phrases of tokens that stand one after the other do so as well. -/
theorem phrasesFrom_laid (source : String) (g : Grouping) (blocks : List OpenBlock)
    (ts : List Token) (before : List Char) (h : Token.Laid before ts) :
    Phrase.Laid before (phrasesFrom source g blocks ts) := by
  revert before
  refine phrasesFrom.induct source
    (fun g blocks ts => ∀ before, Token.Laid before ts →
      Phrase.Laid before (phrasesFrom source g blocks ts)) ?_ ?_ ?_ g blocks ts
  · intro blocks ts before h
    rw [phrasesFrom_afterEof]
    trivial
  · intro g blocks hg before h
    rw [phrasesFrom_nil]
    trivial
  · intro g blocks hg t ts r hadv ih before h
    rw [phrasesFrom_cons source hg]
    exact (ofToken_stands source g blocks t).laid_cons h ih

end Grouped

theorem phrases_laid {source : String} {ts : List Token} {ps : List Phrase}
    (ht : Token.Laid [] ts) (h : phrasesOf source ts = .ok ps) : Phrase.Laid [] ps := by
  rw [phrasesOf_eq] at h
  cases h
  exact Grouped.phrasesFrom_laid source _ _ ts [] ht

end TermStream
