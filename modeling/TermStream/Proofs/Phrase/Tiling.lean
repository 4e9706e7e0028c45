import TermStream.Proofs.Phrase.Ahead

namespace TermStream

def Phrase.isEof (p : Phrase) : Bool := p.kind == .eof

namespace Grouped

variable {source : String} {t : Token} {blocks : List OpenBlock} {g : Grouping}

/-- How a phrase goes with the token for which it was made. -/
structure Proper (r : Grouped) (t : Token) : Prop where
  token_eq : r.phrase.token = if r.taken then some t else none
  isEof_eq : r.phrase.isEof = (r.taken && t.isEof)
  after_iff : r.grouping = .afterEof ↔ r.taken = true ∧ t.isEof = true
  before : r.grouping = .beforeEof → r.taken = false ∧ t.isEof = true
  clean : r.phrase.kind = .statementEnd → r.taken = false → r.phrase.errors = .nil

theorem Proper.taking {kind : PhraseKind} (ht : t.isEof = false) (hk : kind ≠ .eof)
    (hg : g ≠ .afterEof) (hg' : g ≠ .beforeEof) : (taking kind t g blocks).Proper t where
  token_eq := rfl
  isEof_eq := by simp [Phrase.isEof, Grouped.taking, Phrase.ofToken, hk, ht]
  after_iff := by simp [Grouped.taking, hg, ht]
  before := fun h => absurd h hg'
  clean := fun _ h => absurd h nofun

theorem atEof_proper (ht : t.isEof = true) : (atEof source t blocks).Proper t := by
  cases blocks with
  | nil => exact ⟨rfl, by simp [atEof, Grouped.taking, Phrase.ofToken, Phrase.isEof, ht],
      by simp [atEof, Grouped.taking, ht], nofun, nofun⟩
  | cons block blocks =>
    exact ⟨rfl, by simp [atEof, Phrase.boundary, Phrase.withErrors, Phrase.isEof],
      by simp [atEof], nofun, nofun⟩

theorem between_proper (hg : g ≠ .afterEof) (hg' : g ≠ .beforeEof) :
    (between source g blocks t).Proper t := by
  have hne : ∀ k, t.kind = k → k ≠ .eof → t.isEof = false := fun k hk hn => by
    simp [Token.isEof, hk, hn]
  unfold between
  cases hk : t.kind with
  | eof => exact atEof_proper (by simp [Token.isEof, hk])
  | semicolon => exact .taking (hne _ hk (by decide)) (by decide) hg hg'
  | leftCurly => exact .taking (hne _ hk (by decide)) (by decide) (by decide) (by decide)
  | rightCurly =>
    dsimp only
    split
    · exact ⟨rfl, by simp [Phrase.withErrors, Phrase.ofToken, Phrase.isEof, hne _ hk (by decide)],
        by simp [hg, hne _ hk (by decide)], fun h => absurd h hg', fun h => by cases h⟩
    · exact .taking (hne _ hk (by decide)) (by decide) (by decide) (by decide)
  | _ =>
    dsimp only
    split
    · exact .taking (hne _ hk (by decide)) (by decide) hg hg'
    · exact .taking (hne _ hk (by decide)) (by decide) (by decide) (by decide)

theorem inside_proper (hg : g ≠ .afterEof) (hg' : g ≠ .beforeEof) :
    (inside g blocks t).Proper t := by
  have hne : ∀ k, t.kind = k → k ≠ .eof → t.isEof = false := fun k hk hn => by
    simp [Token.isEof, hk, hn]
  unfold inside
  cases hk : t.kind with
  | eof =>
    exact ⟨rfl, by simp [leaving, Phrase.boundary, Phrase.isEof], by simp [leaving],
      fun _ => ⟨rfl, by simp [Token.isEof, hk]⟩, fun _ _ => rfl⟩
  | rightCurly =>
    refine ⟨rfl, by simp [leaving, Phrase.boundary, Phrase.isEof], ?_, ?_, fun _ _ => rfl⟩
    · dsimp only [leaving]
      split <;> simp
    · dsimp only [leaving]
      split <;> simp
  | semicolon => exact .taking (hne _ hk (by decide)) (by decide) (by decide) (by decide)
  | leftCurly => exact .taking (hne _ hk (by decide)) (by decide) (by decide) (by decide)
  | _ =>
    dsimp only
    split
    · exact .taking (hne _ hk (by decide)) (by decide) (by decide) (by decide)
    · split
      · exact .taking (hne _ hk (by decide)) (by decide) hg hg'
      · exact .taking (hne _ hk (by decide)) (by decide) (by decide) (by decide)

theorem ofToken_proper (hg : g ≠ .afterEof) (hb : g = .beforeEof → t.isEof = true) :
    (ofToken source g blocks t).Proper t := by
  cases g with
  | statementSequence | afterBlockStart => exact between_proper nofun nofun
  | statement | statementAfterSoft => exact inside_proper nofun nofun
  | beforeBlockEnd =>
    unfold ofToken
    dsimp only
    split
    · next hk => exact .taking (by simp [Token.isEof, hk]) nofun nofun nofun
    · exact between_proper nofun nofun
  | beforeEof => exact atEof_proper (hb rfl)
  | afterEof => exact absurd rfl hg

structure Tiling (ts : List Token) (ps : List Phrase) : Prop where
  tokens_eq : ps.filterMap Phrase.token = ts
  endsOnce : EndsOnce Phrase.isEof ps
  clean : ∀ p ∈ ps, p.kind = .statementEnd → p.hasToken = false → p.errors = .nil

theorem Tiling.cons {r : Grouped} {ts : List Token} {ps : List Phrase} (hp : r.Proper t)
    (h : Tiling ts ps) (he : r.phrase.isEof = false) :
    Tiling ((if r.taken then [t] else []) ++ ts) (r.phrase :: ps) where
  tokens_eq := by
    have htok := hp.token_eq
    cases ht : r.taken with
    | true =>
      rw [ht] at htok
      rw [List.filterMap_cons_some htok, h.tokens_eq]
      rfl
    | false =>
      rw [ht] at htok
      rw [List.filterMap_cons_none htok, h.tokens_eq]
      rfl
  endsOnce := by
    unfold EndsOnce
    rw [if_neg (by simp [he])]
    exact h.endsOnce
  clean := by
    intro p hmem hk ht
    rcases List.mem_cons.1 hmem with rfl | hmem
    · refine hp.clean hk ?_
      cases hr : r.taken with
      | false => rfl
      | true => simp [Phrase.hasToken, hp.token_eq, hr] at ht
    · exact h.clean p hmem hk ht

/-- The phrases of tokens that end with the end of the input hold each of them once. -/
theorem phrasesFrom_tiling (source : String) (g : Grouping) (blocks : List OpenBlock)
    (ts : List Token) (ht : EndsOnce Token.isEof ts) (hg : g ≠ .afterEof)
    (hb : g = .beforeEof → ∀ t ∈ ts.head?, t.isEof = true) :
    Tiling ts (phrasesFrom source g blocks ts) := by
  induction ts generalizing g blocks with
  | nil => exact ht.elim
  | cons t ts ih =>
    -- boundaries are put in front of the same token, and there are ever fewer of them to come
    induction hn : pendingBoundaries g blocks using Nat.strongRecOn generalizing g blocks with
    | _ n ihn =>
      have hp : (ofToken source g blocks t).Proper t := ofToken_proper hg fun h => hb h t rfl
      have hadv := ofToken_advances source g blocks t
      rw [phrasesFrom_cons source hg]
      generalize ofToken source g blocks t = r at hp hadv ⊢
      have heof := hp.isEof_eq
      have hafter := hp.after_iff
      cases htaken : r.taken with
      | false =>
        rw [htaken, Bool.false_and] at heof
        have hlt : pendingBoundaries r.grouping r.blocks < n := by
          rcases hadv with h | h
          · exact absurd (htaken.symm.trans h) Bool.false_ne_true
          · exact hn ▸ h
        have hrest := ihn _ hlt r.grouping r.blocks (by simp [hafter, htaken])
          (fun h t' hmem => Option.some.inj hmem ▸ (hp.before h).2) rfl
        simpa [htaken] using Tiling.cons hp hrest heof
      | true =>
        rw [htaken, Bool.true_and] at heof
        unfold EndsOnce at ht
        cases hend : t.isEof with
        | true =>
          obtain rfl : ts = [] := by simpa [hend] using ht
          have htok : r.phrase.token = some t := by simpa [htaken] using hp.token_eq
          rw [hafter.2 ⟨htaken, hend⟩, phrasesFrom_afterEof]
          refine ⟨List.filterMap_cons_some htok, by simp [EndsOnce, heof, hend], ?_⟩
          intro p hmem hk hnone
          obtain rfl := List.mem_singleton.1 hmem
          simp [Phrase.hasToken, htok] at hnone
        | false =>
          have hrest := ih r.grouping r.blocks (by simpa [hend] using ht) (by simp [hafter, hend])
            (fun h => absurd ((hp.before h).1.symm.trans htaken) Bool.false_ne_true)
          simpa [htaken] using Tiling.cons hp hrest (heof.trans hend)

end Grouped

end TermStream
