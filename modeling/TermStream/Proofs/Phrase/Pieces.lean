import TermStream.Pipeline
import TermStream.Proofs.Phrase.Turns
import TermStream.Proofs.Text.Pieces

namespace TermStream

namespace Grouped

variable {source : String} {g : Grouping} {blocks : List OpenBlock} {t : Token} {ts : List Token}
  {r : Grouped}

theorem Turns.blocks_length_le (h : Turns source g blocks t r) :
    r.blocks.length ≤ blocks.length + 1 := by
  cases h with
  | opens hk => exact Nat.le_refl _
  | closes hg hk hb => simp [closing, taking]; omega
  | unterminated hg hk block rest hb => subst hb; simp; omega
  | last hg hk hb => exact Nat.zero_le _
  | stray hg hk hb => exact Nat.zero_le _
  | _ => exact Nat.le_succ _

theorem pendingBoundaries_bounds (g : Grouping) (blocks : List OpenBlock) :
    2 * blocks.length ≤ pendingBoundaries g blocks ∧
      pendingBoundaries g blocks ≤ 2 * blocks.length + 1 := by
  unfold pendingBoundaries
  split <;> omega

/-- There are at most four phrases for each token, besides the boundaries that are already due. -/
theorem Course.length_le {out : List (Phrase × Grouper)} (h : Course source g blocks ts out) :
    out.length ≤ 4 * ts.length + pendingBoundaries g blocks := by
  induction h with
  | ended => exact Nat.zero_le _
  | @turn g blocks t ts r out ha hr ht rest ih =>
    rw [List.length_cons, List.length_cons]
    cases htaken : r.taken with
    | true =>
      have hblocks := ht.blocks_length_le
      have hold := pendingBoundaries_bounds g blocks
      have hnew := pendingBoundaries_bounds r.grouping r.blocks
      rw [htaken, if_pos rfl] at ih
      omega
    | false =>
      have hlt : pendingBoundaries r.grouping r.blocks < pendingBoundaries g blocks := by
        rcases hr ▸ ofToken_advances source g blocks t with h | h
        · exact absurd (htaken.symm.trans h) Bool.false_ne_true
        · exact h
      rw [htaken, if_neg Bool.false_ne_true, List.length_cons] at ih
      omega

end Grouped

section
variable {source : String} {l : Lexer} {b : Backlog} {g : Grouper} {token : Cell Token}
  {pieces : List (List Char)} {final : Bool}

theorem groupPieces_ahead {fuel : Nat} (out : Array Phrase) (hl : l.source = some source)
    (hg : g.source = some source) (hfinal : final = true → pieces = [])
    (hfuel : (g.ahead (token.toList ++ l.ahead (b.rest ++ pieces.flatten))).length +
      (l.ahead (b.rest ++ pieces.flatten)).length + pieces.length + (if final then 0 else 1) ≤
        fuel) :
    groupPieces fuel l b g token pieces final out =
      .ok (out ++ (g.ahead (token.toList ++ l.ahead (b.rest ++ pieces.flatten))).toArray) := by
  -- each round hands on a phrase or a token, takes a piece, or learns that the text is complete
  induction fuel generalizing l b g token pieces final out with
  | zero =>
    have hnil : g.ahead (token.toList ++ l.ahead (b.rest ++ pieces.flatten)) = [] :=
      List.length_eq_zero_iff.1 (by omega)
    rw [hnil, groupPieces]
    simp
  | succ fuel ih =>
    obtain ⟨progress, g₁, token₁, hok, hparsed⟩ := Grouper.parse_parsed token hg
    have hahead := hparsed.ahead_eq hg (l.ahead (b.rest ++ pieces.flatten))
    have hg₁ : g₁.source = some source := hparsed.source_eq.trans hg
    simp only [groupPieces, hok, bind, Except.bind]
    cases progress with
    | outputAvailable =>
      obtain ⟨p, hp, hr⟩ := hparsed.exists_read
      rw [← hahead, Grouper.ahead_eq_append, hp] at hfuel ⊢
      simp only [Option.toList_some, List.singleton_append, List.length_cons] at hfuel ⊢
      rw [hr]
      dsimp only
      refine (ih (g := g₁.emptied) (out.push p) hl hg₁ hfinal (by omega)).trans ?_
      simp
    | eof =>
      cases hparsed with
      | ended hp he =>
        rw [Grouper.ahead, hp, he, Grouped.phrasesFrom_afterEof]
        simp [pure, Except.pure]
    | resourceNeeded => cases hparsed
    | inputNeeded =>
      cases hparsed with
      | starved hp he ht =>
        subst ht
        obtain ⟨progress, l₁, b₁, hlex, hlexed⟩ := Lexer.parse_parsed b final hl
        have hlexer : l₁.ahead (b₁.rest ++ pieces.flatten) = l.ahead (b.rest ++ pieces.flatten) :=
          hlexed.ahead_eq hl fun h => by rw [hfinal h]; rfl
        have hl₁ : l₁.source = some source := hlexed.source_eq.trans hl
        rw [hlex]
        dsimp only
        rw [Option.toList_none, List.nil_append, ← hlexer] at hfuel ⊢
        by_cases hprogress : progress = .outputAvailable
        · subst hprogress
          obtain ⟨t, hr⟩ := hlexed.exists_read
          have hcons := Lexer.ahead_read (b₁.rest ++ pieces.flatten) hr
          rw [hcons] at hfuel ⊢
          rw [List.length_cons] at hfuel
          dsimp only
          rw [hr]
          refine (ih (l := l₁.emptied) (b := b₁) out hl₁ hg hfinal ?_).trans rfl
          simp only [Option.toList_some, List.singleton_append]
          omega
        · cases hlexed with
          | ended hp' he' =>
            rw [Lexer.ahead_ended _ hp' he', Grouper.ahead, hp, Grouped.phrasesFrom_nil]
            simp [pure, Except.pure]
          | starved hp' he' hf =>
            subst hf
            cases pieces with
            | cons piece pieces =>
              have hrest : (b.push piece).rest ++ pieces.flatten =
                  b.rest ++ (piece :: pieces).flatten := by
                rw [Backlog.rest_push, List.flatten_cons, List.append_assoc]
              rw [← hrest] at hfuel ⊢
              rw [List.length_cons] at hfuel
              exact ih (b := b.push piece) out hl hg
                (fun h => absurd h Bool.false_ne_true)
                (by simp only [Option.toList_none, List.nil_append]; omega)
            | nil =>
              simp only [Bool.false_eq_true, if_false] at hfuel ⊢
              exact ih (b := b) out hl hg (fun _ => rfl)
                (by simp only [Option.toList_none, List.nil_append, if_true]; omega)
          | pending => exact absurd rfl hprogress
          | last => exact absurd rfl hprogress
          | token => exact absurd rfl hprogress

end

theorem phrases_eq_phrasesOf (source text : String) (settings : Settings) :
    phrases source text settings = tokens source text settings >>= phrasesOf source := by
  let l : Lexer := { Lexer.new settings with source := some source, position := .start }
  let g : Grouper := { Grouper.new with source := some source }
  let pieces := Text.pieces settings.chunkSize text.toList
  have hends : EndsOnce Token.isEof (l.ahead text.toList) :=
    (Lexer.ahead_tiles text.toList rfl rfl rfl).2
  obtain ⟨out, hout⟩ := Grouped.exists_course source .statementSequence [] _ hends
  have hpieces : Backlog.empty.rest ++ pieces.flatten = text.toList :=
    Text.pieces_flatten settings.chunkSize text.toList
  have hcount : pieces.length ≤ text.toList.length :=
    Text.pieces_length_le settings.chunkSize text.toList
  have htokens := l.ahead_length_le_of_pending text.toList rfl rfl
  have hphrases : (g.ahead (l.ahead text.toList)).length ≤ 4 * (l.ahead text.toList).length := by
    change (Grouped.phrasesFrom source .statementSequence [] _).length ≤ _
    rw [hout.phrases_eq, List.length_map]
    exact hout.length_le
  have hall : groupPieces (8 * text.toList.length + 16) l .empty g none pieces false #[] = .ok _ :=
    groupPieces_ahead #[] rfl rfl nofun (by
      rw [hpieces, Option.toList_none, List.nil_append, if_neg Bool.false_ne_true]
      omega)
  rw [hpieces, Option.toList_none, List.nil_append] at hall
  rw [tokens_eq_ahead]
  change (groupPieces _ l .empty g none pieces false #[] >>= fun out => pure out.toList) =
    phrasesOf source (l.ahead text.toList)
  rw [hall, phrasesOf_eq]
  simp [pure, Except.pure, bind, Except.bind, Grouper.ahead, g, Grouper.new]

end TermStream
