import TermStream.Proofs.Token.Settled

namespace TermStream

namespace Scan

/-- A starved scan has read all of the text, and reads on when there is more. -/
def ReadsOn (f : List Char → Scan) : Prop :=
  ∀ cs more, (f cs).starved = true → (f cs).rest = [] ∧ (f (cs ++ more)).rest <:+ more

theorem dropWhile_append_of_nil {p : Char → Bool} {cs : List Char} (more : List Char)
    (h : cs.dropWhile p = []) : (cs ++ more).dropWhile p <:+ more := by
  rw [List.dropWhile_append, h]
  exact List.dropWhile_suffix p

theorem readsOn_run (p : Char → Bool) : ReadsOn (run p) := by
  intro cs more h
  have hd : cs.dropWhile p = [] := List.isEmpty_iff.1 h
  exact ⟨hd, dropWhile_append_of_nil more hd⟩

end Scan

open Text Scan

namespace Quotation

theorem readsOn_hexDigits (n : Nat) : ReadsOn (hexDigits n) := by
  intro cs more h
  fun_induction hexDigits n cs with
  | case1 cs => cases h
  | case2 n => exact ⟨rfl, hexDigits_rest_suffix _ more⟩
  | case3 n c cs hc ih => simpa [hexDigits, hc] using ih h
  | case4 n c cs hc => cases h

theorem length_le_codePointDigits {cs : List Char} (more : List Char)
    (h : cs.drop ((cs.take 6).takeWhile isHexDigit).length = []) :
    cs.length ≤ (((cs ++ more).take 6).takeWhile isHexDigit).length := by
  have hle : cs.length ≤ ((cs.take 6).takeWhile isHexDigit).length := by simpa using h
  have hall : ((cs.take 6).takeWhile isHexDigit).length = (cs.take 6).length := by
    have hp := (List.takeWhile_prefix isHexDigit (l := cs.take 6)).length_le
    have ht : (cs.take 6).length ≤ cs.length := by
      rw [List.length_take]
      exact Nat.min_le_right _ _
    omega
  rw [List.take_append, List.takeWhile_append, if_pos hall, List.length_append, ← hall]
  omega

theorem codePoint_rest_suffix_digits (cs : List Char) :
    (codePoint ('\x7b' :: cs)).rest <:+ cs.drop ((cs.take 6).takeWhile isHexDigit).length := by
  simp only [codePoint]
  split
  · next after _ he =>
    rw [he]
    exact List.suffix_cons _ after
  · exact List.suffix_refl _

theorem readsOn_codePoint : ReadsOn codePoint := by
  intro cs more h
  cases cs with
  | nil => exact ⟨rfl, codePoint_rest_suffix more⟩
  | cons b cs =>
    by_cases hb : b = '\x7b'
    · subst hb
      have hr : cs.drop ((cs.take 6).takeWhile isHexDigit).length = [] := by
        simp only [codePoint] at h
        split at h
        · cases h
        · exact List.isEmpty_iff.1 h
      refine ⟨List.suffix_nil.1 (hr ▸ codePoint_rest_suffix_digits cs), ?_⟩
      refine (codePoint_rest_suffix_digits (cs ++ more)).trans ?_
      rw [List.drop_append, List.drop_eq_nil_of_le (length_le_codePointDigits more hr)]
      exact List.drop_suffix _ more
    · simp [codePoint, hb, looked, found] at h

theorem readsOn_escape : ReadsOn escape := by
  intro cs more h
  cases cs with
  | nil => exact ⟨rfl, escape_rest_suffix more⟩
  | cons c cs =>
    simp only [List.cons_append, escape] at h ⊢
    split
    · next hp =>
      rw [if_pos hp] at h
      cases h
    · next hp =>
      rw [if_neg hp] at h
      split
      · next hx =>
        rw [if_pos hx] at h
        exact readsOn_hexDigits 2 cs more h
      · next hx =>
        rw [if_neg hx] at h
        split
        · next hu =>
          rw [if_pos hu] at h
          exact readsOn_codePoint cs more h
        · next hu =>
          rw [if_neg hu] at h
          split at h <;> cases h

theorem readsOn_body (quote : Char) (triple : Bool) : ReadsOn (body quote triple) := by
  intro cs more h
  fun_induction body quote triple cs with
  | case1 => exact ⟨rfl, body_rest_suffix quote triple more⟩
  | case2 c cs hb => cases h
  | case3 cs _ e b hl ih =>
    rw [List.cons_append, body_backslash]
    change (e.starved || b.starved) = true at h
    cases he : e.starved with
    | true =>
      obtain ⟨hrest, hmore⟩ := readsOn_escape cs more he
      have hb : b.rest <:+ e.rest := body_rest_suffix quote triple e.rest
      rw [show e.rest = [] from hrest] at hb
      exact ⟨List.suffix_nil.1 hb, (body_rest_suffix quote triple _).trans hmore⟩
    | false =>
      rw [he] at h
      rw [settles_escape cs more he]
      exact ih h
  | case4 cs ht hl hq => cases h
  | case5 cs ht hm hl hq => cases h
  | case6 cs ht hm hl hq ih =>
    obtain ⟨hrest, hmore⟩ := ih h
    refine ⟨hrest, ?_⟩
    rw [List.cons_append, body, if_neg hl, if_neg hq, if_pos rfl, if_neg ht]
    split
    · next hm' =>
      -- the added text has brought what was missing of the closing quotes
      have hlt : cs.length < 2 := by
        rcases Nat.lt_or_ge cs.length 2 with hlt | hge
        · exact hlt
        · exact absurd ((twoMore_append more hge).symm.trans hm') hm
      change (cs ++ more).drop 2 <:+ more
      rw [List.drop_append, List.drop_eq_nil_of_le (Nat.le_of_lt hlt)]
      exact List.drop_suffix _ more
    · exact hmore
  | case7 c cs hl hb hq ih =>
    rw [List.cons_append, body, if_neg hl, if_neg hb, if_neg hq]
    exact ih h

theorem readsOn_literal {quote : Char} (hq : quote = '"' ∨ quote = '\'') :
    ReadsOn fun cs => (literal quote cs).scan := by
  intro cs more h
  dsimp only at h ⊢
  unfold literal at h ⊢
  split at h
  · next hm =>
    have h2 : 2 ≤ cs.length := by
      match cs, hm with
      | _ :: _ :: _, _ => exact Nat.le_add_left _ _
    rw [if_pos hm, twoMore_append more h2, if_pos hm, List.drop_append_of_le_length h2]
    exact readsOn_body quote true (cs.drop 2) more h
  · next hm =>
    rw [if_neg hm]
    match cs with
    | [] => exact ⟨by simp [body, looked, found], literal_rest_suffix quote more⟩
    | [c] =>
      by_cases hc : c = quote
      · -- an empty literal, unless another quote follows
        subst hc
        have hclose (ds : List Char) : (body c false (c :: ds)).rest = ds := by
          rw [body]
          rcases hq with rfl | rfl <;> rfl
        refine ⟨hclose [], ?_⟩
        rw [List.singleton_append]
        split
        · next hm' =>
          refine (body_rest_suffix c true _).trans ?_
          exact List.drop_suffix 1 more
        · exact (hclose more).symm ▸ List.suffix_refl _
      · have hm' : ¬twoMore quote ([c] ++ more) = true := by
          cases more with
          | nil => exact hm
          | cons d more => simp [twoMore, hc]
        rw [if_neg hm']
        refine readsOn_body quote false [c] more ?_
        simpa [hc] using h
    | c :: d :: cs =>
      have h2 : 2 ≤ (c :: d :: cs).length := Nat.le_add_left 2 cs.length
      rw [twoMore_append more h2, if_neg hm]
      refine readsOn_body quote false (c :: d :: cs) more ?_
      simpa using h

end Quotation

namespace Number

theorem readsOn_radixPart (base : List Char) : ReadsOn (radixPart base) := by
  intro cs more h
  have hd : cs.dropWhile isRadixPart = [] := by
    unfold radixPart at h
    dsimp only at h
    split at h
    · cases h
    · exact List.isEmpty_iff.1 h
  have hsuffix (ds : List Char) : (radixPart base ds).rest <:+ ds.dropWhile isRadixPart := by
    unfold radixPart
    split
    · next rest he => exact he ▸ List.suffix_cons '#' rest
    · exact List.suffix_refl _
  refine ⟨List.suffix_nil.1 (hd ▸ hsuffix cs), ?_⟩
  exact (hsuffix (cs ++ more)).trans (dropWhile_append_of_nil more hd)

theorem fraction_readsOn {cs : List Char} (more : List Char)
    (h : (fraction cs).2.starved = true) :
    cs = ['.'] ∨ ((fraction cs).2.rest = [] ∧ (fraction (cs ++ more)).2.rest <:+ more) := by
  unfold fraction at h
  split at h
  · exact .inl rfl
  · next c cs =>
    right
    simp only [List.cons_append, fraction]
    split at h
    · next hc =>
      simp only [hc, if_true]
      exact readsOn_run isDecimalPart (c :: cs) more h
    · cases h
  · obtain rfl := List.isEmpty_iff.1 h
    exact .inr ⟨rfl, fraction_rest_suffix more⟩

/-- The letters that may start an exponent may start a suffix too. -/
def IsExponentSign (e : Char) : Prop := e = 'e' ∨ e = 'E'

theorem IsExponentSign.isIdentifierStart {e : Char} (h : IsExponentSign e) :
    isIdentifierStart e = true ∧ isIdentifierPart e = true := by
  rcases h with rfl | rfl <;> decide

theorem exponent_readsOn {cs : List Char} (more : List Char)
    (h : (exponent cs).2.starved = true) :
    (∃ e, IsExponentSign e ∧ cs = [e] ∧ (exponent cs).2.rest = [e]) ∨
      ((exponent cs).2.rest = [] ∧ (exponent (cs ++ more)).2.rest <:+ more) := by
  cases cs with
  | nil => exact .inr ⟨rfl, exponent_rest_suffix more⟩
  | cons e cs =>
    simp only [List.cons_append, exponent] at h ⊢
    by_cases he : e = 'e' ∨ e = 'E'
    · simp only [he, if_true] at h ⊢
      cases cs with
      | nil => exact .inl ⟨e, he, rfl, rfl⟩
      | cons c rest =>
        right
        simp only [List.cons_append] at h ⊢
        by_cases hc : isDigit c
        · simp only [hc, if_true] at h ⊢
          exact readsOn_run isDecimalPart (c :: rest) more h
        · by_cases hs : c = '+' ∨ c = '-'
          · simp only [hc, hs, if_true] at h ⊢
            cases rest with
            | nil =>
              refine ⟨rfl, ?_⟩
              cases more with
              | nil => exact List.suffix_refl _
              | cons d more =>
                by_cases hd : isDigit d
                · simp only [List.nil_append, hd, if_true]
                  exact run_rest_suffix isDecimalPart _
                · simp only [List.nil_append, hd]
                  exact List.suffix_refl _
            | cons d rest =>
              by_cases hd : isDigit d
              · simp only [hd, if_true, List.cons_append] at h ⊢
                exact readsOn_run isDecimalPart (d :: rest) more h
              · simp [hd, stopped, found] at h
          · simp [hc, hs, stopped] at h
    · simp [he, stopped] at h

theorem suffixed_rest {kind : TokenKind} {s : Scan} {c : Char} {cs : List Char}
    (hr : s.rest = c :: cs) (hc : isIdentifierStart c = true) :
    (suffixed kind s).scan.rest = (c :: cs).dropWhile isIdentifierPart := by
  simp only [suffixed, hr, hc, if_true]
  simp [andThen, run, hr]

theorem suffixed_readsOn {kind kind' : TokenKind} {s s' : Scan} {more : List Char}
    (hr : s'.rest = s.rest ++ more) (hs : s.starved = false)
    (h : (suffixed kind s).scan.starved = true) :
    (suffixed kind s).scan.rest = [] ∧ (suffixed kind' s').scan.rest <:+ more := by
  cases hc : s.rest with
  | nil =>
    rw [hc, List.nil_append] at hr
    refine ⟨List.suffix_nil.1 (hc ▸ suffixed_rest_suffix kind s), ?_⟩
    exact hr ▸ suffixed_rest_suffix kind' s'
  | cons c cs =>
    by_cases hi : isIdentifierStart c = true
    · have hd : (c :: cs).dropWhile isIdentifierPart = [] := by
        simpa [suffixed, hc, hi, andThen, run, looked, hs] using h
      refine ⟨(suffixed_rest hc hi).trans hd, ?_⟩
      rw [hc, List.cons_append] at hr
      rw [suffixed_rest hr hi, ← List.cons_append]
      exact dropWhile_append_of_nil more hd
    · simp [suffixed, hc, hi, hs] at h

theorem decimal_rest {ds cs : List Char} {e : Char}
    (hr : (exponent (fraction ds).2.rest).2.rest = e :: cs) (he : isIdentifierStart e = true) :
    (decimal ds).scan.rest = (e :: cs).dropWhile isIdentifierPart :=
  suffixed_rest (s := ⟨(exponent (fraction ds).2.rest).2.rest, _, _⟩) hr he

theorem decimal_readsOn {cs : List Char} (more : List Char)
    (h : (decimal cs).scan.starved = true) :
    cs = ['.'] ∨ ((decimal cs).scan.rest = [] ∧ (decimal (cs ++ more)).scan.rest <:+ more) := by
  have hrest (ds : List Char) : (decimal ds).scan.rest <:+ (exponent (fraction ds).2.rest).2.rest :=
    suffixed_rest_suffix _ _
  cases hf : (fraction cs).2.starved with
  | true =>
    refine (fraction_readsOn more hf).imp_right fun ⟨hnil, hmore⟩ => ⟨?_, ?_⟩
    · have hd := (hrest cs).trans (exponent_rest_suffix _)
      exact List.suffix_nil.1 (hnil ▸ hd)
    · exact ((hrest _).trans (exponent_rest_suffix _)).trans hmore
  | false =>
    right
    have hfmore := fraction_settled more hf
    cases he : (exponent (fraction cs).2.rest).2.starved with
    | true =>
      rcases exponent_readsOn more he with ⟨e, hsign, hcs, hrest'⟩ | ⟨hnil, hmore⟩
      · -- the letter is the suffix of the number, or becomes a part of its exponent
        obtain ⟨hstart, hpart⟩ := hsign.isIdentifierStart
        refine ⟨?_, ?_⟩
        · rw [decimal_rest hrest' hstart, List.dropWhile_cons, if_pos hpart]
          rfl
        · have hfm : (fraction (cs ++ more)).2.rest = e :: more := by
            rw [hfmore]
            change (fraction cs).2.rest ++ more = e :: more
            rw [hcs]
            rfl
          have hsuffix : (exponent (fraction (cs ++ more)).2.rest).2.rest <:+ e :: more :=
            hfm ▸ exponent_rest_suffix _
          rcases List.suffix_cons_iff.1 hsuffix with hsame | hmore
          · rw [decimal_rest hsame hstart, List.dropWhile_cons, if_pos hpart]
            exact List.dropWhile_suffix _
          · exact (hrest (cs ++ more)).trans hmore
      · refine ⟨List.suffix_nil.1 (hnil ▸ hrest cs), ?_⟩
        refine (hrest (cs ++ more)).trans ?_
        rw [hfmore]
        exact hmore
    | false =>
      refine suffixed_readsOn ?_ (Bool.or_eq_false_iff.2 ⟨hf, he⟩) h
      change (exponent (fraction (cs ++ more)).2.rest).2.rest =
        (exponent (fraction cs).2.rest).2.rest ++ more
      rw [hfmore]
      change (exponent ((fraction cs).2.rest ++ more)).2.rest = _
      rw [exponent_settled more he]
      rfl

theorem literal_rest_suffix_digits (first : Char) (cs : List Char) :
    (literal first cs).scan.rest <:+ cs.dropWhile isDecimalPart := by
  unfold literal
  split
  · next rest he =>
    rw [he]
    refine (suffixed_rest_suffix _ _).trans ((radixPart_rest_suffix _ rest).trans ?_)
    exact List.suffix_cons '#' rest
  · exact (suffixed_rest_suffix _ _).trans
      ((exponent_rest_suffix _).trans (fraction_rest_suffix _))

theorem literal_readsOn {first : Char} {cs : List Char} (more : List Char)
    (h : (literal first cs).scan.starved = true) :
    cs.dropWhile isDecimalPart = ['.'] ∨
      ((literal first cs).scan.rest = [] ∧ (literal first (cs ++ more)).scan.rest <:+ more) := by
  by_cases hd : cs.dropWhile isDecimalPart = []
  · right
    refine ⟨List.suffix_nil.1 (hd ▸ literal_rest_suffix_digits first cs), ?_⟩
    exact (literal_rest_suffix_digits first _).trans (dropWhile_append_of_nil more hd)
  have hda := dropWhile_settled more hd
  by_cases hr : ∃ rest, cs.dropWhile isDecimalPart = '#' :: rest
  · right
    obtain ⟨rest, hr⟩ := hr
    rw [hr, List.cons_append] at hda
    rw [literal_eq_radix hr] at h ⊢
    rw [literal_eq_radix hda, takeWhile_settled more hd]
    cases hs :
        (radixPart ((first :: cs.takeWhile isDecimalPart).filter (· != '_')) rest).starved with
    | true =>
      obtain ⟨hnil, hmore⟩ := readsOn_radixPart _ rest more hs
      refine ⟨List.suffix_nil.1 (hnil ▸ suffixed_rest_suffix _ _), ?_⟩
      exact (suffixed_rest_suffix _ _).trans hmore
    | false =>
      refine suffixed_readsOn ?_ hs h
      rw [settles_radixPart _ rest more hs, extend_rest]
  · have hn : ∀ rest, cs.dropWhile isDecimalPart ≠ '#' :: rest := fun rest he => hr ⟨rest, he⟩
    have hna : ∀ rest, (cs ++ more).dropWhile isDecimalPart ≠ '#' :: rest := by
      intro rest he
      rw [hda] at he
      cases hc : cs.dropWhile isDecimalPart with
      | nil => exact hd hc
      | cons c cs' =>
        rw [hc, List.cons_append, List.cons.injEq] at he
        exact hn cs' (by rw [hc, he.1])
    rw [literal_eq_decimal hn] at h ⊢
    rw [literal_eq_decimal hna, hda]
    exact decimal_readsOn more h

end Number

namespace Lexeme

theorem readsOn_blockComment : ReadsOn blockComment := by
  intro cs more h
  fun_induction blockComment cs with
  | case1 => exact ⟨rfl, blockComment_rest_suffix more⟩
  | case2 cs => cases h
  | case3 c cs hc ih =>
    obtain ⟨hnil, hmore⟩ := ih h
    refine ⟨hnil, ?_⟩
    rw [List.cons_append]
    by_cases ho : ∃ ds, c = '*' ∧ cs ++ more = '/' :: ds
    · -- the added text closes the comment
      obtain ⟨ds, rfl, hds⟩ := ho
      rw [hds]
      change ds <:+ more
      cases cs with
      | nil => exact (show more = '/' :: ds from hds) ▸ List.suffix_cons '/' ds
      | cons d cs => exact absurd (by rw [(List.cons.inj hds).1]) (hc cs rfl)
    · rw [blockComment]
      · exact hmore
      · exact fun ds h₁ h₂ => ho ⟨ds, h₁, h₂⟩

theorem graphics_readsOn {cs : List Char} (more : List Char) (h : (graphics cs).starved = true) :
    (graphics cs).rest = [] ∧ ((graphics (cs ++ more)).rest <:+ more ∨
      (graphics (cs ++ more)).rest = '/' :: more ∧ opensComment ('/' :: more) = true) := by
  fun_induction graphics cs with
  | case1 => exact ⟨rfl, .inl (graphics_rest_suffix more)⟩
  | case2 c cs hc ih =>
    obtain ⟨hnil, hmore⟩ := ih h
    refine ⟨hnil, ?_⟩
    obtain ⟨hg, -⟩ := Bool.and_eq_true_iff.1 hc
    rw [List.cons_append, graphics]
    split
    · exact hmore
    · next hn =>
      have ho : opensComment (c :: (cs ++ more)) = true := by simpa [hg] using hn
      cases cs with
      | nil =>
        obtain rfl : c = '/' := by
          rw [List.nil_append] at ho
          unfold opensComment at ho
          split at ho
          · next he => exact (List.cons.inj he).1
          · next he => exact (List.cons.inj he).1
          · cases ho
        exact .inr ⟨rfl, ho⟩
      | cons d cs =>
        rw [opensComment_append more (List.cons_ne_nil d cs)] at ho
        simp [ho] at hc
  | case3 c cs hc => cases h

theorem readsOn_word (first : Char) : ReadsOn fun cs => (word first cs).scan := by
  intro cs more h
  have hsuffix (ds : List Char) : (word first ds).scan.rest <:+ ds.dropWhile isIdentifierPart := by
    unfold word
    split
    · next q rest he =>
      rw [he]
      split
      · exact (Quotation.literal_rest_suffix q rest).trans (List.suffix_cons q rest)
      · exact List.suffix_refl _
    · exact List.nil_suffix
  by_cases hd : cs.dropWhile isIdentifierPart = []
  · refine ⟨List.suffix_nil.1 (hd ▸ hsuffix cs), ?_⟩
    exact (hsuffix _).trans (dropWhile_append_of_nil more hd)
  · dsimp only at h ⊢
    unfold word at h ⊢
    rw [dropWhile_settled more hd, takeWhile_settled more hd]
    cases hr : cs.dropWhile isIdentifierPart with
    | nil => exact absurd hr hd
    | cons q rest =>
      simp only [hr, List.cons_append] at h ⊢
      by_cases hq : q = '"' ∨ q = '\''
      · simp only [hq, if_true] at h ⊢
        exact Quotation.readsOn_literal hq rest more h
      · simp [hq, ofScan, stopped] at h

/-- A point behind the digits of a number is the last character. -/
def EndsAtPoint (first : Char) (cs : List Char) : Prop :=
  isDigit first = true ∧ cs.dropWhile Number.isDecimalPart = ['.']

/-- Operators stop in front of a slash, as `more` makes it open a comment. -/
def StopsAtSlash (first : Char) (more : List Char) (l : Lexeme) : Prop :=
  isGraphic first = true ∧ l.key = .simple .graphics ∧ l.scan.rest = '/' :: more ∧
    opensComment ('/' :: more) = true

theorem ordinary_readsOn {atStart : Bool} {first : Char} {cs : List Char} (more : List Char)
    (hn : cs ≠ []) (h : (ordinary atStart first cs).scan.starved = true) :
    EndsAtPoint first cs ∨ ((ordinary atStart first cs).scan.rest = [] ∧
      ((ordinary atStart first (cs ++ more)).scan.rest <:+ more ∨
        StopsAtSlash first more (ordinary atStart first (cs ++ more)))) := by
  unfold ordinary at h ⊢
  rw [opensScript_append more fun _ => hn]
  split
  · next hb =>
    rw [if_pos hb] at h
    cases h
  · next hb =>
    rw [if_neg hb] at h
    split
    · next hq =>
      rw [if_pos hq] at h
      exact .inr ((Quotation.readsOn_literal hq cs more h).imp_right .inl)
    · next hq =>
      rw [if_neg hq] at h
      split
      · next hs =>
        rw [if_pos hs] at h
        exact .inr ((readsOn_run _ cs more h).imp_right .inl)
      · next hs =>
        rw [if_neg hs] at h
        split
        · next hg =>
          rw [if_pos hg] at h
          right
          refine (graphics_readsOn more h).imp_right fun hor => hor.imp_right ?_
          exact fun ⟨hrest, ho⟩ => ⟨hg, rfl, hrest, ho⟩
        · next hg =>
          rw [if_neg hg] at h
          split
          · next hd =>
            rw [if_pos hd] at h
            exact (Number.literal_readsOn more h).imp (fun hpoint => ⟨hd, hpoint⟩)
              (And.imp_right .inl)
          · next hd =>
            rw [if_neg hd] at h
            split
            · next hi =>
              rw [if_pos hi] at h
              exact .inr ((readsOn_word first cs more h).imp_right .inl)
            · next hi =>
              rw [if_neg hi] at h
              split
              · next hw =>
                rw [if_pos hw] at h
                exact .inr ((readsOn_run _ cs more h).imp_right .inl)
              · next hw =>
                rw [if_neg hw] at h
                cases h

/-- A token whose scan is starved takes all of the text, and at least as much when text is added.
The exceptions are a number in front of a point, and operators in front of a slash. -/
theorem recognize_readsOn {atStart docComments : Bool} {first : Char} {cs : List Char}
    (more : List Char) (h : (recognize atStart docComments first cs).scan.starved = true) :
    EndsAtPoint first cs ∨ ((recognize atStart docComments first cs).scan.rest = [] ∧
      ((recognize atStart docComments first (cs ++ more)).scan.rest <:+ more ∨
        StopsAtSlash first more (recognize atStart docComments first (cs ++ more)))) := by
  by_cases hn : cs = []
  · subst hn
    exact .inr ⟨List.suffix_nil.1 (recognize_rest_suffix _ _ _ []),
      .inl (recognize_rest_suffix _ _ _ more)⟩
  by_cases hf : first ∈ ['\n', '\r', ',', ';', '\x7b', '\x7d']
  · -- these look at the next character at most, and there is one
    simp only [List.mem_cons, List.not_mem_nil, or_false] at hf
    obtain ⟨c, cs, rfl⟩ := List.exists_cons_of_ne_nil hn
    rcases hf with rfl | rfl | rfl | rfl | rfl | rfl
    · cases h
    · by_cases hc : c = '\n'
      · subst hc
        cases h
      · simp [recognize, hc, ofScan, looked] at h
    · cases h
    · cases h
    · cases h
    · cases h
  obtain ⟨c, cs, rfl⟩ := List.exists_cons_of_ne_nil hn
  by_cases hl : first = '/' ∧ c = '/'
  · obtain ⟨rfl, rfl⟩ := hl
    exact .inr ((readsOn_run _ cs more h).imp_right .inl)
  by_cases hb : first = '/' ∧ c = '*'
  · obtain ⟨rfl, rfl⟩ := hb
    exact .inr ((readsOn_blockComment cs more h).imp_right .inl)
  have hslash (ds : List Char) (hs : first = '/') (rest : List Char) :
      c :: ds ≠ '/' :: rest ∧ c :: ds ≠ '*' :: rest := by
    constructor <;> intro he <;> rw [List.cons.injEq] at he
    · exact hl ⟨hs, he.1⟩
    · exact hb ⟨hs, he.1⟩
  rw [recognize_eq_ordinary _ _ hf (hslash cs)] at h ⊢
  rw [List.cons_append, recognize_eq_ordinary _ _ hf (hslash (cs ++ more))]
  exact ordinary_readsOn more hn h

end Lexeme

end TermStream
