import TermStream.Token.Lexeme

namespace TermStream

open Text Scan

theorem Scan.run_rest_suffix (p : Char → Bool) (cs : List Char) : (run p cs).rest <:+ cs :=
  List.dropWhile_suffix p

theorem Scan.head?_dropWhile (p : Char → Bool) (cs : List Char) :
    ∀ c ∈ (cs.dropWhile p).head?, p c = false := by
  intro c hc
  have hn := List.head?_dropWhile_not p cs
  rwa [hc] at hn

/-- The longest part of a text, from its start on, that is in a language. -/
structure IsLongest (language : List Char → Prop) (part text : List Char) : Prop where
  isPart : part <+: text
  accepted : language part
  longest : ∀ other, other <+: text → language other → other.length ≤ part.length

theorem IsLongest.unique {language : List Char → Prop} {part part' text : List Char}
    (h : IsLongest language part text) (h' : IsLongest language part' text) : part = part' := by
  have hle := h.longest part' h'.isPart h'.accepted
  have hge := h'.longest part h.isPart h.accepted
  exact (List.prefix_of_prefix_length_le h.isPart h'.isPart hge).eq_of_length_le hle

/-- Characters of a class that stand in front of a text are no more than those that stand in front
of a character that is not in the class. -/
theorem Scan.length_le_of_stops {p : Char → Bool} {part front rest : List Char}
    (hp : part <+: front ++ rest) (ha : ∀ c ∈ part, p c = true)
    (hs : ∀ c ∈ rest.head?, p c = false) : part.length ≤ front.length := by
  apply Nat.le_of_not_lt
  intro hlt
  have hfront : front <+: part :=
    List.prefix_of_prefix_length_le (List.prefix_append front rest) hp (Nat.le_of_lt hlt)
  obtain ⟨more, rfl⟩ := hfront
  have hmore : more <+: rest := (List.prefix_append_right_inj front).1 hp
  cases more with
  | nil => simp at hlt
  | cons c more =>
    obtain ⟨after, rfl⟩ := hmore
    have hc := ha c (by simp)
    rw [hs c rfl] at hc
    cases hc

/-- What a run takes of a text of which it leaves `rest`. -/
structure Scan.IsRun (p : Char → Bool) (part rest : List Char) : Prop where
  all : ∀ c ∈ part, p c = true
  stops : ∀ c ∈ rest.head?, p c = false

namespace Scan.IsRun

variable {p : Char → Bool} {part part' rest rest' : List Char}

theorem of_takeWhile (p : Char → Bool) (cs : List Char) :
    IsRun p (cs.takeWhile p) (cs.dropWhile p) :=
  ⟨List.all_eq_true.1 List.all_takeWhile, head?_dropWhile p cs⟩

theorem takeWhile_eq (h : IsRun p part rest) : (part ++ rest).takeWhile p = part := by
  have hrest : rest.takeWhile p = [] := by
    cases rest with
    | nil => rfl
    | cons c rest => rw [List.takeWhile_cons_of_neg (by simp [h.stops c rfl])]
  rw [List.takeWhile_append_of_pos h.all, hrest, List.append_nil]

theorem dropWhile_eq (h : IsRun p part rest) : (part ++ rest).dropWhile p = rest := by
  have hsplit := List.takeWhile_append_dropWhile (p := p) (l := part ++ rest)
  rw [h.takeWhile_eq] at hsplit
  exact List.append_cancel_left hsplit

theorem unique (h : IsRun p part rest) (h' : IsRun p part' rest')
    (ht : part ++ rest = part' ++ rest') : part = part' ∧ rest = rest' := by
  obtain rfl : part = part' := by rw [← h.takeWhile_eq, ht, h'.takeWhile_eq]
  exact ⟨rfl, List.append_cancel_left ht⟩

theorem isLongest (h : IsRun p part rest) :
    IsLongest (fun cs => ∀ c ∈ cs, p c = true) part (part ++ rest) := by
  constructor
  · exact List.prefix_append part rest
  · exact h.all
  · intro other ho ha
    exact length_le_of_stops ho ha h.stops

end Scan.IsRun

namespace Quotation

theorem hexDigits_rest_suffix (n : Nat) (cs : List Char) : (hexDigits n cs).rest <:+ cs := by
  fun_induction hexDigits n cs with
  | case1 => exact List.suffix_refl _
  | case2 => exact List.suffix_refl _
  | case3 n c cs hc ih => exact ih.trans (List.suffix_cons c cs)
  | case4 => exact List.suffix_refl _

theorem codePoint_rest_suffix (cs : List Char) : (codePoint cs).rest <:+ cs := by
  unfold codePoint
  split
  · next cs =>
    have hd := List.drop_suffix ((cs.take 6).takeWhile isHexDigit).length cs
    have hb := List.suffix_cons '\x7b' cs
    dsimp only
    split
    · next c after _ he =>
      rw [he] at hd
      exact ((List.suffix_cons '\x7d' after).trans hd).trans hb
    · exact hd.trans hb
  · exact List.suffix_refl _

theorem escape_rest_suffix (cs : List Char) : (escape cs).rest <:+ cs := by
  cases cs with
  | nil => exact List.suffix_refl _
  | cons c cs =>
    have hc := List.suffix_cons c cs
    simp only [escape]
    split
    · exact hc
    · split
      · exact (hexDigits_rest_suffix 2 cs).trans hc
      · split
        · exact (codePoint_rest_suffix cs).trans hc
        · split
          · exact List.suffix_refl _
          · exact hc

theorem body_rest_suffix (quote : Char) (triple : Bool) (cs : List Char) :
    (body quote triple cs).rest <:+ cs := by
  fun_induction body quote triple cs with
  | case1 => exact List.suffix_refl _
  | case2 => exact List.suffix_refl _
  | case3 cs _ e _ _ ih =>
    exact (ih.trans (escape_rest_suffix cs)).trans (List.suffix_cons _ cs)
  | case4 cs => exact List.suffix_cons _ cs
  | case5 cs => exact (List.drop_suffix 2 cs).trans (List.suffix_cons _ cs)
  | case6 cs _ _ _ _ ih => exact ih.trans (List.suffix_cons _ cs)
  | case7 c cs _ _ _ ih => exact ih.trans (List.suffix_cons c cs)

theorem literal_rest_suffix (quote : Char) (cs : List Char) :
    (literal quote cs).scan.rest <:+ cs := by
  unfold literal
  split
  · exact (body_rest_suffix quote true _).trans (List.drop_suffix 2 cs)
  · exact body_rest_suffix quote false cs

end Quotation

namespace Number

theorem radixPart_rest_suffix (base cs : List Char) : (radixPart base cs).rest <:+ cs := by
  have hd := List.dropWhile_suffix (l := cs) isRadixPart
  unfold radixPart
  split
  · next rest he =>
    rw [he] at hd
    exact (List.suffix_cons '#' rest).trans hd
  · exact hd

theorem fraction_rest_suffix (cs : List Char) : (fraction cs).2.rest <:+ cs := by
  unfold fraction
  split
  · exact List.suffix_refl _
  · next c cs =>
    split
    · exact (run_rest_suffix isDecimalPart (c :: cs)).trans (List.suffix_cons '.' _)
    · exact List.suffix_refl _
  · exact List.suffix_refl _

theorem exponent_rest_suffix (cs : List Char) : (exponent cs).2.rest <:+ cs := by
  cases cs with
  | nil => exact List.suffix_refl _
  | cons e cs =>
    have he := List.suffix_cons e cs
    simp only [exponent]
    split
    · cases cs with
      | nil => exact List.suffix_refl _
      | cons c rest =>
        have hc := List.suffix_cons c rest
        dsimp only
        split
        · exact (run_rest_suffix isDecimalPart (c :: rest)).trans he
        · split
          · cases rest with
            | nil => exact hc.trans he
            | cons d rest =>
              dsimp only
              split
              · exact ((run_rest_suffix isDecimalPart (d :: rest)).trans hc).trans he
              · exact hc.trans he
          · exact List.suffix_refl _
    · exact List.suffix_refl _

theorem suffixed_rest_suffix (kind : TokenKind) (s : Scan) :
    (suffixed kind s).scan.rest <:+ s.rest := by
  unfold suffixed
  split
  · split
    · exact run_rest_suffix isIdentifierPart s.rest
    · exact List.suffix_refl _
  · exact List.suffix_refl _

theorem literal_rest_suffix (first : Char) (cs : List Char) :
    (literal first cs).scan.rest <:+ cs := by
  have hd := List.dropWhile_suffix (l := cs) isDecimalPart
  unfold literal
  split
  · next rest he =>
    rw [he] at hd
    refine (suffixed_rest_suffix _ _).trans ((radixPart_rest_suffix _ rest).trans ?_)
    exact (List.suffix_cons '#' rest).trans hd
  · refine (suffixed_rest_suffix _ _).trans ((exponent_rest_suffix _).trans ?_)
    exact (fraction_rest_suffix _).trans hd

end Number

namespace Lexeme

theorem blockComment_rest_suffix (cs : List Char) : (blockComment cs).rest <:+ cs := by
  fun_induction blockComment cs with
  | case1 => exact List.suffix_refl _
  | case2 cs => exact (List.suffix_cons '/' cs).trans (List.suffix_cons '*' _)
  | case3 c cs _ ih => exact ih.trans (List.suffix_cons c cs)

theorem graphics_rest_suffix (cs : List Char) : (graphics cs).rest <:+ cs := by
  fun_induction graphics cs with
  | case1 => exact List.suffix_refl _
  | case2 c cs _ ih => exact ih.trans (List.suffix_cons c cs)
  | case3 => exact List.suffix_refl _

theorem word_rest_suffix (first : Char) (cs : List Char) : (word first cs).scan.rest <:+ cs := by
  have hd := List.dropWhile_suffix (l := cs) isIdentifierPart
  unfold word
  split
  · next q rest he =>
    rw [he] at hd
    split
    · exact (Quotation.literal_rest_suffix q rest).trans ((List.suffix_cons q rest).trans hd)
    · exact hd
  · exact List.nil_suffix

theorem recognize_rest_suffix (atStart docComments : Bool) (first : Char) (cs : List Char) :
    (recognize atStart docComments first cs).scan.rest <:+ cs := by
  unfold recognize
  split
  · exact List.suffix_refl _
  · exact List.suffix_cons _ _
  · exact List.suffix_refl _
  · exact List.suffix_refl _
  · exact List.suffix_refl _
  · exact List.suffix_refl _
  · exact List.suffix_refl _
  · next rest => exact (run_rest_suffix _ rest).trans (List.suffix_cons '/' rest)
  · next rest => exact (blockComment_rest_suffix rest).trans (List.suffix_cons '*' rest)
  · split
    · exact List.suffix_refl _
    · split
      · exact Quotation.literal_rest_suffix first cs
      · split
        · exact run_rest_suffix _ cs
        · split
          · exact graphics_rest_suffix cs
          · split
            · exact Number.literal_rest_suffix first cs
            · split
              · exact word_rest_suffix first cs
              · split
                · exact run_rest_suffix _ cs
                · exact List.suffix_refl _

end Lexeme

end TermStream
