import TermStream.Proofs.Token.Suffix

namespace TermStream

namespace Scan
open Text

def extend (s : Scan) (more : List Char) : Scan := { s with rest := s.rest ++ more }

@[simp] theorem extend_rest (s : Scan) (more : List Char) : (s.extend more).rest = s.rest ++ more :=
  rfl

@[simp] theorem extend_starved (s : Scan) (more : List Char) :
    (s.extend more).starved = s.starved := rfl

@[simp] theorem extend_findings (s : Scan) (more : List Char) :
    (s.extend more).findings = s.findings := rfl

@[simp] theorem found_starved (s : Scan) (p : Problem) (args : List String) :
    (s.found p args).starved = s.starved := rfl

@[simp] theorem looked_starved (cs : List Char) : (looked cs).starved = cs.isEmpty := rfl

theorem looked_append {cs : List Char} (more : List Char) (h : cs ≠ []) :
    looked (cs ++ more) = (looked cs).extend more := by
  cases cs with
  | nil => exact absurd rfl h
  | cons c cs => rfl

/-- What a reader finds does not change when text is added behind, unless it was starved. -/
def Settles (f : List Char → Scan) : Prop :=
  ∀ cs more, (f cs).starved = false → f (cs ++ more) = (f cs).extend more

theorem dropWhile_settled {p : Char → Bool} {cs : List Char} (more : List Char)
    (h : cs.dropWhile p ≠ []) : (cs ++ more).dropWhile p = cs.dropWhile p ++ more := by
  rw [List.dropWhile_append, if_neg (by simpa using h)]

theorem takeWhile_settled {p : Char → Bool} {cs : List Char} (more : List Char)
    (h : cs.dropWhile p ≠ []) : (cs ++ more).takeWhile p = cs.takeWhile p := by
  rw [List.takeWhile_append, if_neg]
  intro hl
  have hs := congrArg List.length (List.takeWhile_append_dropWhile (p := p) (l := cs))
  rw [List.length_append, hl] at hs
  exact h (List.length_eq_zero_iff.1 (by omega))

theorem settles_run (p : Char → Bool) : Settles (run p) := by
  intro cs more h
  have hd : cs.dropWhile p ≠ [] := List.isEmpty_eq_false_iff.1 h
  simp only [run, dropWhile_settled more hd, looked_append more hd]

theorem andThen_settled {s : Scan} {f : List Char → Scan} (more : List Char) (hf : Settles f)
    (h : (s.andThen f).starved = false) :
    (s.extend more).andThen f = (s.andThen f).extend more := by
  have ht : (f s.rest).starved = false := (Bool.or_eq_false_iff.1 h).2
  simp only [andThen, extend_rest, hf s.rest more ht]
  rfl

end Scan

namespace Quotation
open Text Scan

theorem settles_hexDigits (n : Nat) : Settles (hexDigits n) := by
  intro cs more h
  fun_induction hexDigits n cs with
  | case1 cs => rfl
  | case2 n => cases h
  | case3 n c cs hc ih => simpa [hexDigits, hc] using ih h
  | case4 n c cs hc =>
    simp only [List.cons_append, hexDigits, hc]
    rfl

/-- At most six digits are read, so a digit behind the text is read only if no other character
ends them. -/
theorem codePointDigits_settled {cs : List Char} (more : List Char)
    (h : cs.drop ((cs.take 6).takeWhile isHexDigit).length ≠ []) :
    ((cs ++ more).take 6).takeWhile isHexDigit = (cs.take 6).takeWhile isHexDigit := by
  have hl : ((cs.take 6).takeWhile isHexDigit).length < cs.length := by simpa using h
  rw [List.take_append, List.takeWhile_append]
  split
  · next he =>
    have h6 : 6 - cs.length = 0 := by rw [List.length_take] at he; omega
    rw [h6, List.take_zero, List.takeWhile_nil, List.append_nil]
    exact ((List.takeWhile_prefix _).eq_of_length he).symm
  · rfl

theorem settles_codePoint : Settles codePoint := by
  intro cs more h
  cases cs with
  | nil => cases h
  | cons b cs =>
    by_cases hb : b = '\x7b'
    · subst hb
      have hr : cs.drop ((cs.take 6).takeWhile isHexDigit).length ≠ [] := by
        intro he
        simp [codePoint, he] at h
      have hd := codePointDigits_settled more hr
      have hs : (cs ++ more).drop ((cs.take 6).takeWhile isHexDigit).length =
          cs.drop ((cs.take 6).takeWhile isHexDigit).length ++ more := by
        rw [List.drop_append_of_le_length]
        exact Nat.le_of_lt (by simpa using hr)
      simp only [List.cons_append, codePoint, hd, hs]
      cases hc : cs.drop ((cs.take 6).takeWhile isHexDigit).length with
      | nil => exact absurd hc hr
      | cons c after =>
        cases (cs.take 6).takeWhile isHexDigit with
        | nil => rfl
        | cons d ds =>
          by_cases hc : c = '\x7d'
          · subst hc
            rfl
          · simp [hc, looked, found, extend]
    · simp [List.cons_append, codePoint, hb, looked, found, extend]

theorem settles_escape : Settles escape := by
  intro cs more h
  cases cs with
  | nil => cases h
  | cons c cs =>
    simp only [List.cons_append, escape] at h ⊢
    split
    · rfl
    · next hp =>
      rw [if_neg hp] at h
      split
      · next hx =>
        rw [if_pos hx] at h
        exact settles_hexDigits 2 cs more h
      · next hx =>
        rw [if_neg hx] at h
        split
        · next hu =>
          rw [if_pos hu] at h
          exact settles_codePoint cs more h
        · split <;> rfl

theorem twoMore_append {quote : Char} {cs : List Char} (more : List Char) (h : 2 ≤ cs.length) :
    twoMore quote (cs ++ more) = twoMore quote cs := by
  match cs, h with
  | _ :: _ :: _, _ => rfl

theorem body_backslash (quote : Char) (triple : Bool) (cs : List Char) :
    body quote triple ('\\' :: cs) = (escape cs).andThen (body quote triple) := by
  rw [body, if_neg (by simp [isLineBreak]), if_pos rfl]
  rfl

theorem body_triple_starved {quote : Char} {cs : List Char} (h : cs.length < 2) :
    (body quote true cs).starved = true := by
  match cs, h with
  | [], _ => simp [body]
  | [c], _ =>
    rw [body]
    by_cases hc : c = '\\'
    · simp [hc, escape]
    · by_cases hq : c = quote
      · subst hq
        simp [hc, twoMore, body]
      · simp [hc, hq, body]

theorem settles_body (quote : Char) (triple : Bool) : Settles (body quote triple) := by
  intro cs more h
  fun_induction body quote triple cs with
  | case1 => cases h
  | case2 c cs hb =>
    rw [List.cons_append, body, if_pos hb]
    rfl
  | case3 cs _ e b hl ih =>
    obtain ⟨he, hb⟩ := Bool.or_eq_false_iff.1 h
    rw [List.cons_append, body_backslash, settles_escape cs more he]
    simp only [Scan.andThen, extend_rest, e, ih hb]
    rfl
  | case4 cs ht hl hq =>
    rw [List.cons_append, body, if_neg hl, if_neg hq, if_pos rfl, if_pos ht]
    rfl
  | case5 cs ht hm hl hq =>
    have h2 : 2 ≤ cs.length := by
      match cs, hm with
      | _ :: _ :: _, _ => exact Nat.le_add_left _ _
    rw [List.cons_append, body, if_neg hl, if_neg hq, if_pos rfl, if_neg ht,
      twoMore_append more h2, if_pos hm, List.drop_append_of_le_length h2]
    rfl
  | case6 cs ht hm hl hq ih =>
    have htriple : triple = true := by simpa using ht
    subst htriple
    have h2 : 2 ≤ cs.length := by
      rcases Nat.lt_or_ge cs.length 2 with hn | hn
      · rw [body_triple_starved hn] at h
        cases h
      · exact hn
    rw [List.cons_append, body, if_neg hl, if_neg hq, if_pos rfl, if_neg ht,
      twoMore_append more h2, if_neg hm]
    exact ih h
  | case7 c cs hl hb hq ih =>
    rw [List.cons_append, body, if_neg hl, if_neg hb, if_neg hq]
    exact ih h

end Quotation

namespace Lexeme
open Text Scan

def extend (l : Lexeme) (more : List Char) : Lexeme := ⟨l.key, l.scan.extend more⟩

def Settles (f : List Char → Lexeme) : Prop :=
  ∀ cs more, (f cs).scan.starved = false → f (cs ++ more) = (f cs).extend more

end Lexeme

namespace Quotation
open Text Scan

theorem settles_literal (quote : Char) : Lexeme.Settles (literal quote) := by
  intro cs more h
  unfold literal at h ⊢
  split at h
  · next hm =>
    have h2 : 2 ≤ cs.length := by
      match cs, hm with
      | _ :: _ :: _, _ => exact Nat.le_add_left _ _
    rw [if_pos hm, twoMore_append more h2, if_pos hm, List.drop_append_of_le_length h2,
      settles_body quote true (cs.drop 2) more h]
    rfl
  · next hm =>
    simp only [Bool.or_eq_false_iff, List.isEmpty_eq_false_iff, beq_eq_false_iff_ne] at h
    obtain ⟨⟨hb, hn⟩, hq⟩ := h
    have hm' : ¬twoMore quote (cs ++ more) = true := by
      match cs with
      | [] => exact absurd rfl hn
      | [c] =>
        have hc : (c == quote) = false := by simpa using hq
        cases more with
        | nil => exact hm
        | cons d more => simp [twoMore, hc]
      | _ :: _ :: _ => exact hm
    have hq' : cs ++ more ≠ [quote] := by
      intro he
      cases cs with
      | nil => exact hn rfl
      | cons c cs =>
        rw [List.cons_append, List.cons.injEq, List.append_eq_nil_iff] at he
        exact hq (by rw [he.1, he.2.1])
    rw [if_neg hm, if_neg hm', settles_body quote false cs more hb]
    have hlook (ds : List Char) (hd : ds ≠ []) (hdq : ds ≠ [quote]) :
        (ds.isEmpty || ds == [quote]) = false := by simp [hd, hdq]
    simp only [Bool.or_assoc, hlook cs hn hq,
      hlook (cs ++ more) (by simp [hn]) hq', Lexeme.extend, extend]

end Quotation

namespace Number
open Text Scan

theorem settles_radixPart (base : List Char) : Settles (radixPart base) := by
  intro cs more h
  have hd : cs.dropWhile isRadixPart ≠ [] := by
    intro hd
    simp [radixPart, hd] at h
  unfold radixPart
  rw [dropWhile_settled more hd, takeWhile_settled more hd]
  cases hr : cs.dropWhile isRadixPart with
  | nil => exact absurd hr hd
  | cons c rest =>
    by_cases hc : c = '#'
    · subst hc
      rfl
    · simp [hc, looked, found, extend]

theorem fraction_settled {cs : List Char} (more : List Char)
    (h : (fraction cs).2.starved = false) :
    fraction (cs ++ more) = ((fraction cs).1, (fraction cs).2.extend more) := by
  unfold fraction at h
  split at h
  · cases h
  · next c cs =>
    simp only [List.cons_append, fraction]
    by_cases hc : isDigit c
    · simp only [hc, if_true] at h ⊢
      exact Prod.ext rfl (settles_run isDecimalPart (c :: cs) more h)
    · simp only [hc]
      rfl
  · next hs hp =>
    cases cs with
    | nil => cases h
    | cons d cs =>
      have hd : d ≠ '.' := by
        intro hd
        subst hd
        cases cs with
        | nil => exact hs rfl
        | cons c cs => exact hp c cs rfl
      simp [fraction, hd, looked, extend]

theorem exponent_settled {cs : List Char} (more : List Char)
    (h : (exponent cs).2.starved = false) :
    exponent (cs ++ more) = ((exponent cs).1, (exponent cs).2.extend more) := by
  cases cs with
  | nil => cases h
  | cons e cs =>
    simp only [List.cons_append, exponent] at h ⊢
    by_cases he : e = 'e' ∨ e = 'E'
    · simp only [he, if_true] at h ⊢
      cases cs with
      | nil => cases h
      | cons c rest =>
        simp only [List.cons_append] at h ⊢
        by_cases hc : isDigit c
        · simp only [hc, if_true] at h ⊢
          exact Prod.ext rfl (settles_run isDecimalPart (c :: rest) more h)
        · by_cases hs : c = '+' ∨ c = '-'
          · simp only [hc, hs, if_true] at h ⊢
            cases rest with
            | nil => cases h
            | cons d rest =>
              by_cases hd : isDigit d
              · simp only [hd, if_true, List.cons_append] at h ⊢
                exact Prod.ext rfl (settles_run isDecimalPart (d :: rest) more h)
              · simp only [hd, List.cons_append]
                rfl
          · simp only [hc, hs]
            rfl
    · simp only [he]
      rfl

theorem suffixed_settled (kind : TokenKind) {s : Scan} (more : List Char)
    (h : (suffixed kind s).scan.starved = false) :
    suffixed kind (s.extend more) = (suffixed kind s).extend more := by
  unfold suffixed at h ⊢
  cases hr : s.rest with
  | nil => simp [hr] at h
  | cons c rest =>
    simp only [hr, extend_rest, List.cons_append] at h ⊢
    by_cases hc : isIdentifierStart c
    · simp only [hc, if_true] at h ⊢
      have hd : (c :: rest).dropWhile isIdentifierPart ≠ [] := by
        intro hd
        simp [Scan.andThen, Scan.run, hr, hd] at h
      rw [andThen_settled more (settles_run isIdentifierPart) h]
      rw [← List.cons_append, takeWhile_settled more hd]
      rfl
    · simp only [hc]
      rfl

theorem starved_of_suffixed {kind : TokenKind} {s : Scan}
    (h : (suffixed kind s).scan.starved = false) : s.starved = false := by
  unfold suffixed at h
  split at h
  · split at h
    · exact (Bool.or_eq_false_iff.1 h).1
    · exact h
  · cases h

/-- A number from the end of its digits on, when no number sign follows them. -/
def decimal (cs : List Char) : Lexeme :=
  let (hasFraction, s) := fraction cs
  let (hasExponent, t) := exponent s.rest
  suffixed (if hasFraction || hasExponent then .float else .integer)
    ⟨t.rest, s.starved || t.starved, s.findings ++ t.findings⟩

theorem settles_decimal : Lexeme.Settles decimal := by
  intro cs more h
  have hs := Bool.or_eq_false_iff.1 (starved_of_suffixed h)
  have hf : (fraction cs).2.starved = false := hs.1
  have he : (exponent (fraction cs).2.rest).2.starved = false := hs.2
  simp only [decimal, fraction_settled more hf, extend_rest, exponent_settled more he]
  exact suffixed_settled _ more h

theorem literal_eq_decimal {first : Char} {cs : List Char}
    (h : ∀ rest, cs.dropWhile isDecimalPart ≠ '#' :: rest) :
    literal first cs = decimal (cs.dropWhile isDecimalPart) := by
  unfold literal
  split
  · next rest he => exact absurd he (h rest)
  · rfl

theorem literal_eq_radix {first : Char} {cs rest : List Char}
    (h : cs.dropWhile isDecimalPart = '#' :: rest) :
    literal first cs = suffixed .integer
      (radixPart ((first :: cs.takeWhile isDecimalPart).filter (· != '_')) rest) := by
  simp only [literal, h]

theorem settles_literal (first : Char) : Lexeme.Settles (literal first) := by
  intro cs more h
  have hd : cs.dropWhile isDecimalPart ≠ [] := by
    intro hd
    simp [literal, hd, fraction, exponent, suffixed] at h
  have hda := dropWhile_settled more hd
  by_cases hr : ∃ rest, cs.dropWhile isDecimalPart = '#' :: rest
  · obtain ⟨rest, hr⟩ := hr
    rw [hr, List.cons_append] at hda
    rw [literal_eq_radix hr] at h ⊢
    rw [literal_eq_radix hda, takeWhile_settled more hd,
      settles_radixPart _ rest more (starved_of_suffixed h)]
    exact suffixed_settled _ more h
  · have hn : ∀ rest, cs.dropWhile isDecimalPart ≠ '#' :: rest := fun rest he => hr ⟨rest, he⟩
    have hna : ∀ rest, (cs ++ more).dropWhile isDecimalPart ≠ '#' :: rest := by
      intro rest he
      rw [hda] at he
      cases hc : cs.dropWhile isDecimalPart with
      | nil => exact hd hc
      | cons c cs' =>
        rw [hc, List.cons_append, List.cons.injEq] at he
        exact hn cs' (by rw [hc, he.1])
    rw [literal_eq_decimal hn] at h ⊢
    rw [literal_eq_decimal hna, hda]
    exact settles_decimal _ more h

end Number

namespace Lexeme
open Text Scan

theorem settles_run (kind : TokenKind) (p : Char → Bool) :
    Settles fun cs => ofScan kind (.run p cs) := by
  intro cs more h
  simp only [ofScan, Scan.settles_run p cs more h]
  rfl

def isDocumentation : List Char → Bool
  | '/' :: '/' :: _ => false
  | '/' :: _ => true
  | _ => false

theorem isDocumentation_append {cs : List Char} (more : List Char)
    (h : cs.dropWhile (fun c => !isLineBreak c) ≠ []) :
    isDocumentation (cs ++ more) = isDocumentation cs := by
  match cs, h with
  | [c], h =>
    have hc : c ≠ '/' := by
      intro hc
      subst hc
      exact h rfl
    simp [isDocumentation, hc]
  | c :: d :: cs, h =>
    by_cases hc : c = '/'
    · subst hc
      by_cases hd : d = '/'
      · subst hd
        rfl
      · simp [isDocumentation, hd]
    · simp [isDocumentation, hc]

theorem lineComment_eq (docComments : Bool) (cs : List Char) :
    lineComment docComments cs =
      .ofScan (if isDocumentation cs && docComments then .docComment else .lineComment)
        (restOfLine cs) := by
  unfold lineComment isDocumentation
  rfl

theorem settles_lineComment (docComments : Bool) : Settles (lineComment docComments) := by
  intro cs more h
  have hd : cs.dropWhile (fun c => !isLineBreak c) ≠ [] := List.isEmpty_eq_false_iff.1 h
  have hs : restOfLine (cs ++ more) = (restOfLine cs).extend more := Scan.settles_run _ cs more h
  rw [lineComment_eq, lineComment_eq, isDocumentation_append more hd, hs]
  rfl

theorem settles_blockComment : Scan.Settles blockComment := by
  intro cs more h
  fun_induction blockComment cs with
  | case1 => cases h
  | case2 cs => rfl
  | case3 c cs hc ih =>
    have hn : cs ≠ [] := by
      intro hn
      subst hn
      cases h
    rw [List.cons_append, blockComment]
    · exact ih h
    · intro rest h₁ h₂
      cases cs with
      | nil => exact hn rfl
      | cons d cs =>
        rw [List.cons_append, List.cons.injEq] at h₂
        exact hc cs h₁ (by rw [h₂.1])

theorem opensComment_append {c : Char} {cs : List Char} (more : List Char) (h : cs ≠ []) :
    opensComment (c :: (cs ++ more)) = opensComment (c :: cs) := by
  cases cs with
  | nil => exact absurd rfl h
  | cons d cs =>
    unfold opensComment
    simp only [List.cons_append]
    split <;> simp_all

theorem settles_graphics : Scan.Settles graphics := by
  intro cs more h
  fun_induction graphics cs with
  | case1 => cases h
  | case2 c cs hc ih =>
    have hn : cs ≠ [] := by
      intro hn
      subst hn
      cases h
    rw [List.cons_append, graphics, opensComment_append more hn, if_pos hc]
    exact ih h
  | case3 c cs hc =>
    have ho : ¬(isGraphic c && !opensComment (c :: (cs ++ more))) = true := by
      cases cs with
      | nil =>
        have hg : isGraphic c = false := by simpa [opensComment] using hc
        simp [hg]
      | cons d cs => rwa [opensComment_append more (List.cons_ne_nil d cs)]
    rw [List.cons_append, graphics, if_neg ho]
    rfl

theorem settles_word (first : Char) : Settles (word first) := by
  intro cs more h
  have hd : cs.dropWhile isIdentifierPart ≠ [] := by
    intro hd
    simp [word, hd, ofScan] at h
  unfold word at h ⊢
  rw [dropWhile_settled more hd, takeWhile_settled more hd]
  cases hr : cs.dropWhile isIdentifierPart with
  | nil => exact absurd hr hd
  | cons q rest =>
    simp only [hr, List.cons_append] at h ⊢
    by_cases hq : q = '"' ∨ q = '\''
    · simp only [hq, if_true] at h ⊢
      rw [Quotation.settles_literal q rest more h]
      rfl
    · simp only [hq]
      rfl

/-- The token that starts with a character which neither is a token nor opens a comment. -/
def ordinary (atStart : Bool) (first : Char) (cs : List Char) : Lexeme :=
  if ['(', ')', '[', ']'].contains first then .ofScan .bracket (.stopped cs)
  else if first = '"' ∨ first = '\'' then Quotation.literal first cs
  else if first = '#' && atStart && cs.head? == some '!' then
    .ofScan .lineComment (restOfLine cs)
  else if isGraphic first then .ofScan .graphics (graphics cs)
  else if isDigit first then Number.literal first cs
  else if isIdentifierStart first then word first cs
  else if isBlank first then
    .ofScan .whitespace (.run (fun c => isBlank c && !isLineBreak c) cs)
  else .ofScan .graphics ((Scan.stopped cs).found .invalidCharacter [showChar first])

theorem opensScript_append {atStart : Bool} {first : Char} {cs : List Char} (more : List Char)
    (h : isGraphic first = true → cs ≠ []) :
    (first = '#' && atStart && (cs ++ more).head? == some '!') =
      (first = '#' && atStart && cs.head? == some '!') := by
  cases cs with
  | cons c cs => rfl
  | nil =>
    have hf : first ≠ '#' := by
      intro hf
      subst hf
      exact h rfl rfl
    simp [hf]

theorem settles_ordinary (atStart : Bool) (first : Char) : Settles (ordinary atStart first) := by
  intro cs more h
  unfold ordinary at h ⊢
  by_cases hb : ['(', ')', '[', ']'].contains first
  · rw [if_pos hb, if_pos hb]
    rfl
  rw [if_neg hb] at h
  rw [if_neg hb, if_neg hb]
  by_cases hq : first = '"' ∨ first = '\''
  · rw [if_pos hq] at h
    rw [if_pos hq, if_pos hq]
    exact Quotation.settles_literal first cs more h
  rw [if_neg hq] at h
  rw [if_neg hq, if_neg hq]
  have hn : isGraphic first = true → cs ≠ [] := by
    intro hg hn
    subst hn
    simp [hg, ofScan, graphics] at h
  rw [opensScript_append more hn]
  split
  · next hs =>
    rw [if_pos hs] at h
    exact settles_run .lineComment _ cs more h
  · next hs =>
    rw [if_neg hs] at h
    split
    · next hg =>
      rw [if_pos hg] at h
      rw [settles_graphics cs more h]
      rfl
    · next hg =>
      rw [if_neg hg] at h
      split
      · next hd =>
        rw [if_pos hd] at h
        exact Number.settles_literal first cs more h
      · next hd =>
        rw [if_neg hd] at h
        split
        · next hi =>
          rw [if_pos hi] at h
          exact settles_word first cs more h
        · next hi =>
          rw [if_neg hi] at h
          split
          · next hw =>
            rw [if_pos hw] at h
            exact settles_run .whitespace _ cs more h
          · rfl

theorem recognize_eq_ordinary (atStart docComments : Bool) {first : Char} {cs : List Char}
    (hf : first ∉ ['\n', '\r', ',', ';', '\x7b', '\x7d'])
    (hs : first = '/' → ∀ rest, cs ≠ '/' :: rest ∧ cs ≠ '*' :: rest) :
    recognize atStart docComments first cs = ordinary atStart first cs := by
  unfold recognize
  split
  · simp at hf
  · simp at hf
  · simp at hf
  · simp at hf
  · simp at hf
  · simp at hf
  · simp at hf
  · next rest => exact absurd rfl (hs rfl rest).1
  · next rest => exact absurd rfl (hs rfl rest).2
  · rfl

theorem settles_recognize_slash (atStart docComments : Bool) :
    Settles (recognize atStart docComments '/') := by
  intro cs more h
  have hf : '/' ∉ ['\n', '\r', ',', ';', '\x7b', '\x7d'] := by decide
  cases cs with
  | nil => cases h
  | cons c cs =>
    by_cases hl : c = '/'
    · subst hl
      exact settles_lineComment docComments cs more h
    · by_cases hb : c = '*'
      · subst hb
        have hs := settles_blockComment cs more h
        simp only [List.cons_append, recognize, hs]
        rfl
      · have hn (ds : List Char) (_ : '/' = '/') (rest : List Char) :
            c :: ds ≠ '/' :: rest ∧ c :: ds ≠ '*' :: rest := by
          constructor <;> intro he <;> rw [List.cons.injEq] at he
          · exact hl he.1
          · exact hb he.1
        rw [recognize_eq_ordinary _ _ hf (hn cs)] at h ⊢
        rw [List.cons_append, recognize_eq_ordinary _ _ hf (hn (cs ++ more))]
        exact settles_ordinary atStart '/' (c :: cs) more h

/-- The token at the front of a text is told for good as soon as its scan is not starved. -/
theorem settles_recognize (atStart docComments : Bool) (first : Char) :
    Settles (recognize atStart docComments first) := by
  intro cs more h
  by_cases hf : first ∈ ['\n', '\r', ',', ';', '\x7b', '\x7d']
  · simp only [List.mem_cons, List.not_mem_nil, or_false] at hf
    rcases hf with rfl | rfl | rfl | rfl | rfl | rfl
    · rfl
    · cases cs with
      | nil => cases h
      | cons c cs =>
        by_cases hc : c = '\n'
        · subst hc
          rfl
        · simp [recognize, hc, ofScan, extend, looked, Scan.extend]
    · rfl
    · rfl
    · rfl
    · rfl
  · by_cases hs : first = '/'
    · subst hs
      exact settles_recognize_slash atStart docComments cs more h
    · have hn (ds : List Char) (he : first = '/') (rest : List Char) :
          ds ≠ '/' :: rest ∧ ds ≠ '*' :: rest := absurd he hs
      rw [recognize_eq_ordinary _ _ hf (hn cs)] at h ⊢
      rw [recognize_eq_ordinary _ _ hf (hn (cs ++ more))]
      exact settles_ordinary atStart first cs more h

end Lexeme

end TermStream
