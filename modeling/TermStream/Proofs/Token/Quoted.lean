import TermStream.Interpreter.Document
import TermStream.Proofs.Token.Limit

namespace TermStream

open Text

def Finding.leavesOpen (findings : List Finding) : Bool :=
  findings.any fun f => f.problem == .unterminatedString

def Scan.isOpen (s : Scan) : Bool := Finding.leavesOpen s.findings

def Extent.isOpen (e : Extent) : Bool := Finding.leavesOpen e.findings

def Token.isUnterminated (t : Token) : Bool := !(t.errors.reportsOf .unterminatedString).isEmpty

/-- A string token, but for its position: what stands in front of the quotes, the quotes on one
side, and what stands between the quotes. -/
structure Token.Quotes (t : Token) (delimiter content : List Char) : Prop where
  delimiter_eq : t.key.delimiter? = some delimiter
  text_eq : t.text.toList = (t.key.lead.getD "").toList ++ delimiter ++ content ++
    if t.isUnterminated then [] else delimiter

namespace Quotation

def quotes (quote : Char) (triple : Bool) : List Char :=
  List.replicate (if triple then 3 else 1) quote

/-- What a scan of `cs` has read is `content`, and the closing quotes unless they were not found. -/
def Splits (closing cs : List Char) (s : Scan) (content : List Char) : Prop :=
  cs = content ++ (if s.isOpen then [] else closing) ++ s.rest

variable {closing cs content : List Char} {s : Scan}

theorem Splits.append (h : Splits closing cs s content) (front : List Char) :
    Splits closing (front ++ cs) s (front ++ content) := by
  unfold Splits at h ⊢
  rw [h]
  simp only [List.append_assoc]

theorem Splits.of_open (ho : s.isOpen = true) (hr : s.rest = cs) : Splits closing cs s [] := by
  rw [Splits, ho, hr]
  rfl

theorem hexDigits_isOpen (n : Nat) (cs : List Char) : (hexDigits n cs).isOpen = false := by
  fun_induction hexDigits n cs with
  | case1 => rfl
  | case2 => rfl
  | case3 n c cs hc ih => exact ih
  | case4 => rfl

theorem codePoint_isOpen (cs : List Char) : (codePoint cs).isOpen = false := by
  unfold codePoint
  split
  · dsimp only
    split <;> rfl
  · rfl

theorem escape_isOpen (cs : List Char) : (escape cs).isOpen = false := by
  unfold escape
  split
  · rfl
  · split
    · rfl
    · split
      · exact hexDigits_isOpen _ _
      · split
        · exact codePoint_isOpen _
        · split <;> rfl

theorem eq_of_twoMore {quote : Char} (h : twoMore quote cs = true) :
    cs = [quote, quote] ++ cs.drop 2 := by
  unfold twoMore at h
  split at h
  · next a b rest =>
    obtain ⟨ha, hb⟩ := Bool.and_eq_true_iff.1 h
    rw [eq_of_beq ha, eq_of_beq hb]
    rfl
  · cases h

theorem exists_body_splits (quote : Char) (triple : Bool) (cs : List Char) :
    ∃ content, Splits (quotes quote triple) cs (body quote triple cs) content := by
  fun_induction body quote triple cs with
  | case1 => exact ⟨[], .of_open rfl rfl⟩
  | case2 c cs hc => exact ⟨[], .of_open rfl rfl⟩
  | case3 cs hle e b hc ih =>
    obtain ⟨content, h⟩ := ih
    obtain ⟨read, hread⟩ := escape_rest_suffix cs
    have ho :
        Scan.isOpen ⟨b.rest, e.starved || b.starved, e.findings ++ b.findings⟩ = b.isOpen := by
      have he : e.isOpen = false := escape_isOpen cs
      rw [Scan.isOpen, Finding.leavesOpen, List.any_append]
      exact (congrArg (· || b.isOpen) he).trans (Bool.false_or _)
    refine ⟨'\\' :: read ++ content, ?_⟩
    have hsplits : Splits (quotes quote triple) ('\\' :: read ++ e.rest) b _ := h.append _
    rw [Splits, List.cons_append, hread] at hsplits
    rw [Splits, ho]
    exact hsplits
  | case4 cs ht hc hq =>
    obtain rfl : triple = false := by simpa using ht
    exact ⟨[], rfl⟩
  | case5 cs ht htwo hc hq =>
    obtain rfl : triple = true := by simpa using ht
    refine ⟨[], ?_⟩
    change quote :: cs = [quote, quote, quote] ++ cs.drop 2
    exact congrArg (quote :: ·) (eq_of_twoMore htwo)
  | case6 cs ht htwo hc hq ih =>
    obtain ⟨content, h⟩ := ih
    exact ⟨_, h.append [_]⟩
  | case7 c cs hl hc hq ih =>
    obtain ⟨content, h⟩ := ih
    exact ⟨_, h.append [_]⟩

theorem exists_literal_splits (quote : Char) (cs : List Char) :
    ∃ delimiter content, (literal quote cs).key.delimiter? = some delimiter ∧
      (literal quote cs).key.lead = none ∧
      quote :: cs = delimiter ++ content ++
        (if (literal quote cs).scan.isOpen then [] else delimiter) ++
        (literal quote cs).scan.rest := by
  unfold literal
  split
  · next htwo =>
    obtain ⟨content, h⟩ := exists_body_splits quote true (cs.drop 2)
    refine ⟨quotes quote true, content, rfl, rfl, ?_⟩
    have hcs : quote :: cs = quotes quote true ++ cs.drop 2 :=
      congrArg (quote :: ·) (eq_of_twoMore htwo)
    rw [hcs, List.append_assoc, List.append_assoc, ← List.append_assoc content]
    exact congrArg _ h
  · obtain ⟨content, h⟩ := exists_body_splits quote false cs
    refine ⟨quotes quote false, content, rfl, rfl, ?_⟩
    exact congrArg (quote :: ·) h

end Quotation

namespace Lexeme

structure Splits (cs : List Char) (l : Lexeme) (delimiter content : List Char) : Prop where
  delimiter_eq : l.key.delimiter? = some delimiter
  text_eq : cs = (l.key.lead.getD "").toList ++ delimiter ++ content ++
    (if l.scan.isOpen then [] else delimiter) ++ l.scan.rest

theorem exists_literal_splits (quote : Char) (cs : List Char) :
    ∃ delimiter content, Splits (quote :: cs) (Quotation.literal quote cs) delimiter content := by
  obtain ⟨delimiter, content, hd, hl, ht⟩ := Quotation.exists_literal_splits quote cs
  exact ⟨delimiter, content, hd, by rw [hl]; exact ht⟩

theorem exists_word_splits {first : Char} {cs : List Char}
    (h : (word first cs).key.kind.isString = true) :
    ∃ delimiter content, Splits (first :: cs) (word first cs) delimiter content := by
  have hcs : cs.takeWhile isIdentifierPart ++ cs.dropWhile isIdentifierPart = cs :=
    List.takeWhile_append_dropWhile
  unfold word at h ⊢
  cases hrest : cs.dropWhile isIdentifierPart with
  | nil => rw [hrest] at h; cases h
  | cons q rest =>
    rw [hrest] at h hcs
    dsimp only at h ⊢
    split at h
    · next hq =>
      rw [if_pos hq]
      obtain ⟨delimiter, content, hd, -, ht⟩ := Quotation.exists_literal_splits q rest
      refine ⟨delimiter, content, hd, ?_⟩
      simp only [TokenKey.withLead, Option.getD_some, String.toList_ofList, List.append_assoc]
      simp only [List.append_assoc] at ht
      rw [← ht]
      exact congrArg (first :: ·) hcs.symm
    · cases h

theorem isString_number (first : Char) (cs : List Char) :
    (Number.literal first cs).key.kind.isString = false := by
  have hnumber := Number.isNumber_literal first cs
  generalize (Number.literal first cs).key.kind = kind at hnumber ⊢
  cases kind <;> first | rfl | cases hnumber

theorem exists_ordinary_splits {atStart : Bool} {first : Char} {cs : List Char}
    (h : (ordinary atStart first cs).key.kind.isString = true) :
    ∃ delimiter content, Splits (first :: cs) (ordinary atStart first cs) delimiter content := by
  revert h
  unfold ordinary
  split
  · intro h
    cases h
  · split
    · exact fun _ => exists_literal_splits first cs
    · split
      · intro h
        cases h
      · split
        · intro h
          cases h
        · split
          · intro h
            rw [isString_number] at h
            cases h
          · split
            · exact exists_word_splits
            · split
              · intro h
                cases h
              · intro h
                cases h

theorem exists_recognize_splits {atStart docComments : Bool} {first : Char} {cs : List Char}
    (h : (recognize atStart docComments first cs).key.kind.isString = true) :
    ∃ delimiter content,
      Splits (first :: cs) (recognize atStart docComments first cs) delimiter content := by
  revert h
  unfold recognize
  split
  case h_8 rest =>
    intro h
    rw [lineComment_eq] at h
    revert h
    dsimp only [ofScan]
    split <;> intro h <;> cases h
  case h_10 => exact fun h => exists_ordinary_splits h
  -- every other form has a kind of its own
  all_goals
    intro h
    cases h

end Lexeme

namespace Lexer

variable {l : Lexer} {first : Char} {cs : List Char} {found : Extent} {final : Bool} {limit : Nat}

/-- That a lexeme is cut is told behind what its scan has found. -/
theorem lexemeWithin_isOpen (h : l.lexemeWithin limit final first cs = some found) :
    let lexeme := Lexeme.recognize l.atStart l.docComments first (upTo (limit - 1) cs)
    found.key = lexeme.key ∧ found.isOpen = lexeme.scan.isOpen := by
  unfold lexemeWithin at h
  dsimp only at h
  split at h
  · cases h
    exact ⟨rfl, rfl⟩
  · split at h
    · cases h
      refine ⟨rfl, ?_⟩
      rw [Extent.isOpen, Finding.leavesOpen, List.any_append]
      exact Bool.or_false _
    · split at h
      · cases h
        exact ⟨rfl, rfl⟩
      · cases h

theorem lexemeWithin_text (h : l.lexemeWithin limit final first cs = some found) :
    (first :: cs).take found.length ++
        (Lexeme.recognize l.atStart l.docComments first (upTo (limit - 1) cs)).scan.rest =
      first :: upTo (limit - 1) cs := by
  have hlength := lexemeWithin_length_eq h
  obtain ⟨read, hread⟩ := Lexeme.recognize_rest_suffix l.atStart l.docComments first
    (upTo (limit - 1) cs)
  have hcs : upTo (limit - 1) cs <+: cs := by
    rw [upTo_eq_take]
    exact List.take_prefix _ _
  generalize hlexeme : Lexeme.recognize l.atStart l.docComments first (upTo (limit - 1) cs) = lexeme
    at hlength hread ⊢
  generalize upTo (limit - 1) cs = visible at hlength hread hcs ⊢
  obtain ⟨more, rfl⟩ := hcs
  subst hread
  have hn : found.length = (first :: read).length := by
    rw [hlength, Lexeme.length, List.length_append, List.length_cons]
    omega
  have htext : first :: (read ++ lexeme.scan.rest ++ more) =
      (first :: read) ++ (lexeme.scan.rest ++ more) := by simp
  rw [htext, hn, List.take_left]
  rfl

theorem isUnterminated_made (source : String) (text : List Char) :
    (l.made source found text).isUnterminated = found.isOpen := by
  rw [Token.isUnterminated, made, reportsOf_chainOf, Extent.isOpen, Finding.leavesOpen,
    Bool.eq_iff_iff]
  simp

/-- A string that is read within a limit is split as its scan has split it. -/
theorem exists_quotes_within (source : String)
    (h : l.lexemeWithin limit final first cs = some found)
    (hs : found.key.kind.isString = true) :
    ∃ delimiter content,
      (l.made source found ((first :: cs).take found.length)).Quotes delimiter content := by
  obtain ⟨hkey, hopen⟩ := lexemeWithin_isOpen h
  have htext := lexemeWithin_text h
  rw [hkey] at hs
  obtain ⟨delimiter, content, hd, hsplits⟩ := Lexeme.exists_recognize_splits hs
  refine ⟨delimiter, content, ?_, ?_⟩
  · rw [← hkey] at hd
    exact hd
  · rw [hsplits, ← hopen, ← hkey] at htext
    rw [isUnterminated_made]
    change (String.ofList _).toList = _
    rw [String.toList_ofList]
    exact List.append_cancel_right htext

theorem exists_quotes {source : String} (h : l.nextLexeme final first cs = some found)
    (hs : found.key.kind.isString = true) :
    ∃ delimiter content,
      (l.made source found ((first :: cs).take found.length)).Quotes delimiter content := by
  unfold nextLexeme at h
  split at h
  · cases h
  · next e he =>
    split at h
    · cases h
      exact exists_quotes_within source he hs
    · exact exists_quotes_within source h hs

end Lexer

theorem dropBytes?_append (front back : List Char) :
    dropBytes? (byteLength front) (front ++ back) = some back := by
  induction front with
  | nil => unfold dropBytes?; rfl
  | cons c front ih =>
    have hc : 0 < c.utf8Size := Char.utf8Size_pos c
    obtain ⟨n, hn⟩ : ∃ n, byteLength (c :: front) = n + 1 :=
      Nat.exists_eq_succ_of_ne_zero (by rw [byteLength_cons]; omega)
    rw [hn, List.cons_append, dropBytes?, ← hn, byteLength_cons, if_pos (by omega)]
    rw [Nat.add_sub_cancel_left, ih]

theorem dropEnding_append (content ending : List Char) :
    dropEnding ending (content ++ ending) = content := by
  rw [dropEnding, if_pos (by simp), List.length_append, Nat.add_sub_cancel, List.take_left]

theorem eq_dropEnding_append (content ending : List Char) :
    content = dropEnding ending content ++ if ending <:+ content then ending else [] := by
  by_cases h : ending <:+ content
  · obtain ⟨front, rfl⟩ := h
    rw [if_pos (List.suffix_append _ _), dropEnding_append]
  · rw [if_neg h, dropEnding, if_neg (by simpa using h), List.append_nil]

namespace Token

variable {t : Token} {delimiter content : List Char}

/-- A string is taken to be `body` if that is what stands between its quotes, but for one more
delimiter if it is unterminated and ends with one. -/
def Yields (t : Token) (body : String) : Prop :=
  ∃ delimiter content, t.Quotes delimiter content ∧
    content = body.toList ++
      if t.isUnterminated = true ∧ delimiter <:+ content then delimiter else []

theorem Quotes.exists_yields (h : t.Quotes delimiter content) :
    ∃ body, t.stringBody? = some body ∧ t.Yields body := by
  have hdrop : dropBytes? (byteLength (t.key.lead.getD "").toList + byteLength delimiter)
      t.text.toList = some (content ++ if t.isUnterminated then [] else delimiter) := by
    rw [h.text_eq, ← byteLength_append, List.append_assoc, dropBytes?_append]
  have hbody : t.stringBody? = some (String.ofList
      (dropEnding delimiter (content ++ if t.isUnterminated then [] else delimiter))) := by
    simp only [stringBody?, h.delimiter_eq, bind, Option.bind, hdrop, pure]
  refine ⟨_, hbody, delimiter, content, h, ?_⟩
  rw [String.toList_ofList]
  cases t.isUnterminated with
  | true => simpa using eq_dropEnding_append content delimiter
  | false => simp [dropEnding_append]

def Quoted (t : Token) : Prop :=
  t.kind.isString = true → ∃ delimiter content, t.Quotes delimiter content

theorem Quoted.exists_yields (h : t.Quoted) (hs : t.kind.isString = true) :
    ∃ body, t.stringBody? = some body ∧ t.Yields body := by
  obtain ⟨delimiter, content, hq⟩ := h hs
  exact hq.exists_yields

theorem quoted_eof (position : Position) : (Token.eof position).Quoted := nofun

end Token

namespace Lexer

theorem Parsed.quoted {l l' : Lexer} {source : String} {b b' : Backlog} {final : Bool}
    {progress : Progress} (h : Parsed l source b final progress l' b')
    (hq : ∀ t ∈ l.pending, t.Quoted) : ∀ t ∈ l'.pending, t.Quoted := by
  cases h with
  | pending => exact hq
  | ended => exact hq
  | starved => exact hq
  | last =>
    intro t ht
    cases ht
    exact Token.quoted_eof _
  | token first cs found hp he hb hn =>
    intro t ht
    cases ht
    exact exists_quotes hn

theorem ahead_quoted {l : Lexer} {source : String} (cs : List Char) (hs : l.source = some source)
    (hp : l.pending = none) (he : l.ended = false) : ∀ t ∈ l.ahead cs, t.Quoted := by
  refine ahead_induction (motive := fun _ _ ts => ∀ t ∈ ts, t.Quoted) ?_ ?_ cs hs hp he
  · exact fun l => List.forall_mem_singleton.2 (Token.quoted_eof _)
  · rintro l first rest found _ ts hf rfl ih
    exact List.forall_mem_cons.2 ⟨exists_quotes hf, ih⟩

end Lexer

end TermStream
