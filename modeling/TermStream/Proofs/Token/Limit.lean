import TermStream.Proofs.Token.Boundaries
import TermStream.Proofs.Token.Findings
import TermStream.Proofs.Token.Reach

namespace TermStream

/-- The errors of a chain that have the code of `p`. -/
def ErrorChain.reportsOf (chain : ErrorChain) (p : Problem) : List Report :=
  chain.reports.filter fun r => r.code.problem? == some p

theorem Lexer.reportsOf_chainOf (location : Location) (findings : List Finding) (p : Problem) :
    (chainOf location findings).reportsOf p =
      ((findings.filter fun f => f.problem == p).reverse.map fun f => ⟨p, f.args, location⟩) := by
  have hcode (f : Finding) :
      ((ErrorCode.ofProblem f.problem).problem? == some p) = (f.problem == p) := by
    rw [ErrorCode.problem?_ofProblem]
    rfl
  rw [ErrorChain.reportsOf, ErrorChain.reports, nodes_chainOf, List.map_map, List.filter_map,
    List.filter_reverse]
  simp only [Function.comp_def, hcode]
  refine List.map_congr_left fun f hf => ?_
  have hp : f.problem = p := by simpa using (List.mem_filter.1 (List.mem_reverse.1 hf)).2
  rw [hp]

namespace Extent

variable {e : Extent} {limit : Nat}

/-- A lexeme that is cut, as it reaches `limit`. -/
def TooLong (limit : Nat) (e : Extent) : Prop :=
  ∃ findings, e.findings = findings ++ [⟨.tooManyCharacters, [toString limit]⟩] ∧
    ∀ f ∈ findings, f.problem.IsFound

theorem filter_tooMany {findings : List Finding} (h : ∀ f ∈ findings, f.problem.IsFound) :
    findings.filter (fun f => f.problem == .tooManyCharacters) = [] :=
  List.filter_eq_nil_iff.2 fun f hf => by simpa using (h f hf).2

theorem TooLong.reportsOf_made (h : e.TooLong limit) (l : Lexer) (source : String)
    (text : List Char) :
    ((l.made source e text).errors.reportsOf .tooManyCharacters).map (·.args) =
      [[toString limit]] := by
  obtain ⟨findings, hf, hfound⟩ := h
  rw [Lexer.made, Lexer.reportsOf_chainOf, hf, List.filter_append, filter_tooMany hfound]
  rfl

theorem reportsOf_made (h : ∀ f ∈ e.findings, f.problem.IsFound) (l : Lexer) (source : String)
    (text : List Char) : (l.made source e text).errors.reportsOf .tooManyCharacters = [] := by
  rw [Lexer.made, Lexer.reportsOf_chainOf, filter_tooMany h]
  rfl

end Extent

open Text

theorem not_mem_of_all {p : Char → Bool} {c : Char} (hc : p c = true) {others : List Char}
    (ho : others.all (fun d => !p d) = true) : c ∉ others := by
  intro hm
  simpa [hc] using List.all_eq_true.1 ho c hm

namespace Lexeme

theorem graphics_rest_ne_slash (cs : List Char) : (graphics cs).rest ≠ ['/'] := by
  fun_induction graphics cs with
  | case1 => exact (List.cons_ne_nil '/' []).symm
  | case2 c cs hc ih => exact ih
  | case3 c cs hc =>
    intro h
    obtain ⟨rfl, rfl⟩ := List.cons.inj h
    exact hc rfl

theorem graphics_findings (cs : List Char) : (graphics cs).findings = [] := by
  fun_induction graphics cs with
  | case1 => rfl
  | case2 c cs hc ih => exact ih
  | case3 c cs hc => rfl

structure OpensOperators (atStart : Bool) (first : Char) (cs : List Char) : Prop where
  graphic : isGraphic first = true
  no_comment : opensComment (first :: cs) = false
  no_script : ¬(first = '#' && atStart && cs.head? == some '!') = true

namespace OpensOperators

variable {atStart docComments : Bool} {first : Char} {cs : List Char}

theorem ordinary_eq (hg : isGraphic first = true) :
    ordinary atStart first cs =
      if first = '#' && atStart && cs.head? == some '!' then
        .ofScan .lineComment (restOfLine cs)
      else .ofScan .graphics (graphics cs) := by
  have hb : ¬['(', ')', '[', ']'].contains first = true := fun hm =>
    not_mem_of_all hg rfl (List.contains_iff_mem.1 hm)
  have hq : ¬(first = '"' ∨ first = '\'') := by
    simpa using not_mem_of_all hg (show ['"', '\''].all (fun d => !isGraphic d) = true from rfl)
  rw [ordinary, if_neg hb, if_neg hq, if_pos hg]

theorem recognize_eq_ordinary (hg : isGraphic first = true)
    (hc : opensComment (first :: cs) = false) :
    recognize atStart docComments first cs = ordinary atStart first cs := by
  refine Lexeme.recognize_eq_ordinary _ _ (not_mem_of_all hg rfl)
    fun hf rest => ⟨fun he => ?_, fun he => ?_⟩
  · rw [hf, he] at hc
    cases hc
  · rw [hf, he] at hc
    cases hc

theorem recognize_eq (h : OpensOperators atStart first cs) :
    recognize atStart docComments first cs = .ofScan .graphics (graphics cs) := by
  rw [recognize_eq_ordinary h.graphic h.no_comment, ordinary_eq h.graphic, if_neg h.no_script]

theorem of_key (hg : isGraphic first = true)
    (hk : (recognize atStart docComments first cs).key = .simple .graphics) :
    OpensOperators atStart first cs := by
  have hc : opensComment (first :: cs) = false := by
    rw [Bool.eq_false_iff]
    intro ho
    unfold opensComment at ho
    split at ho
    · next rest he =>
      obtain ⟨rfl, rfl⟩ := List.cons.inj he
      change (lineComment docComments rest).key = _ at hk
      rw [lineComment_eq] at hk
      split at hk <;> cases hk
    · next rest he =>
      obtain ⟨rfl, rfl⟩ := List.cons.inj he
      cases hk
    · cases ho
  refine ⟨hg, hc, fun hs => ?_⟩
  rw [recognize_eq_ordinary hg hc, ordinary_eq hg, if_pos hs] at hk
  cases hk

theorem take (h : OpensOperators atStart first cs) (n : Nat) :
    OpensOperators atStart first (cs.take n) := by
  cases n with
  | zero => exact ⟨h.graphic, by simp [opensComment], by simp⟩
  | succ n =>
    cases cs with
    | nil => exact h
    | cons c cs =>
      have hc := opensComment_append ((c :: cs).drop (n + 1)) (c := first)
        (List.cons_ne_nil c (cs.take n))
      rw [← List.take_succ_cons, List.take_append_drop] at hc
      exact ⟨h.graphic, hc ▸ h.no_comment, h.no_script⟩

end OpensOperators

theorem recognize_digit (atStart docComments : Bool) {first : Char} (cs : List Char)
    (hd : isDigit first = true) :
    recognize atStart docComments first cs = Number.literal first cs := by
  have hb : ¬['(', ')', '[', ']'].contains first = true := fun hm =>
    not_mem_of_all hd rfl (List.contains_iff_mem.1 hm)
  have hg : ¬isGraphic first = true := fun hm =>
    not_mem_of_all hd rfl (List.contains_iff_mem.1 hm)
  have hother : first ∉ ['"', '\'', '#', '/'] := not_mem_of_all hd rfl
  simp only [List.mem_cons, List.not_mem_nil, or_false, not_or] at hother
  obtain ⟨hdouble, hsingle, hs, hslash⟩ := hother
  rw [recognize_eq_ordinary _ _ (not_mem_of_all hd rfl) fun he => absurd he hslash, ordinary,
    if_neg hb, if_neg (not_or.2 ⟨hdouble, hsingle⟩), if_neg (by simp [hs]), if_neg hg, if_pos hd]

end Lexeme

namespace Lexer

variable {l : Lexer} {first : Char} {cs : List Char}

/-- The lexeme at the front of `first :: cs` when all of the text is visible. -/
def uncut (l : Lexer) (first : Char) (cs : List Char) : Extent :=
  let found := Lexeme.recognize l.atStart l.docComments first cs
  ⟨found.key, found.length cs, found.scan.findings⟩

def starves (l : Lexer) (first : Char) (cs : List Char) : Bool :=
  (Lexeme.recognize l.atStart l.docComments first cs).scan.starved

theorem uncut_length_le (l : Lexer) (first : Char) (cs : List Char) :
    (l.uncut first cs).length ≤ cs.length + 1 := Nat.sub_le _ _

theorem uncut_found (l : Lexer) (first : Char) (cs : List Char) :
    ∀ f ∈ (l.uncut first cs).findings, f.problem.IsFound :=
  Lexeme.lexical_recognize _ _ _ _

theorem uncut_of_settled {n : Nat} (h : l.starves first (cs.take n) = false) :
    l.uncut first cs = l.uncut first (cs.take n) ∧ l.starves first cs = false := by
  have hs := Lexeme.settles_recognize _ _ _ _ (cs.drop n) h
  rw [List.take_append_drop] at hs
  have hlength : cs.length = (cs.take n).length + (cs.drop n).length := by
    rw [← List.length_append, List.take_append_drop]
  unfold uncut starves
  rw [hs]
  refine ⟨?_, h⟩
  simp only [Lexeme.extend, Scan.extend, Lexeme.length, List.length_append, Extent.mk.injEq,
    true_and, and_true]
  omega

/-- A scan within a limit finds what it finds in all of the text, unless it is starved at the
limit. -/
theorem lexemeWithin_uncut {n : Nat} (h : l.starves first (cs.take n) = true → cs.length ≤ n) :
    l.lexemeWithin (n + 1) true first cs = some (l.uncut first cs) := by
  unfold lexemeWithin
  rw [Nat.add_sub_cancel, upTo_eq_take]
  dsimp only
  cases hs : (Lexeme.recognize l.atStart l.docComments first (cs.take n)).scan.starved with
  | false =>
    rw [(uncut_of_settled hs).1]
    rfl
  | true =>
    have hn : cs.length ≤ n := h hs
    rw [if_neg (show ¬n + 1 ≤ cs.length by omega), List.take_of_length_le hn]
    rfl

theorem lexemeWithin_starved {n : Nat} (h : l.starves first (cs.take n) = true)
    (hn : n < cs.length) :
    let u := l.uncut first (cs.take n)
    l.lexemeWithin (n + 1) true first cs =
      some { u with findings := u.findings ++ [⟨.tooManyCharacters, [toString (n + 1)]⟩] } := by
  have hs : (Lexeme.recognize l.atStart l.docComments first (cs.take n)).scan.starved = true := h
  unfold lexemeWithin
  rw [Nat.add_sub_cancel, upTo_eq_take]
  dsimp only
  rw [hs, if_pos (Nat.succ_le_of_lt hn)]
  rfl

theorem nextLexeme_uncut (h : cs.length < l.limit) :
    l.nextLexeme true first cs = some (l.uncut first cs) := by
  unfold nextLexeme
  rw [lexemeWithin_uncut fun _ => Nat.le_of_lt h]
  dsimp only
  rw [if_pos (Nat.le_trans (l.uncut_length_le first cs) h)]

/-- Digits make up the limit, and a point and one more character at least follow them. -/
def PointAhead (l : Lexer) (first : Char) (cs : List Char) : Prop :=
  isDigit first = true ∧ (cs.takeWhile Number.isDecimalPart).length + 1 = l.limit ∧
    ∃ c rest, cs.dropWhile Number.isDecimalPart = '.' :: c :: rest

/-- Operators make up the limit, and a comment follows them. -/
def CommentAhead (l : Lexer) (first : Char) (cs : List Char) : Prop :=
  isGraphic first = true ∧ (l.uncut first cs).key = .simple .graphics ∧
    (l.uncut first cs).length = l.limit ∧ Lexeme.opensComment (cs.drop (l.limit - 1)) = true

theorem pointAhead_of_endsAtPoint (hn : l.limit < cs.length)
    (h : Lexeme.EndsAtPoint first (cs.take l.limit)) : l.PointAhead first cs := by
  obtain ⟨hd, hpoint⟩ := h
  have hne : (cs.take l.limit).dropWhile Number.isDecimalPart ≠ [] := by simp [hpoint]
  have hdrop := Scan.dropWhile_settled (cs.drop l.limit) hne
  have htake := Scan.takeWhile_settled (cs.drop l.limit) hne
  rw [List.take_append_drop] at hdrop htake
  refine ⟨hd, ?_, ?_⟩
  · have hlength := congrArg List.length
      (List.takeWhile_append_dropWhile (p := Number.isDecimalPart) (l := cs.take l.limit))
    rw [hpoint, List.length_append, List.length_take, Nat.min_eq_left (Nat.le_of_lt hn),
      ← htake] at hlength
    exact hlength
  · obtain ⟨c, rest, hmore⟩ : ∃ c rest, cs.drop l.limit = c :: rest :=
      List.exists_cons_of_ne_nil (by simpa using hn)
    exact ⟨c, rest, by rw [hdrop, hpoint, hmore]; rfl⟩

theorem commentAhead_of_stopsAtSlash (hn : l.limit < cs.length) (hl : 0 < l.limit)
    (h : Lexeme.StopsAtSlash first (cs.drop l.limit)
      (Lexeme.recognize l.atStart l.docComments first cs)) : l.CommentAhead first cs := by
  obtain ⟨hg, hk, hrest, ho⟩ := h
  have hlength : (l.uncut first cs).length = l.limit := by
    change cs.length + 1 - _ = _
    rw [hrest, List.length_cons, List.length_drop]
    omega
  refine ⟨hg, hk, hlength, ?_⟩
  have hsuffix := Lexeme.recognize_rest_suffix l.atStart l.docComments first cs
  rw [hrest] at hsuffix
  rw [List.suffix_iff_eq_drop.1 hsuffix, List.length_cons, List.length_drop] at ho
  rwa [show l.limit - 1 = cs.length - (cs.length - l.limit + 1) by omega]

/-- The first scan of a text either finds what there is, or finds more than the limit, if the token
is not one of those that look at two more characters. -/
theorem longer_of_starved (hl : 0 < l.limit) (hp : ¬l.PointAhead first cs)
    (hc : ¬l.CommentAhead first cs) (h : l.starves first (cs.take l.limit) = true)
    (hn : l.limit < cs.length) :
    l.limit < (l.uncut first (cs.take l.limit)).length ∧ l.limit < (l.uncut first cs).length := by
  have hreach := Lexeme.recognize_readsOn (cs.drop l.limit) h
  rw [List.take_append_drop] at hreach
  rcases hreach with hpoint | ⟨hrest, hmore | hslash⟩
  · exact absurd (pointAhead_of_endsAtPoint hn hpoint) hp
  · constructor
    · change _ < (cs.take l.limit).length + 1 - _
      rw [hrest, List.length_take]
      simp only [List.length_nil]
      omega
    · change _ < cs.length + 1 - _
      have hle := hmore.length_le
      rw [List.length_drop] at hle
      omega
  · exact absurd (commentAhead_of_stopsAtSlash hn hl hslash) hc

/-- A token that is longer than the limit is cut when it is read again within the limit. -/
theorem tooLong_of_longer (hl : 0 < l.limit) (h : l.limit < (l.uncut first cs).length) :
    ∃ e, l.lexemeWithin l.limit true first cs = some e ∧ e.TooLong l.limit := by
  obtain ⟨n, hn⟩ : ∃ n, l.limit = n + 1 := ⟨l.limit - 1, by omega⟩
  have hlength := l.uncut_length_le first cs
  by_cases hs : l.starves first (cs.take n) = true
  · rw [hn, lexemeWithin_starved hs (by omega)]
    exact ⟨_, rfl, _, rfl, l.uncut_found first _⟩
  · have hw := lexemeWithin_uncut fun hs' => absurd hs' hs
    have hle := lexemeWithin_length_le hw (Nat.succ_pos n)
    omega

/-- A token with as many characters as the limit at most is found as it is, and any other is cut,
apart from those that look at two more characters. -/
theorem nextLexeme_limited (hl : 0 < l.limit) (hp : ¬l.PointAhead first cs)
    (hc : ¬l.CommentAhead first cs) :
    ((l.uncut first cs).length ≤ l.limit ∧ l.nextLexeme true first cs = some (l.uncut first cs)) ∨
      (l.limit < (l.uncut first cs).length ∧
        ∃ e, l.nextLexeme true first cs = some e ∧ e.TooLong l.limit) := by
  unfold nextLexeme
  by_cases hs : l.starves first (cs.take l.limit) = true ∧ l.limit < cs.length
  · obtain ⟨hfirst, hlonger⟩ := longer_of_starved hl hp hc hs.1 hs.2
    rw [lexemeWithin_starved hs.1 hs.2]
    dsimp only
    rw [if_neg (Nat.not_le_of_lt hfirst)]
    exact .inr ⟨hlonger, tooLong_of_longer hl hlonger⟩
  · rw [lexemeWithin_uncut fun hs' => Nat.le_of_not_lt fun hn => hs ⟨hs', hn⟩]
    dsimp only
    split
    · next hle => exact .inl ⟨hle, rfl⟩
    · next hlt => exact .inr ⟨Nat.lt_of_not_le hlt, tooLong_of_longer hl (Nat.lt_of_not_le hlt)⟩

theorem PointAhead.limit_le (h : l.PointAhead first cs) : l.limit ≤ (l.uncut first cs).length := by
  obtain ⟨hd, hlimit, -⟩ := h
  have hrest := (Number.literal_rest_suffix_digits first cs).length_le
  have hlength := congrArg List.length
    (List.takeWhile_append_dropWhile (p := Number.isDecimalPart) (l := cs))
  rw [List.length_append] at hlength
  unfold uncut Lexeme.length
  rw [Lexeme.recognize_digit _ _ _ hd]
  dsimp only
  omega

/-- Digits in front of a point are cut at once, in the name of one character more. -/
theorem PointAhead.nextLexeme (h : l.PointAhead first cs) :
    l.nextLexeme true first cs = some ⟨.simple .integer, l.limit,
      [⟨.tooManyCharacters, [toString (l.limit + 1)]⟩]⟩ := by
  obtain ⟨hd, hlimit, c, rest, hrest⟩ := h
  have hcs : cs = cs.takeWhile Number.isDecimalPart ++ '.' :: c :: rest := by
    rw [← hrest, List.takeWhile_append_dropWhile]
  have hlength := congrArg List.length hcs
  rw [List.length_append, List.length_cons, List.length_cons] at hlength
  have htake : cs.take l.limit = cs.takeWhile Number.isDecimalPart ++ ['.'] := by
    rw [← hlimit]
    have hdigits (digits : List Char) (he : cs = digits ++ '.' :: c :: rest) :
        cs.take (digits.length + 1) = digits ++ ['.'] := by
      rw [he]
      exact List.take_length_add_append 1
    exact hdigits _ hcs
  have hpoint : (cs.take l.limit).dropWhile Number.isDecimalPart = ['.'] := by
    rw [htake, List.dropWhile_append_of_pos (List.all_eq_true.1 List.all_takeWhile)]
    rfl
  have hnumber : Lexeme.recognize l.atStart l.docComments first (cs.take l.limit) =
      ⟨.simple .integer, ⟨['.'], true, []⟩⟩ := by
    rw [Lexeme.recognize_digit _ _ _ hd, Number.literal_eq_decimal (by simp [hpoint]), hpoint]
    rfl
  have hs : l.starves first (cs.take l.limit) = true := by
    unfold starves
    rw [hnumber]
  unfold Lexer.nextLexeme
  rw [lexemeWithin_starved hs (by omega)]
  have hu : l.uncut first (cs.take l.limit) = ⟨.simple .integer, l.limit, []⟩ := by
    unfold uncut Lexeme.length
    rw [hnumber, List.length_take, Nat.min_eq_left (by omega)]
    rfl
  rw [hu]
  dsimp only
  rw [if_pos (Nat.le_refl _)]
  rfl

theorem uncut_of_operators {cs : List Char} (ho : Lexeme.OpensOperators l.atStart first cs)
    (hs : l.starves first cs = true) :
    l.uncut first cs = ⟨.simple .graphics, cs.length + 1, []⟩ := by
  unfold starves at hs
  unfold uncut
  rw [ho.recognize_eq] at hs ⊢
  have hrest : (Lexeme.graphics cs).rest = [] := (Lexeme.graphics_readsOn [] hs).1
  simp [Lexeme.ofScan, Lexeme.length, hrest, Lexeme.graphics_findings]

theorem CommentAhead.uncut_eq (h : l.CommentAhead first cs) :
    l.uncut first cs = ⟨.simple .graphics, l.limit, []⟩ := by
  obtain ⟨hg, hk, hlength, -⟩ := h
  have ho : Lexeme.OpensOperators l.atStart first cs := .of_key hg hk
  have hfindings : (l.uncut first cs).findings = [] := by
    rw [uncut, ho.recognize_eq]
    exact Lexeme.graphics_findings cs
  rw [← hk, ← hlength, ← hfindings]

theorem CommentAhead.nextLexeme (h : l.CommentAhead first cs) (hl : 0 < l.limit) :
    l.nextLexeme true first cs = some ⟨.simple .graphics, l.limit,
      [⟨.tooManyCharacters, [toString l.limit]⟩]⟩ := by
  obtain ⟨hg, hk, hlength, hcomment⟩ := h
  obtain ⟨n, hn⟩ : ∃ n, l.limit = n + 1 := ⟨l.limit - 1, by omega⟩
  have ho : Lexeme.OpensOperators l.atStart first cs := .of_key hg hk
  rw [hn, Nat.add_sub_cancel] at hcomment
  obtain ⟨c, rest, hdrop⟩ : ∃ c rest, cs.drop n = '/' :: c :: rest := by
    unfold Lexeme.opensComment at hcomment
    split at hcomment
    · next he => exact ⟨_, _, he⟩
    · next he => exact ⟨_, _, he⟩
    · cases hcomment
  have hlt : n + 1 < cs.length := by
    have hlen := congrArg List.length hdrop
    rw [List.length_drop, List.length_cons, List.length_cons] at hlen
    omega
  have hslash : cs.take (n + 1) = cs.take n ++ ['/'] := by
    rw [List.take_add, hdrop]
    rfl
  -- the slash alone does not stop the operators, so that both scans are starved
  have hfirst : l.starves first (cs.take (n + 1)) = true := by
    by_contra hs
    rw [Bool.not_eq_true] at hs
    rw [(uncut_of_settled hs).1, uncut, (ho.take _).recognize_eq] at hlength
    have hsuffix := Lexeme.graphics_rest_suffix (cs.take (n + 1))
    have hone : (Lexeme.graphics (cs.take (n + 1))).rest.length = 1 := by
      have hle := hsuffix.length_le
      simp only [Lexeme.length, Lexeme.ofScan, List.length_take] at hlength hle
      omega
    refine Lexeme.graphics_rest_ne_slash (cs.take (n + 1)) ?_
    rw [hslash] at hsuffix hone ⊢
    rw [List.suffix_iff_eq_drop.1 hsuffix, hone, List.length_append]
    exact List.drop_left
  have hagain : l.starves first (cs.take n) = true := by
    by_contra hs
    rw [Bool.not_eq_true] at hs
    have hpart : (cs.take (n + 1)).take n = cs.take n := by
      rw [List.take_take, Nat.min_eq_left (Nat.le_succ n)]
    rw [(uncut_of_settled (hpart ▸ hs)).2] at hfirst
    cases hfirst
  unfold Lexer.nextLexeme
  rw [hn, lexemeWithin_starved hfirst hlt, uncut_of_operators (ho.take _) hfirst]
  dsimp only
  rw [List.length_take, Nat.min_eq_left (Nat.le_of_lt hlt), if_neg (by omega),
    lexemeWithin_starved hagain (by omega), uncut_of_operators (ho.take _) hagain]
  dsimp only
  rw [List.length_take, Nat.min_eq_left (by omega)]
  rfl

end Lexer

/-- What a limit may do to the token `u`: if it has no more characters than that, nothing; otherwise
it is cut, and that is reported once. -/
structure Token.Limited (limit : Nat) (u t : Token) : Prop where
  kept : u.text.length ≤ limit → t = u ∧ t.errors.reportsOf .tooManyCharacters = []
  cut : limit < u.text.length → t.text ≠ "" ∧ t.text.toList <+: u.text.toList ∧
    t.text.length ≤ limit ∧
    (t.errors.reportsOf .tooManyCharacters).map (·.args) = [[toString limit]]

namespace Lexer

variable {l : Lexer} {b : Backlog} {source : String} {first : Char} {cs : List Char}

theorem parse_token {e : Extent} (hs : l.source = some source) (hp : l.pending = none)
    (he : l.ended = false) (hb : b.rest = first :: cs)
    (hn : l.nextLexeme true first cs = some e) :
    l.parse b true = .ok (.outputAvailable, l.take source e ((first :: cs).take e.length),
      b.consume e.length) := by
  simp only [parse, hs, hp, he, hb, hn, Option.isSome_none, Bool.false_eq_true, if_false]

def tokenOf (l : Lexer) (source : String) (first : Char) (cs : List Char) (e : Extent) : Token :=
  l.made source e ((first :: cs).take e.length)

theorem tokenOf_text_toList (e : Extent) :
    (l.tokenOf source first cs e).text.toList = (first :: cs).take e.length :=
  String.toList_ofList

theorem tokenOf_text_length (l : Lexer) (source : String) (first : Char) {e : Extent}
    (h : e.length ≤ cs.length + 1) :
    (l.tokenOf source first cs e).text.length = e.length := by
  rw [← String.length_toList, tokenOf_text_toList, List.length_take, List.length_cons,
    Nat.min_eq_left h]

theorem tokenOf_text_prefix {d e : Extent} (h : d.length ≤ e.length) :
    (l.tokenOf source first cs d).text.toList <+: (l.tokenOf source first cs e).text.toList := by
  rw [tokenOf_text_toList, tokenOf_text_toList]
  exact List.take_prefix_take_left h

theorem limited_tokenOf {e : Extent} (hl : 0 < l.limit) (hp : ¬l.PointAhead first cs)
    (hc : ¬l.CommentAhead first cs) (hn : l.nextLexeme true first cs = some e) :
    Token.Limited l.limit (l.tokenOf source first cs (l.uncut first cs))
      (l.tokenOf source first cs e) := by
  have hu := l.uncut_length_le first cs
  have htext := l.tokenOf_text_length source first hu
  obtain ⟨hpos, hle⟩ := nextLexeme_length hn
  have hlimit := nextLexeme_length_le hn hl
  rcases nextLexeme_limited hl hp hc with ⟨hshort, hsame⟩ | ⟨hlong, e', he', hcut⟩
  · obtain rfl : l.uncut first cs = e := Option.some.inj (hsame.symm.trans hn)
    refine ⟨fun _ => ⟨rfl, Extent.reportsOf_made (l.uncut_found first cs) _ _ _⟩, fun hlt => ?_⟩
    omega
  · obtain rfl : e' = e := Option.some.inj (he'.symm.trans hn)
    have htext' := l.tokenOf_text_length source first hle
    refine ⟨fun hshort => ?_, fun _ => ⟨fun hempty => ?_, tokenOf_text_prefix (by omega), ?_, ?_⟩⟩
    · omega
    · rw [hempty] at htext'
      exact absurd htext' (Nat.ne_of_lt hpos)
    · omega
    · exact hcut.reportsOf_made _ _ _

/-- A limit leaves the tokens alone that are not longer, cuts the others and reports it once. Two
forms of tokens are reported that just reach the limit: digits in front of a point, with one
character more as the limit, and operators in front of a comment. -/
theorem limit_cuts_longer {n : Nat} (hs : l.source = some source) (hp : l.pending = none)
    (he : l.ended = false) (hb : b.rest = first :: cs) (hl : 0 < l.limit) (hn : cs.length < n) :
    ∃ t l₁ b₁ u l₂ b₂, l.parse b true = .ok (.outputAvailable, l₁, b₁) ∧ l₁.pending = some t ∧
      { l with limit := n }.parse b true = .ok (.outputAvailable, l₂, b₂) ∧
      l₂.pending = some u ∧
      (¬l.PointAhead first cs → ¬l.CommentAhead first cs → Token.Limited l.limit u t) ∧
      (l.PointAhead first cs →
        t.key = .simple .integer ∧ t.text.toList = (first :: cs).take l.limit ∧
        t.text.toList <+: u.text.toList ∧
        (t.errors.reportsOf .tooManyCharacters).map (·.args) = [[toString (l.limit + 1)]]) ∧
      (l.CommentAhead first cs →
        t.key = u.key ∧ t.text = u.text ∧ u.text.length = l.limit ∧ u.errors = .nil ∧
        (t.errors.reportsOf .tooManyCharacters).map (·.args) = [[toString l.limit]]) := by
  obtain ⟨e, hnext⟩ := l.nextLexeme_final first cs
  let unlimited : Lexer := { l with limit := n }
  have huncut : unlimited.nextLexeme true first cs = some (l.uncut first cs) :=
    nextLexeme_uncut hn
  refine ⟨l.tokenOf source first cs e, _, _, l.tokenOf source first cs (l.uncut first cs), _, _,
    parse_token hs hp he hb hnext, rfl, parse_token (l := unlimited) hs hp he hb huncut, rfl,
    fun hpoint hcomment => limited_tokenOf hl hpoint hcomment hnext, fun hpoint => ?_,
    fun hcomment => ?_⟩
  · obtain rfl := Option.some.inj (hpoint.nextLexeme.symm.trans hnext)
    refine ⟨rfl, tokenOf_text_toList _, tokenOf_text_prefix hpoint.limit_le, ?_⟩
    exact Extent.TooLong.reportsOf_made ⟨[], rfl, List.forall_mem_nil _⟩ _ _ _
  · obtain rfl := Option.some.inj ((hcomment.nextLexeme hl).symm.trans hnext)
    have hu : l.uncut first cs = ⟨.simple .graphics, l.limit, []⟩ := hcomment.uncut_eq
    rw [hu]
    refine ⟨rfl, rfl, ?_, rfl, ?_⟩
    · exact l.tokenOf_text_length source first (hu ▸ l.uncut_length_le first cs)
    · exact Extent.TooLong.reportsOf_made ⟨[], rfl, List.forall_mem_nil _⟩ _ _ _

/-- A word of four characters is cut when three are allowed. -/
theorem limit_cuts_longer_word :
    let l : Lexer := { Lexer.new (Settings.standard.withMaxTokenLength 3) with source := some "in" }
    ∃ t l₁ b₁ u l₂ b₂,
      l.parse (.ofText "abcd") true = .ok (.outputAvailable, l₁, b₁) ∧ l₁.pending = some t ∧
      { l with limit := 4 }.parse (.ofText "abcd") true = .ok (.outputAvailable, l₂, b₂) ∧
      l₂.pending = some u ∧ Token.Limited 3 u t := by
  intro l
  obtain ⟨t, l₁, b₁, u, l₂, b₂, ht, htp, hu, hup, hlimited, -⟩ :=
    limit_cuts_longer (l := l) (b := .ofText "abcd") (n := 4) rfl rfl rfl
      (show _ = 'a' :: ['b', 'c', 'd'] from rfl) (by decide) (by decide)
  have hdigit : ¬isDigit 'a' = true := by decide
  have hgraphic : ¬isGraphic 'a' = true := by decide
  exact ⟨t, l₁, b₁, u, l₂, b₂, ht, htp, hu, hup,
    hlimited (fun h => hdigit h.1) fun h => hgraphic h.1⟩

/-- A digit in front of a point is reported to be too long, though it just reaches the limit. -/
theorem limit_reports_digit :
    let l : Lexer := { Lexer.new (Settings.standard.withMaxTokenLength 1) with source := some "in" }
    ∃ t l₁ b₁ u l₂ b₂,
      l.parse (.ofText "1.x") true = .ok (.outputAvailable, l₁, b₁) ∧ l₁.pending = some t ∧
      { l with limit := 3 }.parse (.ofText "1.x") true = .ok (.outputAvailable, l₂, b₂) ∧
      l₂.pending = some u ∧ u.text = "1" ∧ t ≠ u ∧ ¬Token.Limited 1 u t := by
  refine ⟨_, _, _, _, _, _, rfl, rfl, rfl, rfl, rfl, by decide, fun h => ?_⟩
  exact absurd (h.kept (by decide)).1 (by decide)

end Lexer

end TermStream
