import TermStream.Proofs.Token.Suffix

namespace TermStream.Quotation

open Text

/-- The well-formed escapes, without their backslash. -/
inductive IsEscape : List Char → Prop where
  | simple {c : Char} (hc : c ∈ ['n', 'r', 't', '0', '\\', '\'', '"']) : IsEscape [c]
  | byte {a b : Char} (ha : isHexDigit a = true) (hb : isHexDigit b = true) : IsEscape ['x', a, b]
  | codePoint {digits : List Char} (hn : digits ≠ []) (hl : digits.length ≤ 6)
      (hd : ∀ d ∈ digits, isHexDigit d = true) : IsEscape ('u' :: '\x7b' :: (digits ++ ['\x7d']))

/-- What a well-formed escape may begin with. -/
def IsStart (part : List Char) : Prop := ∃ more, IsEscape (part ++ more)

/-- What a malformed escape takes, if a well-formed one may begin with `part` and the next character
is `next`. -/
def malformedTakes (next : Char) (part : List Char) : List Char :=
  if part = [] then if isLineBreak next then [] else [next] else part

def shown (next : Char) : String := if isLineBreak next then showChar next else next.toString

/-- What a backslash takes of a text of which it leaves `rest`, and the character behind it if the
escape is malformed. A backslash at the end of the text takes nothing. -/
inductive Escaped (rest : List Char) : List Char → Option Char → Prop where
  | wellFormed {chars : List Char} (h : IsEscape chars) : Escaped rest chars none
  | malformed {chars cs part : List Char} {next : Char} (ht : chars ++ rest = next :: cs)
      (hn : ∀ e, IsEscape e → ¬e <+: next :: cs) (hp : IsLongest IsStart part (next :: cs))
      (hc : chars = malformedTakes next part) : Escaped rest chars (some next)
  | last (hr : rest = []) : Escaped rest [] none

def escapeFindings (error : Option Char) : List Finding :=
  error.toList.map fun next => ⟨.invalidEscape, [shown next]⟩

variable {part other text more digits : List Char} {c : Char}

theorem IsEscape.ne_nil (h : IsEscape part) : part ≠ [] := by
  cases h <;> exact List.cons_ne_nil _ _

theorem isEscape_byte_iff : IsEscape ('x' :: part) ↔
    ∃ a b, part = [a, b] ∧ isHexDigit a = true ∧ isHexDigit b = true := by
  constructor
  · intro h
    cases h with
    | simple hc => exact absurd hc (by decide)
    | byte ha hb => exact ⟨_, _, rfl, ha, hb⟩
  · rintro ⟨a, b, rfl, ha, hb⟩
    exact .byte ha hb

theorem isEscape_codePoint_iff : IsEscape ('u' :: part) ↔
    ∃ digits, part = '\x7b' :: (digits ++ ['\x7d']) ∧ digits ≠ [] ∧ digits.length ≤ 6 ∧
      ∀ d ∈ digits, isHexDigit d = true := by
  constructor
  · intro h
    cases h with
    | simple hc => exact absurd hc (by decide)
    | codePoint hn hl hd => exact ⟨_, rfl, hn, hl, hd⟩
  · rintro ⟨digits, rfl, hn, hl, hd⟩
    exact .codePoint hn hl hd

theorem isEscape_other (hx : c ≠ 'x') (hu : c ≠ 'u') (h : IsEscape (c :: part)) :
    c ∈ ['n', 'r', 't', '0', '\\', '\'', '"'] ∧ part = [] := by
  cases h with
  | simple hc => exact ⟨hc, rfl⟩
  | byte ha hb => exact absurd rfl hx
  | codePoint hn hl hd => exact absurd rfl hu

theorem length_le_of_brace {ds : List Char} (hd : ∀ d ∈ ds, isHexDigit d = true)
    (h : digits ++ ['\x7d'] <+: ds ++ more) : ds.length ≤ digits.length := by
  apply Nat.le_of_not_lt
  intro hlt
  have hds : digits ++ ['\x7d'] <+: ds :=
    List.prefix_of_prefix_length_le h (List.prefix_append _ _)
      (by simpa using Nat.succ_le_of_lt hlt)
  have hbrace := hd '\x7d' (hds.subset (by simp))
  exact absurd hbrace (by decide)

/-- No well-formed escape is the beginning of another one. -/
theorem IsEscape.eq_of_prefix (h : IsEscape part) (h' : IsEscape other) (hp : part <+: other) :
    part = other := by
  apply hp.eq_of_length_le
  obtain ⟨more, rfl⟩ := hp
  cases h with
  | simple hc =>
    have hother : ∀ d ∈ ['n', 'r', 't', '0', '\\', '\'', '"'], d ≠ 'x' ∧ d ≠ 'u' := by simp
    rw [List.singleton_append] at h' ⊢
    obtain ⟨-, rfl⟩ := isEscape_other (hother _ hc).1 (hother _ hc).2 h'
    exact Nat.le_refl _
  | byte ha hb =>
    rw [List.cons_append] at h' ⊢
    obtain ⟨a, b, he, -⟩ := isEscape_byte_iff.1 h'
    rw [he]
    exact Nat.le_refl _
  | codePoint hn hl hd =>
    rw [List.cons_append] at h' ⊢
    obtain ⟨ds, he, -, -, hds⟩ := isEscape_codePoint_iff.1 h'
    rw [he]
    have hle := length_le_of_brace hds ⟨more, (List.cons.inj he).2⟩
    simp only [List.length_append, List.length_cons, List.length_nil]
    omega

theorem IsEscape.eq_of_isLongest (he : IsEscape other) (h : IsLongest IsStart part text)
    (hp : other <+: text) : part = other := by
  have hle := h.longest other hp ⟨[], by rwa [List.append_nil]⟩
  have hpart : other <+: part := List.prefix_of_prefix_length_le hp h.isPart hle
  obtain ⟨more, hm⟩ := h.accepted
  have hother := he.eq_of_prefix hm (hpart.trans (List.prefix_append part more))
  apply (hpart.eq_of_length_le _).symm
  rw [hother, List.length_append]
  exact Nat.le_add_right _ _

theorem IsEscape.isLongestStart (h : IsEscape part) (rest : List Char) :
    IsLongest IsStart part (part ++ rest) := by
  refine ⟨List.prefix_append part rest, ⟨[], by rwa [List.append_nil]⟩, ?_⟩
  rintro other ho ⟨more, hm⟩
  apply Nat.le_of_not_lt
  intro hlt
  have hp : part <+: other := List.prefix_of_prefix_length_le (List.prefix_append part rest) ho
    (Nat.le_of_lt hlt)
  have he := h.eq_of_prefix hm (hp.trans (List.prefix_append other more))
  rw [he, List.length_append] at hlt
  omega

theorem isLongestStart_byte {ds rest : List Char} (hl : ds.length < 2)
    (hd : ∀ d ∈ ds, isHexDigit d = true) (hr : ∀ c ∈ rest.head?, isHexDigit c = false) :
    IsLongest IsStart ('x' :: ds) ('x' :: (ds ++ rest)) ∧ ¬IsEscape ('x' :: ds) := by
  constructor
  · constructor
    · exact List.prefix_append ('x' :: ds) rest
    · have hzero : isHexDigit '0' = true := by decide
      match ds, hl, hd with
      | [], _, _ => exact ⟨['0', '0'], .byte hzero hzero⟩
      | [a], _, hd => exact ⟨['0'], .byte (hd a (by simp)) hzero⟩
    · rintro other ho ⟨more, hm⟩
      cases other with
      | nil => exact Nat.zero_le _
      | cons c other =>
        obtain ⟨rfl, hw⟩ := List.cons_prefix_cons.1 ho
        obtain ⟨a, b, he, ha, hb⟩ := isEscape_byte_iff.1 hm
        apply Nat.succ_le_succ
        apply Scan.length_le_of_stops hw _ hr
        intro d hmem
        have hmem : d ∈ [a, b] := he ▸ List.mem_append_left more hmem
        simp only [List.mem_cons, List.not_mem_nil, or_false] at hmem
        rcases hmem with rfl | rfl
        · exact ha
        · exact hb
  · intro h
    obtain ⟨a, b, rfl, -⟩ := isEscape_byte_iff.1 h
    exact absurd hl (by simp)

theorem isEscape_zero : IsEscape ['u', '\x7b', '0', '\x7d'] :=
  .codePoint (List.cons_ne_nil '0' []) (by simp) (List.all_eq_true.1 rfl)

theorem isLongestStart_codePoint {ds rest : List Char} (hl : ds.length ≤ 6)
    (hd : ∀ d ∈ ds, isHexDigit d = true)
    (hr : ds.length < 6 → ∀ c ∈ rest.head?, isHexDigit c = false)
    (hn : ds = [] ∨ rest.head? ≠ some '\x7d') :
    IsLongest IsStart ('u' :: '\x7b' :: ds) ('u' :: '\x7b' :: (ds ++ rest)) ∧
      ¬IsEscape ('u' :: '\x7b' :: ds) := by
  constructor
  · constructor
    · exact List.prefix_append ('u' :: '\x7b' :: ds) rest
    · cases ds with
      | nil => exact ⟨['0', '\x7d'], isEscape_zero⟩
      | cons d ds => exact ⟨['\x7d'], .codePoint (List.cons_ne_nil d ds) hl hd⟩
    · rintro other ho ⟨more, hm⟩
      cases other with
      | nil => exact Nat.zero_le _
      | cons c other =>
        obtain ⟨rfl, hw⟩ := List.cons_prefix_cons.1 ho
        obtain ⟨digits, he, hne, hle, hdigits⟩ := isEscape_codePoint_iff.1 hm
        apply Nat.succ_le_succ
        cases other with
        | nil => exact Nat.zero_le _
        | cons c other =>
          obtain ⟨rfl, hv⟩ := List.cons_prefix_cons.1 hw
          have he : other ++ more = digits ++ ['\x7d'] := (List.cons.inj he).2
          apply Nat.succ_le_succ
          -- the digits of the escape are among those of the text
          have hshort {part : List Char} (hp : part <+: digits) (ht : part <+: ds ++ rest) :
              part.length ≤ ds.length := by
            by_cases hsix : ds.length < 6
            · exact Scan.length_le_of_stops ht (fun d hm => hdigits d (hp.subset hm)) (hr hsix)
            · have := hp.length_le
              omega
          rcases Nat.lt_or_ge digits.length other.length with hlt | hge
          · -- the escape is complete, so its brace follows the digits of the text
            obtain rfl : other = digits ++ ['\x7d'] :=
              List.IsPrefix.eq_of_length_le ⟨more, he⟩ (by simpa using Nat.succ_le_of_lt hlt)
            have hpart : digits <+: ds ++ rest := (List.prefix_append _ _).trans hv
            obtain rfl : digits = ds :=
              (List.prefix_of_prefix_length_le hpart (List.prefix_append ds rest)
                (hshort (List.prefix_refl _) hpart)).eq_of_length_le (length_le_of_brace hd hv)
            obtain ⟨after, rfl⟩ := (List.prefix_append_right_inj digits).1 hv
            exact (hn.elim hne fun hhead => hhead rfl).elim
          · have hle := List.prefix_of_prefix_length_le ⟨more, he⟩ (List.prefix_append _ _) hge
            exact hshort hle hv
  · intro h
    obtain ⟨digits, he, -⟩ := isEscape_codePoint_iff.1 h
    have he : ds = digits ++ ['\x7d'] := (List.cons.inj he).2
    exact absurd (hd '\x7d' (by simp [he])) (by decide)

theorem isLongestStart_nil {rest : List Char} (hx : c ≠ 'x') (hu : c ≠ 'u')
    (hc : c ∉ ['n', 'r', 't', '0', '\\', '\'', '"']) : IsLongest IsStart [] (c :: rest) := by
  constructor
  · exact List.nil_prefix
  · exact ⟨['n'], .simple (by decide)⟩
  · rintro other ho ⟨more, hm⟩
    cases other with
    | nil => exact Nat.le_refl _
    | cons d other =>
      obtain ⟨rfl, -⟩ := List.cons_prefix_cons.1 ho
      exact absurd (isEscape_other hx hu hm).1 hc

theorem Escaped.malformed_of_start {rest chars cs : List Char} {next : Char}
    (hp : IsLongest IsStart part (next :: cs)) (he : ¬IsEscape part)
    (ht : chars ++ rest = next :: cs) (hc : chars = malformedTakes next part) :
    Escaped rest chars (some next) := by
  apply Escaped.malformed ht _ hp hc
  intro e hescape hprefix
  exact he (hescape.eq_of_isLongest hp hprefix ▸ hescape)

/-- What a backslash takes is determined by the text behind it. -/
theorem Escaped.unique {rest rest' chars chars' : List Char} {error error' : Option Char}
    (h : Escaped rest chars error) (h' : Escaped rest' chars' error')
    (ht : chars ++ rest = chars' ++ rest') : chars = chars' ∧ error = error' := by
  cases h with
  | wellFormed he =>
    cases h' with
    | wellFormed he' =>
      have hs := he.isLongestStart rest
      exact ⟨hs.unique (ht ▸ he'.isLongestStart rest'), rfl⟩
    | malformed ht' hn hp hc => exact absurd ⟨rest, ht.trans ht'⟩ (hn chars he)
    | last hr =>
      subst hr
      exact absurd (List.append_eq_nil_iff.1 ht).1 he.ne_nil
  | malformed ht₁ hn hp hc =>
    cases h' with
    | wellFormed he' => exact absurd ⟨rest', ht.symm.trans ht₁⟩ (hn chars' he')
    | malformed ht' hn' hp' hc' =>
      obtain ⟨rfl, rfl⟩ := List.cons.inj (ht₁.symm.trans (ht.trans ht'))
      exact ⟨by rw [hc, hc', hp.unique hp'], rfl⟩
    | last hr =>
      subst hr
      cases ht₁.symm.trans ht
  | last hr =>
    subst hr
    cases h' with
    | wellFormed he' => exact absurd (List.append_eq_nil_iff.1 ht.symm).1 he'.ne_nil
    | malformed ht' hn hp hc => cases ht.trans ht'
    | last hr => exact ⟨rfl, rfl⟩

def Finds (cs : List Char) (s : Scan) : Prop :=
  ∃ chars error, cs = chars ++ s.rest ∧ Escaped s.rest chars error ∧
    s.findings = escapeFindings error

theorem exists_hexDigits (n : Nat) (cs : List Char) :
    ∃ ds, cs = ds ++ (hexDigits n cs).rest ∧ (∀ d ∈ ds, isHexDigit d = true) ∧
      (ds.length = n ∧ (hexDigits n cs).findings = [] ∨
        ds.length < n ∧ (∀ c ∈ (hexDigits n cs).rest.head?, isHexDigit c = false) ∧
          (hexDigits n cs).findings = [⟨.invalidEscape, ["x"]⟩]) := by
  fun_induction hexDigits n cs with
  | case1 cs => exact ⟨[], rfl, by simp, .inl ⟨rfl, rfl⟩⟩
  | case2 n => exact ⟨[], rfl, by simp, .inr ⟨Nat.succ_pos n, by simp, rfl⟩⟩
  | case3 n c cs hc ih =>
    obtain ⟨ds, hcs, hd, hcase⟩ := ih
    refine ⟨c :: ds, congrArg (c :: ·) hcs, List.forall_mem_cons.2 ⟨hc, hd⟩, ?_⟩
    exact hcase.imp (And.imp_left (congrArg (· + 1))) (And.imp_left Nat.succ_lt_succ)
  | case4 n c cs hc =>
    refine ⟨[], rfl, by simp, .inr ⟨Nat.succ_pos n, ?_, rfl⟩⟩
    intro d hd
    cases hd
    simpa using hc

theorem finds_byte (cs : List Char) : Finds ('x' :: cs) (hexDigits 2 cs) := by
  obtain ⟨ds, hcs, hd, ⟨hl, hf⟩ | ⟨hl, hr, hf⟩⟩ := exists_hexDigits 2 cs
  · match ds, hl with
    | [a, b], _ =>
      have he : IsEscape ['x', a, b] := .byte (hd a (by simp)) (hd b (by simp))
      exact ⟨['x', a, b], none, congrArg ('x' :: ·) hcs, .wellFormed he, hf⟩
  · obtain ⟨hp, he⟩ := isLongestStart_byte hl hd hr
    exact ⟨'x' :: ds, some 'x', congrArg ('x' :: ·) hcs, .malformed_of_start hp he rfl rfl, hf⟩

theorem exists_sixDigits (cs : List Char) :
    ∃ ds rest, (cs.take 6).takeWhile isHexDigit = ds ∧ cs = ds ++ rest ∧ ds.length ≤ 6 ∧
      (∀ d ∈ ds, isHexDigit d = true) ∧
      (ds.length < 6 → ∀ c ∈ rest.head?, isHexDigit c = false) := by
  have hsplit : (cs.take 6).takeWhile isHexDigit ++ (cs.take 6).dropWhile isHexDigit = cs.take 6 :=
    List.takeWhile_append_dropWhile
  refine ⟨_, (cs.take 6).dropWhile isHexDigit ++ cs.drop 6, rfl, ?_, ?_, ?_, ?_⟩
  · rw [← List.append_assoc, hsplit, List.take_append_drop]
  · exact Nat.le_trans (List.takeWhile_prefix isHexDigit).length_le (List.length_take_le 6 cs)
  · exact List.all_eq_true.1 List.all_takeWhile
  · intro hl c hc
    cases hrest : (cs.take 6).dropWhile isHexDigit with
    | nil =>
      -- all of the text consists of digits
      rw [hrest, List.append_nil] at hsplit
      rw [hsplit, List.length_take] at hl
      rw [hrest, List.drop_eq_nil_of_le (by omega)] at hc
      cases hc
    | cons d rest =>
      rw [hrest] at hc
      cases hc
      apply Scan.head?_dropWhile isHexDigit (cs.take 6)
      rw [hrest]
      rfl

theorem finds_codePoint (cs : List Char) : Finds ('u' :: cs) (codePoint cs) := by
  by_cases hb : ∃ ds, cs = '\x7b' :: ds
  · obtain ⟨cs, rfl⟩ := hb
    obtain ⟨ds, rest, hds, rfl, hl, hd, hr⟩ := exists_sixDigits cs
    have hdrop : (ds ++ rest).drop ds.length = rest := List.drop_left
    simp only [codePoint, hds, hdrop]
    split
    · next d ds after =>
      have he : IsEscape ('u' :: '\x7b' :: (d :: ds ++ ['\x7d'])) :=
        .codePoint (List.cons_ne_nil d ds) hl hd
      exact ⟨_, none, by simp [Scan.stopped], .wellFormed he, rfl⟩
    · next hn =>
      have hbrace : ds = [] ∨ rest.head? ≠ some '\x7d' := by
        cases ds with
        | nil => exact .inl rfl
        | cons d ds =>
          right
          intro hhead
          obtain ⟨after, hafter⟩ := List.head?_eq_some_iff.1 hhead
          exact hn d ds after rfl hafter
      obtain ⟨hp, he⟩ := isLongestStart_codePoint hl hd hr hbrace
      exact ⟨'u' :: '\x7b' :: ds, some 'u', rfl, .malformed_of_start hp he rfl rfl, rfl⟩
  · have hp : IsLongest IsStart ['u'] ('u' :: cs) := by
      constructor
      · exact List.prefix_append ['u'] cs
      · exact ⟨['\x7b', '0', '\x7d'], isEscape_zero⟩
      · rintro other ho ⟨more, hm⟩
        match other, ho, hm with
        | [], _, _ => exact Nat.zero_le _
        | [_], _, _ => exact Nat.le_refl _
        | c :: d :: other, ho, hm =>
          obtain ⟨rfl, hv⟩ := List.cons_prefix_cons.1 ho
          obtain ⟨digits, he, -⟩ := isEscape_codePoint_iff.1 hm
          obtain rfl : d = '\x7b' := (List.cons.inj he).1
          obtain ⟨after, hafter⟩ := hv
          exact absurd ⟨_, hafter.symm⟩ hb
    have hn : ¬IsEscape ['u'] := by
      intro h
      obtain ⟨digits, he, -⟩ := isEscape_codePoint_iff.1 h
      cases he
    have hf : codePoint cs = (Scan.looked cs).found .invalidEscape ["u"] := by
      unfold codePoint
      split
      · next ds => exact absurd ⟨ds, rfl⟩ hb
      · rfl
    rw [hf]
    exact ⟨['u'], some 'u', rfl, .malformed_of_start hp hn rfl rfl, rfl⟩

/-- A scan behind a backslash takes what the backslash takes, and finds what is wrong with it. -/
theorem finds_escape (cs : List Char) : Finds cs (escape cs) := by
  cases cs with
  | nil => exact ⟨[], none, rfl, .last rfl, rfl⟩
  | cons c cs =>
    simp only [escape]
    split
    · next hc => exact ⟨[c], none, rfl, .wellFormed (.simple (List.contains_iff_mem.1 hc)), rfl⟩
    · next hc =>
      split
      · next hx => exact hx ▸ finds_byte cs
      · next hx =>
        split
        · next hu => exact hu ▸ finds_codePoint cs
        · next hu =>
          have hp : IsLongest IsStart [] (c :: cs) :=
            isLongestStart_nil hx hu fun hm => hc (List.contains_iff_mem.2 hm)
          have hn : ¬IsEscape [] := fun h => h.ne_nil rfl
          split
          · next hl =>
            refine ⟨[], some c, rfl, .malformed_of_start hp hn rfl ?_, ?_⟩
            · simp [malformedTakes, hl]
            · simp [escapeFindings, shown, hl, Scan.found, Scan.stopped]
          · next hl =>
            refine ⟨[c], some c, rfl, .malformed_of_start hp hn rfl ?_, ?_⟩
            · simp [malformedTakes, hl]
            · simp [escapeFindings, shown, hl, Scan.found, Scan.stopped]

end TermStream.Quotation
