import TermStream.Proofs.Token.Forms

namespace TermStream

open Text

namespace Number

/-- A digit, and digits and separators behind it. -/
def IsDigits (cs : List Char) : Prop :=
  ∃ first more, cs = first :: more ∧ isDigit first = true ∧ ∀ c ∈ more, isDecimalPart c = true

inductive IsFraction : List Char → Prop where
  | point {digits : List Char} (hd : IsDigits digits) : IsFraction ('.' :: digits)

/-- With a sign, an exponent needs no digits to be one. -/
inductive IsExponent : List Char → Prop where
  | unsigned {letter : Char} {digits : List Char} (hl : letter ∈ ['e', 'E'])
      (hd : IsDigits digits) : IsExponent (letter :: digits)
  | signed {letter sign : Char} {digits : List Char} (hl : letter ∈ ['e', 'E'])
      (hs : sign ∈ ['+', '-']) (hd : digits = [] ∨ IsDigits digits) :
      IsExponent (letter :: sign :: digits)

def Optional (language : List Char → Prop) (cs : List Char) : Prop := cs = [] ∨ language cs

variable {language : List Char → Prop} {part rest cs digits : List Char} {c : Char}

theorem isLongest_missing (h : ∀ other, language other → ¬other <+: cs) :
    IsLongest (Optional language) [] cs := by
  refine ⟨List.nil_prefix, .inl rfl, ?_⟩
  rintro other ho (rfl | hl)
  · exact Nat.le_refl _
  · exact absurd ho (h other hl)

theorem isLongest_present (hp : language part)
    (h : ∀ other, language other → other <+: part ++ rest → other.length ≤ part.length) :
    IsLongest (Optional language) part (part ++ rest) := by
  refine ⟨List.prefix_append part rest, .inr hp, ?_⟩
  rintro other ho (rfl | hl)
  · exact Nat.zero_le _
  · exact h other hl ho

theorem IsDigits.all (h : IsDigits digits) : ∀ c ∈ digits, isDecimalPart c = true := by
  obtain ⟨first, more, rfl, hf, hm⟩ := h
  exact List.forall_mem_cons.2 ⟨by rw [isDecimalPart, hf, Bool.true_or], hm⟩

theorem IsDigits.head (h : IsDigits digits) (hp : digits <+: c :: cs) : isDigit c = true := by
  obtain ⟨first, more, rfl, hf, hm⟩ := h
  rw [← (List.cons_prefix_cons.1 hp).1]
  exact hf

theorem IsDigits.not_nil (h : IsDigits digits) : ¬digits <+: [] := by
  obtain ⟨first, more, rfl, hf, hm⟩ := h
  rw [List.prefix_nil]
  exact List.cons_ne_nil first more

theorem exists_digits (h : isDigit c = true) (cs : List Char) :
    ∃ digits, c :: cs = digits ++ (c :: cs).dropWhile isDecimalPart ∧
      (c :: cs).takeWhile isDecimalPart = digits ∧ IsDigits digits ∧
      ∀ other, IsDigits other → other <+: c :: cs → other.length ≤ digits.length := by
  have hc : isDecimalPart c = true := by rw [isDecimalPart, h, Bool.true_or]
  have hrun := Scan.IsRun.of_takeWhile isDecimalPart (c :: cs)
  have hsplit : c :: cs = (c :: cs).takeWhile isDecimalPart ++ (c :: cs).dropWhile isDecimalPart :=
    List.takeWhile_append_dropWhile.symm
  refine ⟨_, hsplit, rfl, ?_, ?_⟩
  · rw [List.takeWhile_cons_of_pos hc] at hrun ⊢
    exact ⟨c, _, rfl, h, (List.forall_mem_cons.1 hrun.all).2⟩
  · intro other ho hp
    rw [hsplit] at hp
    exact Scan.length_le_of_stops hp ho.all hrun.stops

def exponentFindings (exponent : List Char) : List Finding :=
  if exponent ≠ [] ∧ exponent.any isDigit = false then [⟨.missingExponentDigits, []⟩] else []

/-- What is found in front of a text is the longest part that can be read there. -/
def Takes (language : List Char → Prop) (findings : List Char → List Finding) (cs : List Char)
    (found : Bool × Scan) : Prop :=
  ∃ part, cs = part ++ found.2.rest ∧ IsLongest (Optional language) part cs ∧
    (found.1 = true ↔ part ≠ []) ∧ found.2.findings = findings part

theorem Takes.missing {findings : List Char → List Finding} {starved : Bool}
    (h : ∀ other, language other → ¬other <+: cs) (hf : findings [] = []) :
    Takes language findings cs (false, ⟨cs, starved, []⟩) :=
  ⟨[], rfl, isLongest_missing h, by simp, hf.symm⟩

theorem Takes.present {findings : List Char → List Finding} {s : Scan} (hp : language part)
    (hn : part ≠ []) (hr : cs = part ++ s.rest)
    (h : ∀ other, language other → other <+: cs → other.length ≤ part.length)
    (hs : s.findings = findings part) : Takes language findings cs (true, s) := by
  refine ⟨part, hr, ?_, by simp [hn], hs⟩
  rw [hr] at h ⊢
  exact isLongest_present hp h

theorem takes_fraction (cs : List Char) : Takes IsFraction (fun _ => []) cs (fraction cs) := by
  unfold fraction
  split
  · refine .missing ?_ rfl
    rintro _ ⟨hd⟩ hp
    exact hd.not_nil (List.cons_prefix_cons.1 hp).2
  · next c cs =>
    split
    · next hc =>
      obtain ⟨digits, hsplit, -, hd, hlongest⟩ := exists_digits hc cs
      refine .present (.point hd) (List.cons_ne_nil '.' digits) (congrArg ('.' :: ·) hsplit) ?_ rfl
      rintro _ ⟨hother⟩ hp
      exact Nat.succ_le_succ (hlongest _ hother (List.cons_prefix_cons.1 hp).2)
    · next hc =>
      refine .missing ?_ rfl
      rintro _ ⟨hd⟩ hp
      exact hc (hd.head (List.cons_prefix_cons.1 hp).2)
  · next hone hmore =>
    refine .missing ?_ rfl
    rintro _ ⟨hd⟩ ⟨more, rfl⟩
    obtain ⟨first, digits, rfl, -⟩ := hd
    exact hmore first (digits ++ more) rfl

theorem exponentFindings_eq_nil (h : IsDigits digits) (front : List Char) :
    exponentFindings (front ++ digits) = [] := by
  obtain ⟨first, more, rfl, hf, hm⟩ := h
  simp [exponentFindings, hf]

/-- With a sign in front of a text, an exponent has as many digits as the text starts with. -/
theorem IsExponent.length_le_of_sign {letter sign : Char} {n : Nat} {other : List Char}
    (h : IsExponent other) (hp : other <+: letter :: sign :: rest) (hs : ¬isDigit sign = true)
    (hn : ∀ ds, IsDigits ds → ds <+: rest → ds.length ≤ n) : other.length ≤ n + 2 := by
  obtain ⟨hl, hd⟩ | ⟨hl, hsign, rfl | hd⟩ := h
  · exact absurd (hd.head (List.cons_prefix_cons.1 hp).2) hs
  · exact Nat.le_add_left 2 n
  · have hrest := (List.cons_prefix_cons.1 (List.cons_prefix_cons.1 hp).2).2
    exact Nat.add_le_add_right (hn _ hd hrest) 2

theorem takes_signed_exponent {letter sign : Char} (hl : letter ∈ ['e', 'E'])
    (hs : sign ∈ ['+', '-']) (rest : List Char) :
    Takes IsExponent exponentFindings (letter :: sign :: rest)
      (exponent (letter :: sign :: rest)) := by
  have hletter : letter = 'e' ∨ letter = 'E' := by simpa using hl
  have hsign : sign = '+' ∨ sign = '-' := by simpa using hs
  have hno : ¬isDigit sign = true := fun hd => not_mem_of_all hd rfl hs
  have hmissing : exponentFindings [letter, sign] = [⟨.missingExponentDigits, []⟩] := by
    rcases hletter with rfl | rfl <;> rcases hsign with rfl | rfl <;> rfl
  simp only [exponent, if_pos hletter, if_neg hno, if_pos hsign]
  split
  · next d rest =>
    split
    · next hc =>
      obtain ⟨digits, hsplit, -, hd, hlongest⟩ := exists_digits hc rest
      refine .present (.signed hl hs (.inr hd)) (List.cons_ne_nil letter _)
        (congrArg (letter :: sign :: ·) hsplit) ?_
        (exponentFindings_eq_nil hd [letter, sign]).symm
      exact fun other ho hp => ho.length_le_of_sign hp hno hlongest
    · next hc =>
      refine .present (.signed hl hs (.inl rfl)) (List.cons_ne_nil letter _) rfl ?_ hmissing.symm
      refine fun other ho hp => ho.length_le_of_sign hp hno ?_
      exact fun ds hd hp => absurd (hd.head hp) hc
  · refine .present (.signed hl hs (.inl rfl)) (List.cons_ne_nil letter _) rfl ?_ hmissing.symm
    refine fun other ho hp => ho.length_le_of_sign hp hno ?_
    exact fun ds hd hp => absurd hp hd.not_nil

theorem takes_exponent (cs : List Char) : Takes IsExponent exponentFindings cs (exponent cs) := by
  by_cases hsigned : ∃ letter ∈ ['e', 'E'], ∃ sign ∈ ['+', '-'], ∃ rest, cs = letter :: sign :: rest
  · obtain ⟨letter, hl, sign, hs, rest, rfl⟩ := hsigned
    exact takes_signed_exponent hl hs rest
  -- what is left has no sign, so it is an exponent only if a digit follows the letter
  have hunsigned : ∀ other, IsExponent other → other <+: cs →
      ∃ letter digits, other = letter :: digits ∧ letter ∈ ['e', 'E'] ∧ IsDigits digits := by
    rintro _ (⟨hl, hd⟩ | ⟨hl, hs, hd⟩) ⟨more, rfl⟩
    · exact ⟨_, _, rfl, hl, hd⟩
    · exact absurd ⟨_, hl, _, hs, _, rfl⟩ hsigned
  unfold exponent
  split
  · refine .missing ?_ rfl
    intro other ho hp
    obtain ⟨letter, digits, rfl, -⟩ := hunsigned other ho hp
    exact List.cons_ne_nil letter digits (List.prefix_nil.1 hp)
  · next e cs =>
    split
    · next he =>
      have hletter : e ∈ ['e', 'E'] := by simpa using he
      split
      · refine .missing ?_ rfl
        intro other ho hp
        obtain ⟨letter, digits, rfl, -, hd⟩ := hunsigned other ho hp
        exact hd.not_nil (List.cons_prefix_cons.1 hp).2
      · next c rest =>
        split
        · next hc =>
          obtain ⟨digits, hsplit, -, hd, hlongest⟩ := exists_digits hc rest
          refine .present (.unsigned hletter hd) (List.cons_ne_nil e digits)
            (congrArg (e :: ·) hsplit) ?_ (exponentFindings_eq_nil hd [e]).symm
          intro other ho hp
          obtain ⟨letter, ds, rfl, -, hds⟩ := hunsigned other ho hp
          exact Nat.succ_le_succ (hlongest ds hds (List.cons_prefix_cons.1 hp).2)
        · next hc =>
          rw [if_neg fun hs => hsigned ⟨e, hletter, c, by simpa using hs, rest, rfl⟩]
          refine .missing ?_ rfl
          intro other ho hp
          obtain ⟨letter, ds, rfl, -, hds⟩ := hunsigned other ho hp
          exact hc (hds.head (List.cons_prefix_cons.1 hp).2)
    · next he =>
      refine .missing ?_ rfl
      intro other ho hp
      obtain ⟨letter, digits, rfl, hl, -⟩ := hunsigned other ho hp
      rw [(List.cons_prefix_cons.1 hp).1] at hl
      exact he (by simpa using hl)

theorem isLongest_word (h : isIdentifierStart c = true) (cs : List Char) :
    IsLongest (Optional IsWord) ((c :: cs).takeWhile isIdentifierPart) (c :: cs) := by
  have hc := isIdentifierPart_of_start h
  have hrun := Scan.IsRun.of_takeWhile isIdentifierPart (c :: cs)
  refine ⟨List.takeWhile_prefix _, .inr ?_, ?_⟩
  · rw [List.takeWhile_cons_of_pos hc] at hrun ⊢
    exact ⟨c, _, rfl, h, (List.forall_mem_cons.1 hrun.all).2⟩
  · rintro other ho (rfl | hw)
    · exact Nat.zero_le _
    · rw [← List.takeWhile_append_dropWhile (p := isIdentifierPart) (l := c :: cs)] at ho
      exact Scan.length_le_of_stops ho hw.all hrun.stops

def kindOf (float : Bool) : TokenKind := if float then .float else .integer

/-- Integers and floats with a suffix are of kinds of their own. -/
def keyOf (float : Bool) (suffix : List Char) : TokenKey where
  kind :=
    if float then if suffix = [] then .float else .floatWithSuffix
    else if suffix = [] then .integer else .integerWithSuffix
  lead := none
  quote := none
  triple := false
  suffix := if suffix = [] then none else some (String.ofList suffix)

theorem keyOf_of_ne_nil (float : Bool) {suffix : List Char} (h : suffix ≠ []) :
    keyOf float suffix = (TokenKey.simple (kindOf float)).withSuffix (String.ofList suffix) := by
  simp only [keyOf, if_neg h]
  cases float <;> rfl

theorem exists_suffix (float : Bool) (s : Scan) :
    ∃ suffix, s.rest = suffix ++ (suffixed (kindOf float) s).scan.rest ∧
      IsLongest (Optional IsWord) suffix s.rest ∧
      (suffixed (kindOf float) s).scan.findings = s.findings ∧
      (suffixed (kindOf float) s).key = keyOf float suffix := by
  have hmissing (h : ∀ c ∈ s.rest.head?, ¬isIdentifierStart c = true) :
      IsLongest (Optional IsWord) [] s.rest := by
    apply isLongest_missing
    rintro other ⟨first, more, rfl, hf, -⟩ ⟨after, hafter⟩
    exact h first (by rw [← hafter]; rfl) hf
  unfold suffixed
  split
  · next c cs hcs =>
    split
    · next hc =>
      have hword := isLongest_word hc cs
      have hne : (c :: cs).takeWhile isIdentifierPart ≠ [] := by
        rw [List.takeWhile_cons_of_pos (isIdentifierPart_of_start hc)]
        exact List.cons_ne_nil c _
      rw [← hcs] at hword hne
      refine ⟨_, List.takeWhile_append_dropWhile.symm, hword, List.append_nil _, ?_⟩
      rw [keyOf_of_ne_nil float hne]
    · next hc =>
      refine ⟨[], rfl, hmissing ?_, rfl, rfl⟩
      rw [hcs]
      rintro _ ⟨⟩
      exact hc
  · next hcs =>
    refine ⟨[], rfl, hmissing ?_, rfl, rfl⟩
    rw [hcs]
    exact nofun

/-- The value of digits in base ten, separators left out. -/
def valueOf (digits : List Char) : Nat :=
  (digits.filter isDigit).foldl (fun n c => n * 10 + (c.toNat - '0'.toNat)) 0

def closingSign (closed : Bool) : List Char := if closed then ['#'] else []

/-- What is wrong with the digits of a number of the radix that the digits `base` say. -/
def digitErrors (base digits : List Char) : List Finding :=
  (if 2 ≤ valueOf base ∧ valueOf base ≤ 36 then
    let wrong := digits.find? fun c => (digitValue? c).any (valueOf base ≤ ·)
    wrong.toList.map fun c => ⟨.digitOutOfRadix, [c.toString, toString (valueOf base)]⟩
  else [⟨.invalidRadix, [String.ofList (base.filter isDigit)]⟩]) ++
  if digits.any isWordChar then [] else [⟨.missingRadixDigits, []⟩]

def radixErrors (base digits : List Char) (closed : Bool) : List Finding :=
  digitErrors base digits ++ if closed then [] else [⟨.unterminatedRadixNumber, []⟩]

theorem digitsValue?_eq (acc : Nat) (h : ∀ c ∈ digits, isDigit c = true) :
    digitsValue? acc digits =
      some (digits.foldl (fun n c => n * 10 + (c.toNat - '0'.toNat)) acc) := by
  induction digits generalizing acc with
  | nil => rfl
  | cons c digits ih =>
    obtain ⟨hc, hd⟩ := List.forall_mem_cons.1 h
    rw [digitsValue?, if_pos hc, ih _ hd]
    rfl

theorem filter_decimal (h : ∀ c ∈ digits, isDecimalPart c = true) :
    digits.filter (· != '_') = digits.filter isDigit := by
  apply List.filter_congr
  intro c hc
  rcases Bool.or_eq_true_iff.1 (h c hc) with hd | hs
  · have hne : c ∉ ['_'] := not_mem_of_all hd rfl
    simpa [hd] using hne
  · obtain rfl : c = '_' := eq_of_beq hs
    rfl

theorem filter_radix (h : ∀ c ∈ digits, isRadixPart c = true) :
    digits.filter (· != '_') = digits.filter isWordChar := by
  apply List.filter_congr
  intro c hc
  rcases Bool.or_eq_true_iff.1 (h c hc) with hd | hs
  · have hne : c ∉ ['_'] := not_mem_of_all hd (by decide)
    simpa [hd] using hne
  · obtain rfl : c = '_' := eq_of_beq hs
    rfl

theorem radix?_eq {base : List Char} (h : ∀ c ∈ base, isDecimalPart c = true) :
    radix? (base.filter (· != '_')) =
      if 2 ≤ valueOf base ∧ valueOf base ≤ 36 then some (valueOf base) else none := by
  have hd : ∀ c ∈ base.filter isDigit, isDigit c = true := fun c hc => (List.mem_filter.1 hc).2
  rw [filter_decimal h, radix?, digitsValue?_eq 0 hd, Option.filter_some]
  simp only [Bool.and_eq_true, decide_eq_true_eq]
  rfl

theorem find?_notDigitOf (radix : Nat) (digits : List Char) :
    (digits.filter isWordChar).find? (fun c => !isDigitOf radix c) =
      digits.find? fun c => (digitValue? c).any (radix ≤ ·) := by
  rw [List.find?_filter]
  congr 1
  funext c
  unfold isWordChar isDigitOf
  cases digitValue? c with
  | none => rfl
  | some v => simp

theorem radixFindings_eq {base : List Char} (hb : ∀ c ∈ base, isDecimalPart c = true)
    (hd : ∀ c ∈ digits, isRadixPart c = true) :
    radixFindings (base.filter (· != '_')) (digits.filter (· != '_')) =
      digitErrors base digits := by
  have hempty : (digits.filter isWordChar).isEmpty = !digits.any isWordChar := by
    rw [Bool.eq_iff_iff, List.isEmpty_iff, List.filter_eq_nil_iff, Bool.not_eq_true',
      List.any_eq_false]
  rw [radixFindings, radix?_eq hb, filter_decimal hb, filter_radix hd, digitErrors]
  congr 1
  · split
    · next hr =>
      rw [if_neg fun h => by simp [h] at hr]
    · next r hr =>
      obtain ⟨h, rfl⟩ : (2 ≤ valueOf base ∧ valueOf base ≤ 36) ∧ valueOf base = r := by
        split at hr
        · next h => exact ⟨h, Option.some.inj hr⟩
        · cases hr
      rw [if_pos h, find?_notDigitOf]
      cases digits.find? fun c => (digitValue? c).any (valueOf base ≤ ·) with
      | none => rfl
      | some c => rfl
  · rw [hempty]
    cases digits.any isWordChar <;> rfl

/-- Behind the opening sign a run of digits is read, and the closing sign if it is there. -/
theorem exists_radixPart {base : List Char} (hb : ∀ c ∈ base, isDecimalPart c = true)
    (cs : List Char) :
    ∃ digits closed,
      let s := radixPart (base.filter (· != '_')) cs
      cs = digits ++ (closingSign closed ++ s.rest) ∧
        Scan.IsRun isRadixPart digits (closingSign closed ++ s.rest) ∧
        (closed = false → s.rest.head? ≠ some '#') ∧
        s.findings = radixErrors base digits closed := by
  have hrun := Scan.IsRun.of_takeWhile isRadixPart cs
  have hsplit : cs = cs.takeWhile isRadixPart ++ cs.dropWhile isRadixPart :=
    List.takeWhile_append_dropWhile.symm
  refine ⟨cs.takeWhile isRadixPart, (cs.dropWhile isRadixPart).head? == some '#', ?_⟩
  dsimp only [radixPart]
  rw [radixFindings_eq hb hrun.all]
  split
  · next rest hrest =>
    rw [hrest] at hsplit hrun ⊢
    exact ⟨hsplit, hrun, nofun, rfl⟩
  · next hno =>
    have hhead : (cs.dropWhile isRadixPart).head? ≠ some '#' := by
      intro h
      obtain ⟨rest, hrest⟩ := List.head?_eq_some_iff.1 h
      exact hno rest hrest
    have hclosed : ((cs.dropWhile isRadixPart).head? == some '#') = false := by simpa using hhead
    rw [hclosed]
    exact ⟨hsplit, hrun, fun _ => hhead, rfl⟩

/-- What stands between the digits of a number and its suffix: another number between number signs,
of which the closing one may be missing, or a fraction and an exponent, which may be missing. -/
inductive Tail where
  | radix (digits : List Char) (closed : Bool)
  | decimal (fraction exponent : List Char)

namespace Tail

def text : Tail → List Char
  | .radix digits closed => '#' :: (digits ++ closingSign closed)
  | .decimal fraction exponent => fraction ++ exponent

def findings (base : List Char) : Tail → List Finding
  | .radix digits closed => radixErrors base digits closed
  | .decimal _ exponent => exponentFindings exponent

def isFloat : Tail → Bool
  | .radix _ _ => false
  | .decimal fraction exponent => decide (fraction ≠ [] ∨ exponent ≠ [])

/-- Whether all parts are the longest ones that can be read in front of `rest`. -/
inductive Stands (rest : List Char) : Tail → Prop where
  | radix {digits : List Char} {closed : Bool}
      (hd : IsLongest (fun cs => ∀ c ∈ cs, isRadixPart c = true) digits
        (digits ++ (closingSign closed ++ rest)))
      (hc : closed = false → rest.head? ≠ some '#') : Stands rest (.radix digits closed)
  | decimal {fraction exponent : List Char}
      (hn : (fraction ++ (exponent ++ rest)).head? ≠ some '#')
      (hf : IsLongest (Optional IsFraction) fraction (fraction ++ (exponent ++ rest)))
      (he : IsLongest (Optional IsExponent) exponent (exponent ++ rest)) :
      Stands rest (.decimal fraction exponent)

theorem closed_unique {closed closed' : Bool} {rest rest' : List Char}
    (hc : closed = false → rest.head? ≠ some '#') (hc' : closed' = false → rest'.head? ≠ some '#')
    (ht : closingSign closed ++ rest = closingSign closed' ++ rest') : closed = closed' := by
  cases closed with
  | true =>
    cases closed' with
    | true => rfl
    | false => exact absurd (congrArg List.head? ht).symm (hc' rfl)
  | false =>
    cases closed' with
    | true => exact absurd (congrArg List.head? ht) (hc rfl)
    | false => rfl

theorem Stands.unique {tail tail' : Tail} {rest rest' : List Char} (h : tail.Stands rest)
    (h' : tail'.Stands rest') (ht : tail.text ++ rest = tail'.text ++ rest') : tail = tail' := by
  cases h with
  | radix hd hc =>
    cases h' with
    | radix hd' hc' =>
      simp only [text, List.cons_append, List.append_assoc] at ht
      have ht := (List.cons.inj ht).2
      rw [ht] at hd
      obtain rfl := hd.unique hd'
      obtain rfl := closed_unique hc hc' (List.append_cancel_left ht)
      rfl
    | decimal hn' hf' he' =>
      simp only [text, List.cons_append, List.append_assoc] at ht
      exact absurd (by rw [← ht]; rfl) hn'
  | decimal hn hf he =>
    cases h' with
    | radix hd' hc' =>
      simp only [text, List.cons_append, List.append_assoc] at ht
      exact absurd (by rw [ht]; rfl) hn
    | decimal hn' hf' he' =>
      simp only [text, List.append_assoc] at ht
      rw [ht] at hf
      obtain rfl := hf.unique hf'
      have ht := List.append_cancel_left ht
      rw [ht] at he
      obtain rfl := he.unique he'
      rfl

end Tail

theorem exists_decimal (digits : List Char) (h : cs.head? ≠ some '#') :
    ∃ (tail : Tail) (s : Scan), cs = tail.text ++ s.rest ∧ tail.Stands s.rest ∧
      s.findings = tail.findings digits ∧ decimal cs = suffixed (kindOf tail.isFloat) s := by
  obtain ⟨fraction, hf, hflongest, hfsome, hffound⟩ := takes_fraction cs
  obtain ⟨exponent, he, helongest, hesome, hefound⟩ := takes_exponent (Number.fraction cs).2.rest
  let s := (Number.fraction cs).2
  let t := (Number.exponent s.rest).2
  have hcs : cs = fraction ++ (exponent ++ t.rest) := hf.trans (congrArg _ he)
  have hdecimal : decimal cs = suffixed (kindOf (Tail.decimal fraction exponent).isFloat)
      ⟨t.rest, s.starved || t.starved, s.findings ++ t.findings⟩ := by
    have hfloat : (Tail.decimal fraction exponent).isFloat =
        ((Number.fraction cs).1 || (Number.exponent s.rest).1) := by
      rw [Bool.eq_iff_iff, Bool.or_eq_true, hfsome, hesome]
      exact decide_eq_true_iff
    rw [hfloat]
    rfl
  refine ⟨.decimal fraction exponent, _, ?_, .decimal ?_ ?_ ?_, ?_, hdecimal⟩
  · rwa [Tail.text, List.append_assoc]
  · rwa [← hcs]
  · rwa [← hcs]
  · rwa [← he]
  · exact congrArg₂ (· ++ ·) hffound hefound

theorem exists_tail {first : Char} {base : List Char}
    (hb : ∀ c ∈ first :: base, isDecimalPart c = true)
    (hs : ∀ c ∈ cs.head?, isDecimalPart c = false) :
    ∃ (tail : Tail) (s : Scan), cs = tail.text ++ s.rest ∧ tail.Stands s.rest ∧
      s.findings = tail.findings (first :: base) ∧
      literal first (base ++ cs) = suffixed (kindOf tail.isFloat) s := by
  have hrun : Scan.IsRun isDecimalPart base cs := ⟨(List.forall_mem_cons.1 hb).2, hs⟩
  by_cases hradix : cs.head? = some '#'
  · obtain ⟨rest, rfl⟩ := List.head?_eq_some_iff.1 hradix
    obtain ⟨digits, closed, ht, hdigits, hclosed, hf⟩ := exists_radixPart hb rest
    refine ⟨.radix digits closed, _, ?_, .radix hdigits.isLongest hclosed, hf, ?_⟩
    · rw [Tail.text, List.cons_append, List.append_assoc, ← ht]
    · rw [literal_eq_radix hrun.dropWhile_eq, hrun.takeWhile_eq]
      rfl
  · obtain ⟨tail, s, ht, hstands, hf, hdecimal⟩ := exists_decimal (first :: base) hradix
    refine ⟨tail, s, ht, hstands, hf, ?_⟩
    rw [← hdecimal, literal_eq_decimal, hrun.dropWhile_eq]
    rw [hrun.dropWhile_eq]
    rintro rest rfl
    exact hradix rfl

end Number

/-- A number: its digits, what stands between them and the suffix, and the suffix. -/
structure NumberForm where
  digits : List Char
  tail : Number.Tail
  suffix : List Char

namespace NumberForm
open Number

def text (n : NumberForm) : List Char := n.digits ++ (n.tail.text ++ n.suffix)

def form (n : NumberForm) : Form :=
  ⟨keyOf n.tail.isFloat n.suffix, n.text, n.tail.findings n.digits⟩

structure Stands (n : NumberForm) (rest : List Char) : Prop where
  digits : IsLongest IsDigits n.digits (n.text ++ rest)
  tail : n.tail.Stands (n.suffix ++ rest)
  suffix : IsLongest (Optional IsWord) n.suffix (n.suffix ++ rest)

variable {n n' : NumberForm} {rest rest' : List Char} {first : Char}

/-- There is one way to read a number at the front of a text. -/
theorem Stands.unique (h : n.Stands rest) (h' : n'.Stands rest')
    (ht : n.text ++ rest = n'.text ++ rest') : n = n' := by
  obtain ⟨hd, htail, hs⟩ := h
  obtain ⟨hd', htail', hs'⟩ := h'
  obtain ⟨digits, tail, suffix⟩ := n
  obtain ⟨digits', tail', suffix'⟩ := n'
  rw [ht] at hd
  obtain rfl : digits = digits' := hd.unique hd'
  simp only [text, List.append_assoc] at ht
  have ht := List.append_cancel_left ht
  obtain rfl : tail = tail' := htail.unique htail' ht
  have ht : suffix ++ rest = suffix' ++ rest' := List.append_cancel_left ht
  dsimp only at hs hs'
  rw [ht] at hs
  obtain rfl : suffix = suffix' := hs.unique hs'
  rfl

/-- The token at the front of a text that starts with a digit is a number. -/
theorem exists_recognized (hd : isDigit first = true) (cs : List Char) :
    ∃ (n : NumberForm) (rest : List Char), first :: cs = n.text ++ rest ∧ n.Stands rest ∧
      ∀ atStart docComments,
        (Lexeme.recognize atStart docComments first cs).HasForm n.form rest := by
  obtain ⟨base, cs, hrun, rfl⟩ : ∃ base more, Scan.IsRun isDecimalPart base more ∧
      cs = base ++ more :=
    ⟨_, _, .of_takeWhile isDecimalPart cs, List.takeWhile_append_dropWhile.symm⟩
  have hdigits : IsDigits (first :: base) := ⟨first, base, rfl, hd, hrun.all⟩
  obtain ⟨tail, s, ht, htail, hf, hliteral⟩ := exists_tail hdigits.all hrun.stops
  obtain ⟨suffix, hs, hsuffix, hsfound, hkey⟩ := exists_suffix tail.isFloat s
  rw [← hliteral] at hs hsfound hkey
  rw [hs] at hsuffix htail ht
  have htext : first :: (base ++ cs) =
      (NumberForm.mk (first :: base) tail suffix).text ++
        (literal first (base ++ cs)).scan.rest := by
    simp only [text, List.append_assoc, ← ht]
    rfl
  refine ⟨⟨first :: base, tail, suffix⟩, _, htext, ⟨?_, htail, hsuffix⟩, ?_⟩
  · rw [← htext]
    refine ⟨List.prefix_append (first :: base) cs, hdigits, fun other ho hother => ?_⟩
    have hp : other <+: (first :: base) ++ cs := ho
    exact Scan.length_le_of_stops hp hother.all hrun.stops
  · intro atStart docComments
    rw [Lexeme.recognize_digit _ _ _ hd]
    exact ⟨hkey, rfl, hsfound.trans hf⟩

end NumberForm

namespace Lexer

variable {l : Lexer} {b : Backlog} {source : String} {first : Char} {cs : List Char}

/-- A text that starts with a digit starts with a number. It is the only one that can be read there
part by part, and the token is that number, with its errors and no others, unless it is reported as
too long. -/
theorem parse_number (hs : l.source = some source) (hp : l.pending = none) (he : l.ended = false)
    (hl : 0 < l.limit) (hd : isDigit first = true) (hb : b.rest = first :: cs) :
    ∃ (n : NumberForm) (rest : List Char), b.rest = n.text ++ rest ∧ n.Stands rest ∧
      (∀ n' rest', b.rest = n'.text ++ rest' → NumberForm.Stands n' rest' → n' = n) ∧
      ∃ t l' b', l.parse b true = .ok (.outputAvailable, l', b') ∧ l'.pending = some t ∧
        (t.errors.reportsOf .tooManyCharacters = [] ↔
          n.text.length ≤ l.limit ∧ ¬l.PointAhead first cs) ∧
        (t.errors.reportsOf .tooManyCharacters = [] →
          t.HasForm source n.form ∧ b'.rest = rest) := by
  obtain ⟨n, rest, ht, hstands, hrecognize⟩ := NumberForm.exists_recognized hd cs
  refine ⟨n, rest, hb.trans ht, hstands, ?_, ?_⟩
  · intro n' rest' ht' hstands'
    exact hstands'.unique hstands (ht'.symm.trans (hb.trans ht))
  · have hgraphic : isGraphic first = false := by
      rw [Bool.eq_false_iff]
      exact fun hg => not_mem_of_all hd rfl (List.contains_iff_mem.1 hg)
    exact exists_parse_form hs hp he hl hb hgraphic (hrecognize l.atStart l.docComments) ht

/-- A letter with a sign behind it opens an exponent though no digit follows, and what follows is a
suffix. -/
theorem parse_number_signed :
    let l : Lexer := { Lexer.new .standard with source := some "in" }
    let n : NumberForm :=
      { digits := ['1', '_']
        tail := .decimal ['.', '5'] ['e', '+']
        suffix := ['x'] }
    ∃ t l' b', l.parse (.ofText "1_.5e+x-") true = .ok (.outputAvailable, l', b') ∧
      l'.pending = some t ∧ t.HasForm "in" n.form ∧
      t.key = ⟨.floatWithSuffix, none, none, false, some "x"⟩ ∧ b'.rest = ['-'] := by
  intro l n
  have hdigits : IsLongest Number.IsDigits ['1', '_'] "1_.5e+x-".toList :=
    ⟨⟨_, rfl⟩, ⟨'1', ['_'], rfl, rfl, List.all_eq_true.1 rfl⟩, fun other ho hd =>
      Scan.length_le_of_stops (show other <+: ['1', '_'] ++ ".5e+x-".toList from ho) hd.all
        (by rintro _ ⟨⟩; rfl)⟩
  have hfraction : IsLongest (Number.Optional Number.IsFraction) ['.', '5'] ".5e+x-".toList := by
    refine Number.isLongest_present (.point ⟨'5', [], rfl, by decide, nofun⟩) ?_
    rintro _ ⟨hd⟩ hp
    have hrest : _ <+: ['5'] ++ "e+x-".toList := (List.cons_prefix_cons.1 hp).2
    exact Nat.succ_le_succ (Scan.length_le_of_stops hrest hd.all (by rintro _ ⟨⟩; rfl))
  have hexponent : IsLongest (Number.Optional Number.IsExponent) ['e', '+'] "e+x-".toList := by
    refine Number.isLongest_present (.signed (by decide) (by decide) (.inl rfl)) ?_
    intro other ho hp
    refine ho.length_le_of_sign hp (by decide) ?_
    exact fun ds hd hp => absurd (hd.head hp) (by decide)
  have hsuffix := Number.isLongest_word (c := 'x') (by decide) ['-']
  obtain ⟨n', rest, ht, -, hunique, t, l', b', hparse, hpending, hcut, hform⟩ :=
    parse_number (l := l) (b := .ofText "1_.5e+x-") rfl rfl rfl (by decide) (by decide)
      (show _ = '1' :: "_.5e+x-".toList from rfl)
  obtain rfl : n = n' := hunique n ['-'] rfl
    ⟨hdigits, .decimal (by decide) hfraction hexponent, hsuffix⟩
  obtain ⟨htoken, hrest⟩ := hform (hcut.2 ⟨by decide, fun h => absurd h.2.1 (by decide)⟩)
  have htext : n.text ++ ['-'] = n.text ++ rest := ht
  exact ⟨t, l', b', hparse, hpending, htoken, htoken.key_eq,
    hrest.trans (List.append_cancel_left htext).symm⟩

end Lexer

end TermStream
