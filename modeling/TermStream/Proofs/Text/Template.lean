import Mathlib.Data.Nat.Digits.Defs
import TermStream.ErrorChain
import TermStream.Proofs.Token.Suffix

namespace TermStream

namespace Text

def decimalValue (digits : List Char) : Nat :=
  Nat.ofDigits 10 (digits.map fun c => c.toNat - '0'.toNat).reverse

/-- Digits of the value `n`, which is at most `most`. -/
structure IsDecimal (most : Nat) (digits : List Char) (n : Nat) : Prop where
  ne_nil : digits ≠ []
  isDigit : ∀ c ∈ digits, isDigit c = true
  value_eq : n = decimalValue digits
  le_most : n ≤ most

/-- Digits, perhaps with a sign in front of them. -/
def IsNumeral (most : Nat) (cs : List Char) (n : Nat) : Prop :=
  ∃ digits, (cs = digits ∨ cs = '+' :: digits) ∧ IsDecimal most digits n

variable {most n : Nat} {cs digits : List Char}

theorem decimalValue_cons (c : Char) (digits : List Char) :
    decimalValue (c :: digits) =
      (c.toNat - '0'.toNat) * 10 ^ digits.length + decimalValue digits := by
  rw [decimalValue, List.map_cons, Nat.ofDigits_reverse_cons, List.length_map, Nat.add_comm,
    Nat.mul_comm]
  rfl

theorem digitsValue?_eq_some_iff (acc : Nat) :
    digitsValue? acc cs = some n ↔
      (∀ c ∈ cs, isDigit c = true) ∧ n = acc * 10 ^ cs.length + decimalValue cs := by
  induction cs generalizing acc with
  | nil =>
    have hvalue : decimalValue [] = 0 := rfl
    rw [digitsValue?, Option.some_inj, hvalue]
    simp [eq_comm (a := acc)]
  | cons c cs ih =>
    rw [digitsValue?, List.forall_mem_cons]
    split
    · next hc =>
      rw [ih, decimalValue_cons, List.length_cons, Nat.pow_succ, Nat.add_mul, Nat.add_assoc,
        Nat.mul_assoc, Nat.mul_comm 10]
      simp [hc]
    · next hc => simp [hc]

theorem filter_digitsValue?_eq_some_iff :
    (if digits.isEmpty then none else (digitsValue? 0 digits).filter (· ≤ most)) = some n ↔
      IsDecimal most digits n := by
  split
  · next hn =>
    constructor
    · exact nofun
    · intro h
      exact absurd (List.isEmpty_iff.1 hn) h.ne_nil
  · next hn =>
    rw [Option.filter_eq_some_iff, digitsValue?_eq_some_iff, Nat.zero_mul, Nat.zero_add,
      decide_eq_true_eq]
    constructor
    · rintro ⟨⟨hd, hv⟩, hm⟩
      exact ⟨fun h => hn (List.isEmpty_iff.2 h), hd, hv, hm⟩
    · intro h
      exact ⟨⟨h.isDigit, h.value_eq⟩, h.le_most⟩

/-- Reading accepts exactly the numerals. -/
theorem readNumeral?_eq_some_iff : readNumeral? most cs = some n ↔ IsNumeral most cs n := by
  unfold readNumeral?
  split
  · next digits =>
    rw [filter_digitsValue?_eq_some_iff]
    constructor
    · intro h
      exact ⟨digits, .inr rfl, h⟩
    · rintro ⟨digits', rfl | hs, h⟩
      · exact absurd (h.isDigit '+' List.mem_cons_self) (by decide)
      · obtain ⟨-, rfl⟩ := List.cons.inj hs
        exact h
  · next hunsigned =>
    rw [filter_digitsValue?_eq_some_iff]
    constructor
    · intro h
      exact ⟨cs, .inl rfl, h⟩
    · rintro ⟨digits, rfl | hs, h⟩
      · exact h
      · exact absurd hs (hunsigned digits)

theorem IsNumeral.ne_brace (h : IsNumeral most cs n) : ∀ c ∈ cs, c ≠ '\x7d' := by
  obtain ⟨digits, hs, hd⟩ := h
  have hdigit : ∀ c ∈ digits, c ≠ '\x7d' := by
    rintro c hc rfl
    exact absurd (hd.isDigit _ hc) (by decide)
  rcases hs with rfl | rfl
  · exact hdigit
  · intro c hc
    rcases List.mem_cons.1 hc with rfl | hc
    · decide
    · exact hdigit c hc

namespace Template

variable {arity index : Nat} {rest written : List Char}

/-- A slot as it is written: a numeral in braces, for one of the first `arity` arguments. -/
inductive IsSlot (arity : Nat) : List Char → Nat → Prop where
  | braces {number : List Char} {index : Nat} (hn : IsNumeral maxWord number index)
      (hi : index < arity) : IsSlot arity ('\x7b' :: number ++ ['\x7d']) index

theorem slot?_eq_some (h : slot? arity cs = some (index, rest)) :
    ∃ number, cs = number ++ '\x7d' :: rest ∧ IsNumeral maxWord number index ∧ index < arity := by
  unfold slot? at h
  have hsplit := List.takeWhile_append_dropWhile (p := fun c => decide (c ≠ '\x7d')) (l := cs)
  have hrun := Scan.IsRun.of_takeWhile (fun c => decide (c ≠ '\x7d')) cs
  split at h
  · cases h
  · next brace after hd =>
    split at h
    · next i hread =>
      split at h
      · next hi =>
        cases h
        obtain rfl : brace = '\x7d' := by simpa using hrun.stops brace (by rw [hd]; rfl)
        rw [hd] at hsplit
        exact ⟨_, hsplit.symm, readNumeral?_eq_some_iff.1 hread, hi⟩
      · cases h
    · cases h

theorem slot?_eq_some_iff : slot? arity cs = some (index, rest) ↔
    ∃ written, IsSlot arity written index ∧ '\x7b' :: cs = written ++ rest := by
  constructor
  · intro h
    obtain ⟨number, rfl, hn, hi⟩ := slot?_eq_some h
    exact ⟨_, .braces hn hi, by simp⟩
  · rintro ⟨_, @⟨number, _, hn, hi⟩, hc⟩
    obtain rfl : cs = number ++ '\x7d' :: rest := by simpa using hc
    have hrun : Scan.IsRun (fun c => decide (c ≠ '\x7d')) number ('\x7d' :: rest) :=
      ⟨fun c hc => decide_eq_true (hn.ne_brace c hc), by simp⟩
    have hread : readWord? number = some index := readNumeral?_eq_some_iff.2 hn
    rw [slot?, hrun.takeWhile_eq, hrun.dropWhile_eq]
    dsimp only
    rw [hread]
    exact if_pos hi

theorem IsSlot.head_eq {c : Char} (h : IsSlot arity written index) (hc : written <+: c :: cs) :
    c = '\x7b' := by
  cases h
  exact (List.cons_prefix_cons.1 hc).1.symm

inductive Segment where
  | literal (c : Char)
  | slot (index : Nat)
deriving DecidableEq

def Segment.expand (args : List String) : Segment → List Char
  | .literal c => [c]
  | .slot index => (args[index]?.getD "").toList

/-- How a template is cut for `arity` arguments: where a slot is written the template has a slot,
and everywhere else a literal character. -/
inductive Segmented (arity : Nat) : List Char → List Segment → Prop where
  | nil : Segmented arity [] []
  | slot {cs written rest : List Char} {index : Nat} {segments : List Segment}
      (hs : IsSlot arity written index) (hc : cs = written ++ rest)
      (h : Segmented arity rest segments) : Segmented arity cs (.slot index :: segments)
  | literal {c : Char} {cs : List Char} {segments : List Segment}
      (hs : ∀ written index, IsSlot arity written index → ¬written <+: c :: cs)
      (h : Segmented arity cs segments) : Segmented arity (c :: cs) (.literal c :: segments)

def segments (arity : Nat) : List Char → List Segment
  | [] => []
  | c :: cs =>
    if c = '\x7b' then
      match h : slot? arity cs with
      | some (index, rest) =>
        have := slot?_length h
        .slot index :: segments arity rest
      | none => .literal c :: segments arity cs
    else .literal c :: segments arity cs
termination_by cs => cs.length

theorem segmented_segments (arity : Nat) (cs : List Char) :
    Segmented arity cs (segments arity cs) := by
  fun_induction segments arity cs with
  | case1 => exact .nil
  | case2 cs index rest hs _ ih =>
    obtain ⟨written, hw, hc⟩ := slot?_eq_some_iff.1 hs
    exact .slot hw hc ih
  | case3 cs hs ih =>
    apply Segmented.literal _ ih
    rintro written index hw ⟨rest, hc⟩
    rw [slot?_eq_some_iff.2 ⟨written, hw, hc.symm⟩] at hs
    cases hs
  | case4 c cs hc ih =>
    apply Segmented.literal _ ih
    intro written index hw hp
    exact hc (hw.head_eq hp)

theorem IsSlot.unique {written' rest' : List Char} {index' : Nat} (h : IsSlot arity written index)
    (h' : IsSlot arity written' index') (hc : written ++ rest = written' ++ rest') :
    index = index' ∧ rest = rest' := by
  obtain ⟨cs, hcs⟩ : ∃ cs, written ++ rest = '\x7b' :: cs := by
    cases h
    exact ⟨_, rfl⟩
  have hs := slot?_eq_some_iff.2 ⟨written, h, hcs.symm⟩
  rw [slot?_eq_some_iff.2 ⟨written', h', hcs.symm.trans hc⟩] at hs
  cases hs
  exact ⟨rfl, rfl⟩

theorem IsSlot.ne_nil (h : IsSlot arity written index) : written ≠ [] := by
  cases h
  exact List.cons_ne_nil _ _

theorem Segmented.unique {found found' : List Segment} (h : Segmented arity cs found)
    (h' : Segmented arity cs found') : found = found' := by
  induction h generalizing found' with
  | nil =>
    cases h' with
    | nil => rfl
    | slot hs hc => exact absurd (List.append_eq_nil_iff.1 hc.symm).1 hs.ne_nil
  | slot hs hc _ ih =>
    cases h' with
    | nil => exact absurd (List.append_eq_nil_iff.1 hc.symm).1 hs.ne_nil
    | slot hs' hc' h' =>
      obtain ⟨rfl, rfl⟩ := hs.unique hs' (hc.symm.trans hc')
      rw [ih h']
    | literal hn => exact absurd ⟨_, hc.symm⟩ (hn _ _ hs)
  | literal hn _ ih =>
    cases h' with
    | slot hs hc => exact absurd ⟨_, hc.symm⟩ (hn _ _ hs)
    | literal _ h' => rw [ih h']

theorem segments_literals {front : List Char} (arity : Nat) (rest : List Char)
    (h : ∀ c ∈ front, c ≠ '\x7b') :
    segments arity (front ++ rest) = front.map .literal ++ segments arity rest := by
  induction front with
  | nil => rfl
  | cons c front ih =>
    obtain ⟨hc, hfront⟩ := List.forall_mem_cons.1 h
    rw [List.cons_append, segments, if_neg hc, ih hfront]
    rfl

theorem flatMap_expand_literals (args : List String) (cs : List Char) :
    (cs.map Segment.literal).flatMap (Segment.expand args) = cs := by
  rw [List.flatMap_map]
  exact List.flatMap_singleton' cs

theorem segments_slot (h : slot? arity cs = some (index, rest)) :
    segments arity ('\x7b' :: cs) = .slot index :: segments arity rest := by
  rw [segments, if_pos rfl]
  split
  · next hs =>
    cases h.symm.trans hs
    rfl
  · next hs => cases h.symm.trans hs

theorem segments_brace (h : slot? arity cs = none) :
    segments arity ('\x7b' :: cs) = .literal '\x7b' :: segments arity cs := by
  rw [segments, if_pos rfl]
  split
  · next hs => cases h.symm.trans hs
  · rfl

/-- The pass that fills a template writes its segments. -/
theorem fill_eq (args : List String) (cs : List Char) :
    fill args cs = (segments args.length cs).flatMap (Segment.expand args) := by
  have hrun := Scan.IsRun.of_takeWhile (fun c => decide (c ≠ '\x7b')) cs
  have hfront : ∀ c ∈ cs.takeWhile (fun c => decide (c ≠ '\x7b')), c ≠ '\x7b' :=
    fun c hc => of_decide_eq_true (hrun.all c hc)
  have hsegments := segments_literals args.length (cs.dropWhile fun c => decide (c ≠ '\x7b')) hfront
  rw [List.takeWhile_append_dropWhile] at hsegments
  rw [hsegments, List.flatMap_append, flatMap_expand_literals, fill]
  congr 1
  split
  · next hd =>
    rw [hd, segments]
    rfl
  · next brace rest hd =>
    obtain rfl : brace = '\x7b' := by simpa using hrun.stops brace (by rw [hd]; rfl)
    have hlt := length_lt_of_dropWhile hd
    have htail := congrArg (segments args.length) hd
    rw [htail]
    dsimp only
    split
    · next index after hs =>
      have := slot?_length hs
      rw [segments_slot hs, fill_eq args after]
      rfl
    · next hs =>
      rw [segments_brace hs, fill_eq args rest]
      rfl
termination_by cs.length

end Template

end Text

namespace ErrorCode

open Text.Template

/-- A message is the text of the segments of its template, and the segments are the one way to cut
the template for so many arguments, whatever the arguments are. -/
theorem render_fills_segments (c : ErrorCode) (args : List String) :
    c.render args = String.ofList
      ((segments args.length c.template.toList).flatMap (Segment.expand args)) ∧
    ∀ found, Segmented args.length c.template.toList found ↔
      found = segments args.length c.template.toList := by
  constructor
  · rw [render, Text.Template.render, fill_eq]
  · intro found
    constructor
    · intro h
      exact h.unique (segmented_segments _ _)
    · rintro rfl
      exact segmented_segments _ _

-- A brace that opens no slot is text, and what is filled in is not read again.
example : render ⟨"", "\x7b \x7b0\x7d \x7b\x7b+00\x7d\x7d \x7b1\x7d \x7b0"⟩ ["\x7b0\x7d"] =
    "\x7b \x7b0\x7d \x7b\x7b0\x7d\x7d \x7b1\x7d \x7b0" := by cbv

end ErrorCode

end TermStream
