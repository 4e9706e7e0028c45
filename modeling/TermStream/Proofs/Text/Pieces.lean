import TermStream.Text.Pieces

namespace TermStream.Text

variable {size : Nat} {cs p : List Char}

theorem cut_append (size : Nat) (cs : List Char) : (cut size cs).1 ++ (cut size cs).2 = cs := by
  induction cs generalizing size with
  | nil => rfl
  | cons c cs ih =>
    rw [cut]
    split
    · rfl
    · exact congrArg (c :: ·) (ih _)

/-- What is cut off ends with the first character that reaches the size. -/
theorem cut_reaches (size : Nat) (cs : List Char) :
    (cut size cs).1 = [] ∨
      ∃ init c, (cut size cs).1 = init ++ [c] ∧ byteLength init < size := by
  induction cs generalizing size with
  | nil => exact .inl rfl
  | cons c cs ih =>
    rw [cut]
    split
    · exact .inl rfl
    · next hs =>
      rcases ih (size - c.utf8Size) with hnil | ⟨init, d, heq, hlt⟩
      · refine .inr ⟨[], c, congrArg (c :: ·) hnil, ?_⟩
        exact Nat.pos_of_ne_zero hs
      · refine .inr ⟨c :: init, d, congrArg (c :: ·) heq, ?_⟩
        rw [byteLength_cons]
        omega

theorem cut_fills (size : Nat) (cs : List Char) :
    (cut size cs).2 = [] ∨ size ≤ byteLength (cut size cs).1 := by
  induction cs generalizing size with
  | nil => exact .inl rfl
  | cons c cs ih =>
    rw [cut]
    split
    · next hs => exact .inr (Nat.le_of_eq hs)
    · refine (ih (size - c.utf8Size)).imp_right fun hle => ?_
      rw [byteLength_cons]
      omega

@[simp] theorem pieces_nil (size : Nat) : pieces size [] = [] := by rw [pieces]

theorem pieces_flatten (size : Nat) (cs : List Char) : (pieces size cs).flatten = cs := by
  induction cs using pieces.induct size with
  | case1 =>
    rw [pieces_nil]
    rfl
  | case2 c cs rest hle ih =>
    rw [pieces, List.flatten_cons, ih]
    exact congrArg (c :: ·) (cut_append _ cs)

theorem pieces_length_le (size : Nat) (cs : List Char) : (pieces size cs).length ≤ cs.length := by
  induction cs using pieces.induct size with
  | case1 =>
    rw [pieces_nil]
    exact Nat.le_refl _
  | case2 c cs rest hle ih =>
    rw [pieces, List.length_cons, List.length_cons]
    exact Nat.succ_le_succ (Nat.le_trans ih hle)

theorem pieces_reach (size : Nat) (cs : List Char) :
    ∀ p ∈ pieces size cs, ∃ init c, p = init ++ [c] ∧ byteLength init < max size 1 := by
  induction cs using pieces.induct size with
  | case1 =>
    rw [pieces_nil]
    exact List.forall_mem_nil _
  | case2 c cs rest hle ih =>
    rw [pieces, List.forall_mem_cons]
    refine ⟨?_, ih⟩
    rcases cut_reaches (max size 1 - c.utf8Size) cs with hnil | ⟨init, d, heq, hlt⟩
    · exact ⟨[], c, congrArg (c :: ·) hnil, Nat.le_max_right size 1⟩
    · refine ⟨c :: init, d, congrArg (c :: ·) heq, ?_⟩
      rw [byteLength_cons]
      omega

/-- All pieces but the last are of the size at least. -/
theorem pieces_fill (size : Nat) (cs : List Char) :
    ∀ p ∈ (pieces size cs).dropLast, max size 1 ≤ byteLength p := by
  induction cs using pieces.induct size with
  | case1 =>
    rw [pieces_nil]
    exact List.forall_mem_nil _
  | case2 c cs rest hle ih =>
    rw [pieces]
    rcases cut_fills (max size 1 - c.utf8Size) cs with hnil | hfull
    · rw [hnil, pieces_nil]
      exact List.forall_mem_nil _
    · cases hps : pieces size (cut (max size 1 - c.utf8Size) cs).2 with
      | nil => exact List.forall_mem_nil _
      | cons q ps =>
        rw [List.dropLast_cons_cons, List.forall_mem_cons, ← hps]
        refine ⟨?_, ih⟩
        rw [byteLength_cons]
        omega

/-- Several characters, the last of which begins before a size is reached and ends after it. -/
def GoesPast (size : Nat) (p : List Char) : Prop :=
  ∃ init c, p = init ++ [c] ∧ init ≠ [] ∧ byteLength init < size ∧
    size < byteLength init + c.utf8Size

theorem GoesPast.too_long (h : GoesPast size p) : size < byteLength p ∧ 1 < p.length := by
  obtain ⟨init, c, rfl, hne, hlt, hpast⟩ := h
  have hinit : 0 < init.length := List.length_pos_iff.2 hne
  rw [byteLength_append, byteLength_cons, byteLength_nil, List.length_append, List.length_singleton]
  omega

theorem keeps_or_goesPast {init : List Char} {c : Char} (h : byteLength init < size) :
    byteLength (init ++ [c]) ≤ size ∨ (init ++ [c]).length = 1 ∨ GoesPast size (init ++ [c]) := by
  by_cases hle : byteLength (init ++ [c]) ≤ size
  · exact .inl hle
  · refine .inr ?_
    cases init with
    | nil => exact .inl rfl
    | cons d init =>
      refine .inr ⟨d :: init, c, rfl, List.cons_ne_nil d init, h, ?_⟩
      simpa [Nat.add_assoc] using hle

/-- Pieces lose nothing: they are the text, none is empty, and all but the last are of the size at
least, where a size of zero counts as one. A piece is at most of that size, or a single character,
unless the last of several characters goes past the size. Then it is too long by three bytes at
most. -/
theorem pieces_lossless (size : Nat) (cs : List Char) :
    (pieces size cs).flatten = cs ∧ (pieces size cs).length ≤ cs.length ∧
      (∀ p ∈ (pieces size cs).dropLast, max size 1 ≤ byteLength p) ∧
      ∀ p ∈ pieces size cs, p ≠ [] ∧ byteLength p ≤ max size 1 + 3 ∧
        ((byteLength p ≤ max size 1 ∨ p.length = 1) ↔ ¬GoesPast (max size 1) p) := by
  refine ⟨pieces_flatten size cs, pieces_length_le size cs, pieces_fill size cs, ?_⟩
  intro p hp
  obtain ⟨init, c, rfl, hlt⟩ := pieces_reach size cs p hp
  refine ⟨List.concat_ne_nil c init, ?_, ?_⟩
  · have hc : c.utf8Size ≤ 4 := c.utf8Size_le_four
    rw [byteLength_append, byteLength_cons, byteLength_nil]
    omega
  · constructor
    · intro hkeeps hpast
      obtain ⟨hlong, hseveral⟩ := hpast.too_long
      omega
    · intro hn
      rcases keeps_or_goesPast (c := c) hlt with hle | hone | hpast
      · exact .inl hle
      · exact .inr hone
      · exact absurd hpast hn

/-- A piece of two characters and three bytes, although the size is two. -/
theorem piece_passes_size :
    pieces 2 ['a', 'é'] = [['a', 'é']] ∧ ¬ ∀ size cs, ∀ p ∈ pieces size cs,
      byteLength p ≤ max size 1 ∨ p.length = 1 := by
  have hpieces : pieces 2 ['a', 'é'] = [['a', 'é']] := by
    rw [pieces]
    exact congrArg (['a', 'é'] :: ·) (pieces_nil 2)
  refine ⟨hpieces, fun h => ?_⟩
  have hp := h 2 ['a', 'é'] ['a', 'é'] (by rw [hpieces]; exact List.mem_singleton_self _)
  revert hp
  decide

end TermStream.Text
