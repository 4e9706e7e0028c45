namespace TermStream.Text

def byteLength (cs : List Char) : Nat := cs.foldr (fun c n => c.utf8Size + n) 0

@[simp] theorem byteLength_nil : byteLength [] = 0 := rfl

@[simp] theorem byteLength_cons (c : Char) (cs : List Char) :
    byteLength (c :: cs) = c.utf8Size + byteLength cs := rfl

@[simp] theorem byteLength_append (xs ys : List Char) :
    byteLength (xs ++ ys) = byteLength xs + byteLength ys := by
  induction xs with
  | nil => simp
  | cons c xs ih => simp [ih, Nat.add_assoc]

/-- Takes characters until at least `size` bytes are taken. -/
def cut (size : Nat) : List Char → List Char × List Char
  | [] => ([], [])
  | c :: cs =>
    if size = 0 then ([], c :: cs)
    else
      let (head, rest) := cut (size - c.utf8Size) cs
      (c :: head, rest)

theorem cut_length_le (size : Nat) (cs : List Char) : (cut size cs).2.length ≤ cs.length := by
  induction cs generalizing size with
  | nil => simp [cut]
  | cons c cs ih =>
    unfold cut
    split
    · exact Nat.le_refl _
    · exact Nat.le_succ_of_le (ih _)

/-- The pieces of a text: each ends at the first boundary between characters at or after `size`
bytes, and a size of zero counts as one. -/
def pieces (size : Nat) : List Char → List (List Char)
  | [] => []
  | c :: cs =>
    let rest := (cut (max size 1 - c.utf8Size) cs).2
    have := cut_length_le (max size 1 - c.utf8Size) cs
    (c :: (cut (max size 1 - c.utf8Size) cs).1) :: pieces size rest
termination_by cs => cs.length

end TermStream.Text
