import TermStream.Text.Numeral

namespace TermStream

theorem length_lt_of_dropWhile {α : Type} {p : α → Bool} {xs rest : List α} {x : α}
    (h : xs.dropWhile p = x :: rest) : rest.length < xs.length := by
  have hle := (List.dropWhile_suffix p (l := xs)).length_le
  rwa [h] at hle

namespace Text.Template

/-- The slot that starts after an opening brace, with the text after its closing brace. A slot must
be one of the first `arity` ones. -/
def slot? (arity : Nat) (cs : List Char) : Option (Nat × List Char) :=
  match cs.dropWhile (· ≠ '\x7d') with
  | [] => none
  | _ :: rest =>
    match readWord? (cs.takeWhile (· ≠ '\x7d')) with
    | some i => if i < arity then some (i, rest) else none
    | none => none

theorem slot?_length {arity : Nat} {cs : List Char} {i : Nat} {rest : List Char}
    (h : slot? arity cs = some (i, rest)) : rest.length < cs.length := by
  unfold slot? at h
  split at h
  · cases h
  · next hd =>
    split at h
    · split at h
      · cases h
        exact length_lt_of_dropWhile hd
      · cases h
    · cases h

/-- The text up to the next opening brace as it stands, and what the brace starts. Behind a brace
that opens no slot the reading goes on with the next character. -/
def fill (args : List String) (cs : List Char) : List Char :=
  cs.takeWhile (· ≠ '\x7b') ++
    match hd : cs.dropWhile (· ≠ '\x7b') with
    | [] => []
    | _ :: rest =>
      have := length_lt_of_dropWhile hd
      match hs : slot? args.length rest with
      | some (i, after) =>
        have := slot?_length hs
        (args[i]?.getD "").toList ++ fill args after
      | none => '\x7b' :: fill args rest
termination_by cs.length

def render (template : String) (args : List String) : String :=
  String.ofList (fill args template.toList)

end Text.Template

end TermStream
