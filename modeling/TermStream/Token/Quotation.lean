import TermStream.Token.Scan

namespace TermStream.Quotation
open Text

def hexDigits : Nat → List Char → Scan
  | 0, cs => .stopped cs
  | _ + 1, [] => (Scan.looked []).found .invalidEscape ["x"]
  | n + 1, c :: cs =>
    if isHexDigit c then hexDigits n cs
    else (Scan.stopped (c :: cs)).found .invalidEscape ["x"]

def codePoint : List Char → Scan
  | '\x7b' :: cs =>
    let digits := (cs.take 6).takeWhile isHexDigit
    let rest := cs.drop digits.length
    match digits, rest with
    | _ :: _, '\x7d' :: after => .stopped after
    | _, _ => (Scan.looked rest).found .invalidEscape ["u"]
  | cs => (Scan.looked cs).found .invalidEscape ["u"]

/-- An escape after its backslash. A line break is never a part of it. -/
def escape : List Char → Scan
  | [] => .looked []
  | c :: cs =>
    if ['n', 'r', 't', '0', '\\', '\'', '"'].contains c then .stopped cs
    else if c = 'x' then hexDigits 2 cs
    else if c = 'u' then codePoint cs
    else if isLineBreak c then
      (Scan.stopped (c :: cs)).found .invalidEscape [showChar c]
    else (Scan.stopped cs).found .invalidEscape [c.toString]

def twoMore (quote : Char) : List Char → Bool
  | a :: b :: _ => a == quote && b == quote
  | _ => false

theorem hexDigits_length_le (n : Nat) (cs : List Char) :
    (hexDigits n cs).rest.length ≤ cs.length := by
  fun_induction hexDigits n cs with
  | case1 => exact Nat.le_refl _
  | case2 => exact Nat.le_refl _
  | case3 n c cs hc ih => exact Nat.le_succ_of_le ih
  | case4 => exact Nat.le_refl _

theorem codePoint_length_le (cs : List Char) : (codePoint cs).rest.length ≤ cs.length := by
  unfold codePoint
  split
  · next cs =>
    have hd : (cs.drop ((cs.take 6).takeWhile isHexDigit).length).length ≤ cs.length := by simp
    dsimp only
    split
    · next h =>
      rw [h] at hd
      simp only [Scan.stopped_rest, List.length_cons] at hd ⊢
      omega
    · simp only [Scan.found_rest, Scan.looked_rest, List.length_cons] at hd ⊢
      omega
  · simp

theorem escape_length_le (cs : List Char) : (escape cs).rest.length ≤ cs.length := by
  cases cs with
  | nil => exact Nat.le_refl _
  | cons c cs =>
    simp only [escape]
    split
    · exact Nat.le_succ _
    · split
      · exact Nat.le_succ_of_le (hexDigits_length_le 2 cs)
      · split
        · exact Nat.le_succ_of_le (codePoint_length_le cs)
        · split
          · exact Nat.le_refl _
          · exact Nat.le_succ _

/-- The literal after its opening quotes, up to and including the closing ones. -/
def body (quote : Char) (triple : Bool) : List Char → Scan
  | [] => (Scan.looked []).found .unterminatedString []
  | c :: cs =>
    if !triple && isLineBreak c then (Scan.stopped (c :: cs)).found .unterminatedString []
    else if c = '\\' then
      have := escape_length_le cs
      let e := escape cs
      let b := body quote triple e.rest
      ⟨b.rest, e.starved || b.starved, e.findings ++ b.findings⟩
    else if c = quote then
      if !triple then .stopped cs
      else if twoMore quote cs then .stopped (cs.drop 2)
      else body quote triple cs
    else body quote triple cs
termination_by cs => cs.length

def literal (quote : Char) (cs : List Char) : Lexeme :=
  if twoMore quote cs then ⟨.string quote true, body quote true (cs.drop 2)⟩
  else
    let b := body quote false cs
    ⟨.string quote false, { b with starved := b.starved || cs.isEmpty || cs == [quote] }⟩

end TermStream.Quotation
