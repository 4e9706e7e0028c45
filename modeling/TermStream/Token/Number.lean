import TermStream.Token.Scan

namespace TermStream.Number
open Text

def isDecimalPart (c : Char) : Bool := isDigit c || c == '_'

def isRadixPart (c : Char) : Bool := isWordChar c || c == '_'

def isDigitOf (radix : Nat) (c : Char) : Bool :=
  match digitValue? c with
  | some v => v < radix
  | none => false

def radix? (digits : List Char) : Option Nat :=
  (digitsValue? 0 digits).filter fun n => 2 ≤ n && n ≤ 36

/-- What is wrong with the digits of a radix number. Only the first digit out of range counts. -/
def radixFindings (base digits : List Char) : List Finding :=
  let wrong := match radix? base with
    | none => [⟨.invalidRadix, [String.ofList base]⟩]
    | some r => match digits.find? (fun c => !isDigitOf r c) with
      | some c => [⟨.digitOutOfRadix, [c.toString, toString r]⟩]
      | none => []
  wrong ++ if digits.isEmpty then [⟨.missingRadixDigits, []⟩] else []

def radixPart (base : List Char) (cs : List Char) : Scan :=
  let digits := (cs.takeWhile isRadixPart).filter (· != '_')
  let s : Scan := match cs.dropWhile isRadixPart with
    | '#' :: rest => .stopped rest
    | rest => (Scan.looked rest).found .unterminatedRadixNumber []
  { s with findings := radixFindings base digits ++ s.findings }

def fraction : List Char → Bool × Scan
  | ['.'] => (false, ⟨['.'], true, []⟩)
  | '.' :: c :: cs =>
    if isDigit c then (true, .run isDecimalPart (c :: cs)) else (false, .stopped ('.' :: c :: cs))
  | cs => (false, .looked cs)

/-- An exponent, and whether there is one. A letter without a digit or sign after it is not. -/
def exponent : List Char → Bool × Scan
  | [] => (false, .looked [])
  | e :: cs =>
    if e = 'e' ∨ e = 'E' then
      match cs with
      | [] => (false, ⟨[e], true, []⟩)
      | c :: rest =>
        if isDigit c then (true, .run isDecimalPart (c :: rest))
        else if c = '+' ∨ c = '-' then
          match rest with
          | d :: _ =>
            if isDigit d then (true, .run isDecimalPart rest)
            else (true, (Scan.stopped rest).found .missingExponentDigits [])
          | [] => (true, (Scan.looked []).found .missingExponentDigits [])
        else (false, .stopped (e :: c :: rest))
    else (false, .stopped (e :: cs))

def suffixed (kind : TokenKind) (s : Scan) : Lexeme :=
  match s.rest with
  | c :: _ =>
    if isIdentifierStart c then
      let word := s.rest.takeWhile isIdentifierPart
      ⟨(TokenKey.simple kind).withSuffix (String.ofList word), s.andThen (.run isIdentifierPart)⟩
    else ⟨.simple kind, s⟩
  | [] => ⟨.simple kind, { s with starved := true }⟩

/-- A number that starts with the digit `first`. -/
def literal (first : Char) (cs : List Char) : Lexeme :=
  let digits := first :: cs.takeWhile isDecimalPart
  match cs.dropWhile isDecimalPart with
  | '#' :: rest => suffixed .integer (radixPart (digits.filter (· != '_')) rest)
  | rest =>
    let (hasFraction, s) := fraction rest
    let (hasExponent, t) := exponent s.rest
    let whole : Scan := ⟨t.rest, s.starved || t.starved, s.findings ++ t.findings⟩
    suffixed (if hasFraction || hasExponent then .float else .integer) whole

end TermStream.Number
