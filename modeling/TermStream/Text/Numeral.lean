import TermStream.Text.Classes

namespace TermStream.Text

def digitsValue? (acc : Nat) : List Char → Option Nat
  | [] => some acc
  | c :: cs => if isDigit c then digitsValue? (acc * 10 + (c.toNat - '0'.toNat)) cs else none

/-- A number that is at most `most`: decimal digits, at least one, after an optional plus sign. -/
def readNumeral? (most : Nat) (cs : List Char) : Option Nat :=
  let digits := match cs with
    | '+' :: r => r
    | r => r
  if digits.isEmpty then none
  else (digitsValue? 0 digits).filter (· ≤ most)

def maxWord : Nat := 18446744073709551615

def readWord? (cs : List Char) : Option Nat := readNumeral? maxWord cs

end TermStream.Text
