import TermStream.Text.Alphabetic
import TermStream.Text.Numeric
import TermStream.Text.Extending
import TermStream.Text.Unprintable

namespace TermStream.Text

/-- Whether an odd number of the increasing `bounds` are at most `n`. -/
def within : List Nat → Nat → Bool
  | [], _ => false
  | b :: bounds, n => if n < b then false else !within bounds n

def isAlphabetic (c : Char) : Bool := within alphabeticBounds c.toNat

def isNumeric (c : Char) : Bool := within numericBounds c.toNat

def isAlphanumeric (c : Char) : Bool := isAlphabetic c || isNumeric c

/-- The switching points of the Unicode property White_Space. -/
def blankBounds : List Nat :=
  [9, 14, 32, 33, 133, 134, 160, 161, 5760, 5761, 8192, 8203, 8232, 8234, 8239, 8240, 8287, 8288,
   12288, 12289]

def isBlank (c : Char) : Bool := within blankBounds c.toNat

def isExtending (c : Char) : Bool := within extendingBounds c.toNat

def isPrintable (c : Char) : Bool := !within unprintableBounds c.toNat

def isDigit (c : Char) : Bool := '0' ≤ c && c ≤ '9'

def isHexDigit (c : Char) : Bool := isDigit c || ('a' ≤ c && c ≤ 'f') || ('A' ≤ c && c ≤ 'F')

/-- The value of an ASCII digit or letter as a digit of some radix up to 36. -/
def digitValue? (c : Char) : Option Nat :=
  if isDigit c then some (c.toNat - '0'.toNat)
  else if 'a' ≤ c && c ≤ 'z' then some (c.toNat - 'a'.toNat + 10)
  else if 'A' ≤ c && c ≤ 'Z' then some (c.toNat - 'A'.toNat + 10)
  else none

def isWordChar (c : Char) : Bool := (digitValue? c).isSome

/-- The characters of which operators are made. -/
def isGraphic (c : Char) : Bool := "~!@#$%^&*-+=|\\/:<>?.".toList.contains c

def isIdentifierStart (c : Char) : Bool := isAlphabetic c || c == '_'

def isIdentifierPart (c : Char) : Bool := isAlphanumeric c || c == '_'

def isLineBreak (c : Char) : Bool := c == '\n' || c == '\r'

end TermStream.Text
