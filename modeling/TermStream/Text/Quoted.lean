import TermStream.Text.Classes

namespace TermStream.Text

def hexDigits (n : Nat) : List Char := Nat.toDigits 16 n

def codePointEscape (c : Char) : List Char :=
  ['\\', 'u', '\x7b'] ++ hexDigits c.toNat ++ ['\x7d']

/-- A character written so that it is seen; `quotes` are the quote characters to be escaped. -/
def escapeChar (quotes : List Char) (c : Char) : List Char :=
  if c = '\x00' then ['\\', '0']
  else if c = '\t' then ['\\', 't']
  else if c = '\r' then ['\\', 'r']
  else if c = '\n' then ['\\', 'n']
  else if c = '\\' ∨ c ∈ quotes then ['\\', c]
  else if isExtending c || !isPrintable c then codePointEscape c
  else [c]

def showChar (c : Char) : String := String.ofList (escapeChar ['"', '\''] c)

def quoted (text : String) : String :=
  "\"" ++ String.ofList (text.toList.flatMap (escapeChar ['"'])) ++ "\""

end TermStream.Text
