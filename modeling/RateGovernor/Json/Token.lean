import RateGovernor.Decimal.Numeral

/-!
# JSON tokens

The tokens of a JSON text and the way each is written. A string token holds its text, or none if
the string has an unpaired surrogate and so is not made of characters.
-/

namespace RateGovernor.Json

inductive Token where
  | leftBrace
  | rightBrace
  | leftBracket
  | rightBracket
  | colon
  | comma
  | null
  | bool (value : Bool)
  | number (value : Numeral)
  | string (value : Option String)
  deriving DecidableEq, Repr

/-- The characters that may stand between tokens. -/
def isBlank (c : Char) : Bool := c == ' ' || c == '\t' || c == '\n' || c == '\r'

/-- Quotes, backslashes and control characters are escaped, the common ones by a letter. -/
def escape (c : Char) : List Char :=
  if c = '"' then ['\\', '"']
  else if c = '\\' then ['\\', '\\']
  else if c = '\x08' then ['\\', 'b']
  else if c = '\t' then ['\\', 't']
  else if c = '\n' then ['\\', 'n']
  else if c = '\x0c' then ['\\', 'f']
  else if c = '\r' then ['\\', 'r']
  else if c.toNat < 32 then
    ['\\', 'u', '0', '0', Nat.digitChar (c.toNat / 16), Nat.digitChar (c.toNat % 16)]
  else [c]

/-- The text of a token. A string that is not made of characters is written as a lone surrogate. -/
def Token.text : Token → List Char
  | .leftBrace => ['\x7b']
  | .rightBrace => ['\x7d']
  | .leftBracket => ['[']
  | .rightBracket => [']']
  | .colon => [':']
  | .comma => [',']
  | .null => ['n', 'u', 'l', 'l']
  | .bool true => ['t', 'r', 'u', 'e']
  | .bool false => ['f', 'a', 'l', 's', 'e']
  | .number n => n.text
  | .string (some s) => '"' :: (s.toList.flatMap escape ++ ['"'])
  | .string none => ['"', '\\', 'u', 'd', '8', '0', '0', '"']

end RateGovernor.Json
