/-!
String literals: the escaped form of a text between double quotes.

The quote, the backslash, the control characters and the two line separators of Unicode are
escaped; every other character stands for itself.
-/

namespace HeapScript

namespace Text

/-- The lower-case hexadecimal digit of a number below sixteen. -/
def hexDigit (value : Nat) : Char :=
  if value < 10 then Char.ofNat (48 + value) else Char.ofNat (87 + value)

def escapeChar (char : Char) : List Char :=
  if char = '\\' then ['\\', '\\']
  else if char = '"' then ['\\', '"']
  else if char = '\n' then ['\\', 'n']
  else if char = '\r' then ['\\', 'r']
  else if char = '\t' then ['\\', 't']
  else if char = '\u2028' then ['\\', 'u', '2', '0', '2', '8']
  else if char = '\u2029' then ['\\', 'u', '2', '0', '2', '9']
  else if char.toNat < 0x20 then
    ['\\', 'x', hexDigit (char.toNat / 16), hexDigit (char.toNat % 16)]
  else [char]

def escape (text : String) : String :=
  String.ofList (text.toList.flatMap escapeChar)

def literal (text : String) : String :=
  "\"" ++ escape text ++ "\""

example : literal "a\"b\n" = "\"a\\\"b\\n\"" := by decide
example : escape "\x01" = "\\x01" := by decide

end Text

end HeapScript
