import HeapScript.Text.StringLiteral
import HeapScript.Text.Unprintable

/-!
Quoted texts for readers: the quote, the backslash and all characters without a printed form are
escaped, the latter by their code point in braces.
-/

namespace HeapScript

namespace Text

/-- The lower-case hexadecimal digits of a number, without leading zeros. -/
def hexDigits (value : Nat) : List Char :=
  Nat.toDigits 16 value

def quotedChar (char : Char) : List Char :=
  if char = '"' then ['\\', '"']
  else if char = '\\' then ['\\', '\\']
  else if char = '\n' then ['\\', 'n']
  else if char = '\r' then ['\\', 'r']
  else if char = '\t' then ['\\', 't']
  else if char = '\x00' then ['\\', '0']
  else if isUnprintable char then
    ['\\', 'u', '\x7b'] ++ hexDigits char.toNat ++ ['\x7d']
  else [char]

def quoted (text : String) : String :=
  "\"" ++ String.ofList (text.toList.flatMap quotedChar) ++ "\""

end Text

end HeapScript
