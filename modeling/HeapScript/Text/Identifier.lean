/-!
Identifiers: the names that are written bare after a dot or as a key. All other names are written
as quoted strings.
-/

namespace HeapScript

namespace Text

/-- ASCII letters and digits, the underscore and the dollar sign. -/
def isIdentifierChar (char : Char) : Bool :=
  char.isAlphanum || char == '_' || char == '$'

/-- A nonempty word of identifier characters that does not start with a digit. -/
def isIdentifier (name : String) : Bool :=
  match name.toList with
  | [] => false
  | first :: rest => !first.isDigit && (first :: rest).all isIdentifierChar

example : isIdentifier "$f_0" = true := by decide
example : isIdentifier "1a" = false := by decide
example : isIdentifier "" = false := by decide

end Text

end HeapScript
