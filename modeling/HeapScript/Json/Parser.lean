import HeapScript.Decimal.Reading
import HeapScript.Json.Value

/-!
Reading a JSON text. A text is one value with only blanks around it.
-/

namespace HeapScript

namespace Json

/-! ## Characters -/

def isBlank (char : Char) : Bool :=
  char == ' ' || char == '\t' || char == '\n' || char == '\r'

def skipBlanks (input : List Char) : List Char :=
  input.dropWhile isBlank

def hexValue? (char : Char) : Option Nat :=
  if char.isDigit then some (char.toNat - 48)
  else if 'a' ≤ char ∧ char ≤ 'f' then some (char.toNat - 87)
  else if 'A' ≤ char ∧ char ≤ 'F' then some (char.toNat - 55)
  else none

/-- The sixteen-bit unit written by four hexadecimal digits. -/
def hexUnit? (first second third fourth : Char) : Option Nat := do
  let a ← hexValue? first
  let b ← hexValue? second
  let c ← hexValue? third
  let d ← hexValue? fourth
  return ((a * 16 + b) * 16 + c) * 16 + d

def isHighSurrogate (unit : Nat) : Bool := 0xD800 ≤ unit && unit < 0xDC00

def isLowSurrogate (unit : Nat) : Bool := 0xDC00 ≤ unit && unit < 0xE000

/-- The character that follows a backslash in a one-letter escape. -/
def simpleEscape? (char : Char) : Option Char :=
  match char with
  | '"' => some '"'
  | '\\' => some '\\'
  | '/' => some '/'
  | 'b' => some '\x08'
  | 'f' => some '\x0c'
  | 'n' => some '\n'
  | 'r' => some '\r'
  | 't' => some '\t'
  | _ => none

/-! ## Strings -/

/-- What a unit escape waits for: nothing, or the second half of a surrogate pair. -/
abbrev PendingUnit := Option Nat

/-- Reads the characters of a string up to its closing quote. `pending` holds the first half of a
surrogate pair, which only the escape of its second half may follow. -/
def stringBody : (pending : PendingUnit) → (done : List Char) → List Char →
    Option (String × List Char)
  | none, done, '"' :: rest => some (String.ofList done.reverse, rest)
  | pending, done, '\\' :: 'u' :: a :: b :: c :: d :: rest =>
    match hexUnit? a b c d, pending with
    | none, _ => none
    | some unit, some high =>
      if isLowSurrogate unit then
        let code := 0x10000 + (high - 0xD800) * 0x400 + (unit - 0xDC00)
        stringBody none (Char.ofNat code :: done) rest
      else none
    | some unit, none =>
      if isHighSurrogate unit then stringBody (some unit) done rest
      else if isLowSurrogate unit then none
      else stringBody none (Char.ofNat unit :: done) rest
  | none, done, '\\' :: char :: rest =>
    match simpleEscape? char with
    | some plain => stringBody none (plain :: done) rest
    | none => none
  | none, done, char :: rest =>
    if char.toNat < 0x20 then none else stringBody none (char :: done) rest
  | _, _, _ => none

/-! ## Numbers -/

def digits? (input : List Char) : Option (List Char × List Char) :=
  match input.span Char.isDigit with
  | ([], _) => none
  | (digits, rest) => some (digits, rest)

def wholePart? (input : List Char) : Option (List Char × List Char) :=
  match digits? input with
  | some ('0' :: _ :: _, _) => none
  | read => read

def fractionPart? (input : List Char) : Option (Option (List Char) × List Char) :=
  match input with
  | '.' :: rest => (digits? rest).map fun (digits, rest) => (some digits, rest)
  | _ => some (none, input)

def exponentDigits? (negative : Bool) (input : List Char) : Option (Option Int × List Char) :=
  (digits? input).map fun (digits, rest) =>
    let value : Int := Decimal.digitsValue digits
    (some (if negative then -value else value), rest)

def exponentPart? (input : List Char) : Option (Option Int × List Char) :=
  match input with
  | mark :: rest =>
    if mark == 'e' || mark == 'E' then
      match rest with
      | '+' :: rest => exponentDigits? false rest
      | '-' :: rest => exponentDigits? true rest
      | _ => exponentDigits? false rest
    else some (none, input)
  | [] => some (none, input)

def numberValue (negative : Bool) (whole : List Char) (fraction : Option (List Char))
    (exponent : Option Int) : JsonNumber :=
  { negative
    decimal := .ofDigits whole (fraction.getD []) (exponent.getD 0)
    plain := fraction.isNone && exponent.isNone }

def unsignedNumber? (negative : Bool) (input : List Char) : Option (Json × List Char) := do
  let (whole, rest) ← wholePart? input
  let (fraction, rest) ← fractionPart? rest
  let (exponent, rest) ← exponentPart? rest
  return (.number (numberValue negative whole fraction exponent), rest)

def number? (input : List Char) : Option (Json × List Char) :=
  match input with
  | '-' :: rest => unsignedNumber? true rest
  | _ => unsignedNumber? false input

/-! ## Values -/

mutual

/-- Reads a value after optional blanks. Every nested value takes one unit of `fuel`. -/
def value? : (fuel : Nat) → List Char → Option (Json × List Char)
  | 0, _ => none
  | fuel + 1, input =>
    match skipBlanks input with
    | 'n' :: 'u' :: 'l' :: 'l' :: rest => some (.null, rest)
    | 't' :: 'r' :: 'u' :: 'e' :: rest => some (.bool true, rest)
    | 'f' :: 'a' :: 'l' :: 's' :: 'e' :: rest => some (.bool false, rest)
    | '"' :: rest => (stringBody none [] rest).map fun (text, rest) => (.string text, rest)
    | '[' :: rest =>
      match skipBlanks rest with
      | ']' :: rest => some (.array [], rest)
      | rest => items? fuel [] rest
    | '\x7b' :: rest =>
      match skipBlanks rest with
      | '\x7d' :: rest => some (.object [], rest)
      | rest => entries? fuel [] rest
    | rest => number? rest

def items? : (fuel : Nat) → (done : List Json) → List Char → Option (Json × List Char)
  | 0, _, _ => none
  | fuel + 1, done, input => do
    let (item, rest) ← value? fuel input
    match skipBlanks rest with
    | ',' :: rest => items? fuel (item :: done) rest
    | ']' :: rest => some (.array (item :: done).reverse, rest)
    | _ => none

def entries? : (fuel : Nat) → (done : List (String × Json)) → List Char →
    Option (Json × List Char)
  | 0, _, _ => none
  | fuel + 1, done, input =>
    match skipBlanks input with
    | '"' :: rest => do
      let (key, rest) ← stringBody none [] rest
      match skipBlanks rest with
      | ':' :: rest =>
        let (value, rest) ← value? fuel rest
        match skipBlanks rest with
        | ',' :: rest => entries? fuel ((key, value) :: done) rest
        | '\x7d' :: rest => some (.object ((key, value) :: done).reverse, rest)
        | _ => none
      | _ => none
    | _ => none

end

/-- Reads a whole text as one value. Every two calls of the reader consume a character, so twice
the length of the text bounds their nesting. -/
def parse? (text : String) : Option Json :=
  let input := text.toList
  match value? (2 * input.length + 2) input with
  | some (value, rest) => if (skipBlanks rest).isEmpty then some value else none
  | none => none

end Json

end HeapScript
