import HeapScript.Json.Parser
import HeapScript.Text.StringLiteral
import Mathlib.Tactic.SplitIfs

/-!
String literals can be read back.

A reader that knows the escapes finds the text of a literal again. A scanner that only passes over
what a backslash hides stops at the closing quote.
-/

namespace HeapScript

open List

namespace Text

/-! ## Readers -/

def hexChar? (digits : List Char) : Option Char := do
  let number ← digits.foldlM (fun value digit => (Json.hexValue? digit).map (16 * value + ·)) 0
  if number.isValidChar then some (Char.ofNat number) else none

def escapeLetters : List (Char × Char) :=
  [('\\', '\\'), ('"', '"'), ('n', '\n'), ('r', '\r'), ('t', '\t')]

def lineEnds : List Char := ['\n', '\r', '\u2028', '\u2029']

/-- Reads a literal after its opening quote: its text, and what follows the closing quote. -/
def unescape : List Char → Option (List Char × List Char)
  | [] => none
  | '"' :: rest => some ([], rest)
  | '\\' :: 'x' :: a :: b :: rest => do
    let char ← hexChar? [a, b]
    (unescape rest).map (.map (char :: ·) id)
  | '\\' :: 'u' :: a :: b :: c :: d :: rest => do
    let char ← hexChar? [a, b, c, d]
    (unescape rest).map (.map (char :: ·) id)
  | '\\' :: letter :: rest => do
    let char ← escapeLetters.lookup letter
    (unescape rest).map (.map (char :: ·) id)
  | char :: rest =>
    if char ∈ lineEnds then none else (unescape rest).map (.map (char :: ·) id)

def fromQuote : List Char → List Char
  | [] => []
  | '"' :: rest => '"' :: rest
  | '\\' :: _ :: rest => fromQuote rest
  | _ :: rest => fromQuote rest

/-! ## Written texts -/

/-- A character that stands between quotes as it is. -/
def isPrinted (char : Char) : Bool := 0x20 ≤ char.toNat ∧ char ≠ '\u2028' ∧ char ≠ '\u2029'

theorem hexDigit_cases : ∀ value < 16, Json.hexValue? (hexDigit value) = some value ∧
    isPrinted (hexDigit value) ∧ hexDigit value ≠ '"' ∧ hexDigit value ≠ '\\' := by
  decide

theorem hexChar?_hexDigit {char : Char} (control : char.toNat < 0x20) :
    hexChar? [hexDigit (char.toNat / 16), hexDigit (char.toNat % 16)] = some char := by
  have high := (hexDigit_cases (char.toNat / 16) (by omega)).1
  have low := (hexDigit_cases (char.toNat % 16) (by omega)).1
  have whole : 16 * (char.toNat / 16) + char.toNat % 16 = char.toNat := Nat.div_add_mod _ _
  have isValid : char.toNat.isValidChar := char.valid
  simp [hexChar?, high, low, whole, isValid]

variable (char : Char) (rest : List Char)

theorem unescape_escapeChar :
    unescape (escapeChar char ++ rest) = (unescape rest).map (.map (char :: ·) id) := by
  unfold escapeChar
  split_ifs with slash quote newline ret tab line paragraph control
  case pos | pos | pos | pos | pos | pos | pos => subst char; rfl
  · simp [unescape, hexChar?_hexDigit control]
  · simp [unescape, lineEnds, *]

theorem fromQuote_escapeChar : fromQuote (escapeChar char ++ rest) = fromQuote rest := by
  unfold escapeChar
  split_ifs with slash quote newline ret tab line paragraph control
  case pos | pos | pos | pos | pos | pos | pos => rfl
  · obtain ⟨-, -, noQuote, noSlash⟩ := hexDigit_cases (char.toNat / 16) (by omega)
    obtain ⟨-, -, noQuote', noSlash'⟩ := hexDigit_cases (char.toNat % 16) (by omega)
    simp [fromQuote, *]
  · simp [fromQuote, *]

theorem all_isPrinted_escapeChar : (escapeChar char).all isPrinted = true := by
  unfold escapeChar
  split_ifs with slash quote newline ret tab line paragraph control
  case pos | pos | pos | pos | pos | pos | pos => rfl
  · obtain ⟨-, high, -⟩ := hexDigit_cases (char.toNat / 16) (by omega)
    obtain ⟨-, low, -⟩ := hexDigit_cases (char.toNat % 16) (by omega)
    simp only [all_cons, high, low]
    rfl
  · simpa [isPrinted, line, paragraph] using control

variable (text : String)

theorem isPrinted_of_mem_escape {char : Char} (member : char ∈ (escape text).toList) :
    isPrinted char = true := by
  rw [escape, String.toList_ofList] at member
  obtain ⟨source, -, member⟩ := mem_flatMap.mp member
  exact all_eq_true.mp (all_isPrinted_escapeChar source) char member

theorem unescape_escape :
    unescape ((escape text).toList ++ '"' :: rest) = some (text.toList, rest) := by
  rw [escape, String.toList_ofList]
  induction text.toList with
  | nil => rfl
  | cons char chars induction =>
    rw [flatMap_cons, append_assoc, unescape_escapeChar, induction]
    rfl

theorem fromQuote_escape : fromQuote ((escape text).toList ++ rest) = fromQuote rest := by
  rw [escape, String.toList_ofList]
  induction text.toList with
  | nil => rfl
  | cons char chars induction =>
    rw [flatMap_cons, append_assoc, fromQuote_escapeChar, induction]

/-- An escaped text is read back. It has no character that cannot stand in a literal, and no quote
that is not hidden, so the literal ends at its closing quote whatever follows. -/
theorem escape_staysInQuotes :
    unescape ((escape text).toList ++ '"' :: rest) = some (text.toList, rest) ∧
      (∀ char ∈ (escape text).toList,
        0x20 ≤ char.toNat ∧ char ≠ '\u2028' ∧ char ≠ '\u2029') ∧
      fromQuote (escape text).toList = [] ∧
      fromQuote ((escape text).toList ++ '"' :: rest) = '"' :: rest := by
  refine ⟨unescape_escape rest text, fun char member => ?_, ?_, fromQuote_escape _ text⟩
  · simpa [isPrinted] using isPrinted_of_mem_escape text member
  · simpa [fromQuote] using fromQuote_escape [] text

end Text

end HeapScript
