import HeapScript.Decimal.Shortest

/-!
Numbers as text: the shortest digits that read back, always in positional notation.
-/

namespace HeapScript

namespace Decimal

def digitsText (value : Nat) : List Char :=
  Nat.toDigits 10 value

/-- Writes a decimal without an exponent: zeros fill the places up to the decimal point. -/
def positional (decimal : Decimal) : String :=
  let digits := digitsText decimal.digits
  if 0 ≤ decimal.scale then
    String.ofList (digits ++ List.replicate decimal.scale.toNat '0')
  else
    let places := (-decimal.scale).toNat
    if places < digits.length then
      let whole := digits.length - places
      String.ofList (digits.take whole ++ '.' :: digits.drop whole)
    else
      String.ofList ('0' :: '.' :: (List.replicate (places - digits.length) '0' ++ digits))

example : positional ⟨123, 2⟩ = "12300" := by decide
example : positional ⟨123, -2⟩ = "1.23" := by decide
example : positional ⟨123, -5⟩ = "0.00123" := by decide

end Decimal

namespace Double

structure SpecialTexts where
  nan : String
  infinity : String
deriving Repr

/-- The text of a number: the given words for NaN and the infinities, and the shortest digits
that read back otherwise. A minus sign marks a set sign bit, also of a zero. -/
def text (specials : SpecialTexts) (number : Double) : String :=
  if number.isNaN then specials.nan
  else
    let sign := if number.negative then "-" else ""
    if number.isInfinite then sign ++ specials.infinity
    else sign ++ number.shortestDecimal.positional

end Double

end HeapScript
