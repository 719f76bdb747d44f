import HeapScript.Decimal.Nearest
import HeapScript.Decimal.Shortest

/-!
Reading written digits as a number.

Of the digits only the leading ones count, as many as fit into sixty-four bits. The number they
form and the power of ten they are scaled by are rounded each for itself, and their product or
quotient is rounded again. So a decimal of up to fifteen digits and twenty-two places is read as
the nearest number, and a longer one may be read as a neighbour of that.
-/

namespace HeapScript

namespace Decimal

def digitValue (digit : Char) : Nat := digit.toNat - 48

def digitsValue (digits : List Char) : Nat :=
  digits.foldl (fun value digit => value * 10 + digitValue digit) 0

/-- Appends digits to a number while the result fits into sixty-four bits. Also counts the digits
that were appended. -/
def appendDigits : (value : Nat) → List Char → Nat × Nat
  | value, [] => (value, 0)
  | value, digit :: digits =>
    let longer := value * 10 + digitValue digit
    if longer < UInt64.size then
      let (result, count) := appendDigits longer digits
      (result, count + 1)
    else (value, 0)

/-- The decimal of the leading digits of a written number. A digit of the whole part that does not
count still moves the others up by one place. -/
def ofDigits (whole fraction : List Char) (exponent : Int) : Decimal :=
  let (value, kept) := appendDigits 0 whole
  let (value, places) := appendDigits value fraction
  ⟨value, exponent + (whole.length - kept : Nat) - places⟩

end Decimal

namespace Double

/-! ## Rounded arithmetic

The operations disregard signs. A finite magnitude is the fraction `numerator / denominator`. -/

def numerator (number : Double) : Nat :=
  number.significand * powerOfTwo number.exponent.toNat

def denominator (number : Double) : Nat :=
  powerOfTwo (-number.exponent).toNat

def product? (left right : Double) : Option Double :=
  ofFraction? (left.numerator * right.numerator) (left.denominator * right.denominator)

def quotient? (left right : Double) : Option Double :=
  ofFraction? (left.numerator * right.denominator) (left.denominator * right.numerator)

/-! ## Scaling by powers of ten -/

/-- The exponent of the largest power of ten among the numbers. -/
def largestTen : Nat := 308

def tenTo? (exponent : Nat) : Option Double :=
  if exponent ≤ largestTen then ofFraction? (powerOfTen exponent) 1 else none

def timesTenTo? (number : Double) (exponent : Nat) : Option Double :=
  (tenTo? exponent).bind number.product?

/-- A number of sixty-four bits over a power of ten. Beyond the largest power the division takes
two steps, and beyond its square nothing is left of the number. -/
def overTenTo? (number : Double) (exponent : Nat) : Option Double :=
  if exponent ≤ largestTen then (tenTo? exponent).bind number.quotient?
  else if exponent ≤ 2 * largestTen then do
    let shrunk ← (tenTo? largestTen).bind number.quotient?
    (tenTo? (exponent - largestTen)).bind shrunk.quotient?
  else some (ofMagnitude false 0)

/-- The finite number of a signed decimal whose digits fit into sixty-four bits. A decimal beyond
the largest number is refused, and one that is too small becomes zero. -/
def ofDecimal? (negative : Bool) (decimal : Decimal) : Option Double := do
  let digits ← ofFraction? decimal.digits 1
  let magnitude ←
    if digits.isZero then some digits
    else if 0 ≤ decimal.scale then digits.timesTenTo? decimal.scale.toNat
    else digits.overTenTo? (-decimal.scale).toNat
  return ofMagnitude negative magnitude.bits.toNat

example : (ofDecimal? false ⟨12, 274⟩).map shortestDecimal = some ⟨11999999999999998, 259⟩ := by
  decide +kernel

end Double

end HeapScript
