import HeapScript.Decimal.Double

/-!
The number nearest to a fraction, a tie going to the even significand.
-/

namespace HeapScript

namespace Double

/-- The quotient rounded to the nearest natural number, ties to even. -/
def roundedQuotient (numerator denominator : Nat) : Nat :=
  let floor := numerator / denominator
  let twice := 2 * (numerator % denominator)
  if twice < denominator then floor
  else if denominator < twice then floor + 1
  else floor + floor % 2

/-- The magnitude bits of the number nearest to a positive fraction. The binary exponent is the
one that gives the significand fifty-three bits, but never below that of the smallest number. -/
def nearestMagnitude (numerator denominator : Nat) : Nat :=
  let estimate : Int := (Nat.log2 numerator : Int) - (Nat.log2 denominator : Int) - 52
  let scaledUp (exponent : Int) : Nat × Nat :=
    (numerator * powerOfTwo (-exponent).toNat, denominator * powerOfTwo exponent.toNat)
  let exponent :=
    let (top, bottom) := scaledUp estimate
    if top / bottom < powerOfTwo 52 then estimate - 1 else estimate
  let exponent := max exponent (-1074)
  let (top, bottom) := scaledUp exponent
  (exponent + 1074).toNat * powerOfTwo 52 + roundedQuotient top bottom

def infinityMagnitude : Nat := 2047 * powerOfTwo 52

/-- The number nearest to a fraction, unless that lies beyond the largest number. -/
def ofFraction? (numerator denominator : Nat) : Option Double :=
  if numerator = 0 then some (ofMagnitude false 0)
  else
    let magnitude := nearestMagnitude numerator denominator
    if magnitude < infinityMagnitude then some (ofMagnitude false magnitude) else none

/-- The number of a natural number, which must be small enough to be represented exactly. -/
def ofNat (value : Nat) : Double :=
  (ofFraction? value 1).getD (ofMagnitude false 0)

example : (ofNat 1).bits = 0x3ff0000000000000 := by decide

end Double

end HeapScript
