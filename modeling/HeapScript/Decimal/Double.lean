/-!
Binary floating-point numbers of 64 bits, held as their bits.

A `Double` is compared for identity by its bits (`=`) and for numerical equality by
`Double.sameNumber`, under which a NaN differs from itself and the two zeros agree.
-/

namespace HeapScript

def powerOfTwo (exponent : Nat) : Nat := Nat.pow 2 exponent

def powerOfTen (exponent : Nat) : Nat := Nat.pow 10 exponent

/-- A 64-bit number: one sign bit, eleven exponent bits and fifty-two fraction bits. -/
structure Double where
  bits : UInt64
deriving DecidableEq, Repr, Inhabited

namespace Double

/-! ## The three fields -/

/-- The sign bit, which NaNs and zeros carry too. -/
def negative (number : Double) : Bool :=
  decide (powerOfTwo 63 ≤ number.bits.toNat)

def exponentField (number : Double) : Nat :=
  number.bits.toNat / powerOfTwo 52 % powerOfTwo 11

def fraction (number : Double) : Nat :=
  number.bits.toNat % powerOfTwo 52

/-! ## Classes -/

def isNaN (number : Double) : Bool :=
  number.exponentField == 2047 && number.fraction != 0

def isInfinite (number : Double) : Bool :=
  number.exponentField == 2047 && number.fraction == 0

def isZero (number : Double) : Bool :=
  number.exponentField == 0 && number.fraction == 0

/-- Numerical equality: a NaN equals nothing, the two zeros are equal, and all other
numbers are equal exactly when their bits are. -/
def sameNumber (left right : Double) : Bool :=
  !left.isNaN && !right.isNaN && (left == right || (left.isZero && right.isZero))

/-! ## Magnitude

A finite number has the magnitude `significand * 2 ^ exponent`. -/

def significand (number : Double) : Nat :=
  if number.exponentField = 0 then number.fraction else number.fraction + powerOfTwo 52

def exponent (number : Double) : Int :=
  if number.exponentField = 0 then -1074 else (number.exponentField : Int) - 1075

/-- The number with the sign `negative` and the remaining sixty-three bits `magnitude`. -/
def ofMagnitude (negative : Bool) (magnitude : Nat) : Double :=
  ⟨UInt64.ofNat (if negative then powerOfTwo 63 + magnitude else magnitude)⟩

example : (ofMagnitude true 0).negative = true := rfl
example : (ofMagnitude true 0).sameNumber (ofMagnitude false 0) = true := rfl

end Double

end HeapScript
