import HeapScript.Decimal.Double

/-!
The shortest decimal that reads back as a given number.

All decimals in the *rounding interval* of a number read back as that number. The shortest of
them lies on the coarsest grid of powers of ten that meets the interval; of the two grid points
beside the number the nearer one is taken, and the upper one when both are equally near.
-/

namespace HeapScript

structure Decimal where
  digits : Nat
  scale : Int
deriving DecidableEq, Repr, Inhabited

namespace Decimal

/-- Removes at most `limit` trailing zeros of the digits, keeping the value. -/
def trimZeros : (limit : Nat) → Decimal → Decimal
  | 0, decimal => decimal
  | limit + 1, decimal =>
    if decimal.digits ≠ 0 ∧ decimal.digits % 10 = 0 then
      trimZeros limit ⟨decimal.digits / 10, decimal.scale + 1⟩
    else decimal

end Decimal

namespace Double

/-- The reals that round to a number, as fractions over one common denominator. The ends
belong to the interval when `closed` holds. -/
structure RoundingInterval where
  lower : Nat
  value : Nat
  upper : Nat
  denominator : Nat
  closed : Bool
deriving Repr

/-- The rounding interval of a positive finite magnitude. Below a power of two the neighbour is
half as far away as above it; an even significand wins the ties at both ends. -/
def roundingInterval (number : Double) : RoundingInterval :=
  let quarters := 4 * number.significand
  let below := if number.fraction = 0 ∧ 1 < number.exponentField then 1 else 2
  let scale := number.exponent - 2
  let factor := powerOfTwo scale.toNat
  { lower := (quarters - below) * factor
    value := quarters * factor
    upper := (quarters + 2) * factor
    denominator := powerOfTwo (-scale).toNat
    closed := number.significand % 2 = 0 }

namespace RoundingInterval

def contains (interval : RoundingInterval) (count unitNum unitDen : Nat) : Bool :=
  let point := count * unitNum * interval.denominator
  let low := interval.lower * unitDen
  let high := interval.upper * unitDen
  if interval.closed then low ≤ point && point ≤ high else low < point && point < high

/-- The grid point with spacing `10 ^ scale` that is nearest to the value, among the two
beside it that lie in the interval. -/
def onGrid (interval : RoundingInterval) (scale : Int) : Option Nat :=
  let unitNum := powerOfTen scale.toNat
  let unitDen := powerOfTen (-scale).toNat
  let exact := interval.value * unitDen
  let spacing := unitNum * interval.denominator
  let floor := exact / spacing
  let down := interval.contains floor unitNum unitDen
  let up := interval.contains (floor + 1) unitNum unitDen
  if up && (!down || spacing ≤ 2 * (exact % spacing)) then some (floor + 1)
  else if down then some floor
  else none

/-- Scans grids from coarse to fine and takes the first that meets the interval. -/
def scan (interval : RoundingInterval) : (steps : Nat) → (scale : Int) → Decimal
  | 0, scale =>
    let digits := interval.value * powerOfTen (-scale).toNat /
      (interval.denominator * powerOfTen scale.toNat)
    ⟨digits, scale⟩
  | steps + 1, scale =>
    match interval.onGrid scale with
    | some digits => ⟨digits, scale⟩
    | none => interval.scan steps (scale - 1)

/-- A power of ten that exceeds the value by less than a factor of one thousand. -/
def startScale (interval : RoundingInterval) : Int :=
  let binary : Int := (Nat.log2 interval.value : Int) - (Nat.log2 interval.denominator : Int) + 1
  Int.fdiv (binary * 30103) 100000 + 1

end RoundingInterval

/-- The shortest decimal that reads back as the magnitude of a finite number. Seventeen digits
always suffice; three more grids cover the estimate of the first one. -/
def shortestDecimal (number : Double) : Decimal :=
  if number.isZero then ⟨0, 0⟩
  else
    let interval := number.roundingInterval
    (interval.scan 20 interval.startScale).trimZeros 20

end Double

end HeapScript
