/-!
A supply of short names: a fixed stem followed by a number in base thirty-six, reserved names left
out.
-/

namespace HeapScript

/-! ## Base thirty-six -/

def base36Digit (value : Nat) : Char :=
  if value < 10 then Char.ofNat (48 + value) else Char.ofNat (87 + value)

def base36From : (fuel : Nat) → (value : Nat) → List Char
  | 0, _ => []
  | fuel + 1, value =>
    if value < 36 then [base36Digit value]
    else base36From fuel (value / 36) ++ [base36Digit (value % 36)]

/-- The digits of a number, without leading zeros. A number has fewer digits than itself plus
two. -/
def base36 (value : Nat) : List Char :=
  base36From (value + 1) value

example : base36 35 = ['z'] := by decide
example : base36 36 = ['1', '0'] := by decide

/-! ## The supply -/

structure FreshNames where
  stem : String
  -- A natural number stands for a counter of 64 bits, which no run exhausts.
  next : Nat := 0
  reserved : List String := []
deriving Repr, Inhabited

namespace FreshNames

def name (names : FreshNames) (number : Nat) : String :=
  names.stem ++ String.ofList (base36 number)

def reserve (names : FreshNames) (taken : List String) : FreshNames :=
  { names with reserved := taken ++ names.reserved }

def firstFreeFrom (names : FreshNames) : (fuel : Nat) → (number : Nat) → Nat
  | 0, number => number
  | fuel + 1, number =>
    if names.name number ∈ names.reserved then names.firstFreeFrom fuel (number + 1) else number

/-- The next number whose name is not reserved. Of as many names as are reserved and one more, one
is free. -/
def firstFree (names : FreshNames) : Nat :=
  names.firstFreeFrom (names.reserved.length + 1) names.next

def generate (names : FreshNames) : String × FreshNames :=
  let number := names.firstFree
  (names.name number, { names with next := number + 1 })

def generateMany : (count : Nat) → FreshNames → List String × FreshNames
  | 0, names => ([], names)
  | count + 1, names =>
    let (first, names) := names.generate
    let (others, names) := generateMany count names
    (first :: others, names)

end FreshNames

end HeapScript
