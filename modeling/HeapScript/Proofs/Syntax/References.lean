import HeapScript.Syntax.ValueExpr

/-!
References to values, and how far `Expr.sameReference` tells them apart.

The expressions that stand for values are literals, member chains and slots of arrays. Two of them
that count as the same are equal, but for the two zeros: they are the same number under two signs.
-/

namespace HeapScript

/-! ## Numbers -/

namespace Double

theorem eq_or_isZero_of_sameNumber {left right : Double} (same : left.sameNumber right = true) :
    left = right ∨ left.isZero = true ∧ right.isZero = true := by
  simp only [sameNumber, Bool.and_eq_true, Bool.or_eq_true, beq_iff_eq] at same
  exact same.2

theorem ofMagnitude_eq_zero {magnitude : Nat} (small : magnitude < infinityMagnitude)
    (zero : (ofMagnitude false magnitude).isZero = true) : magnitude = 0 := by
  have limit : infinityMagnitude = 2047 * 4503599627370496 := rfl
  have bits : (ofMagnitude false magnitude).bits.toNat = magnitude := by
    simp only [ofMagnitude, Bool.false_eq_true, if_false, UInt64.toNat_ofNat']
    omega
  have width : powerOfTwo 52 = 4503599627370496 := rfl
  have range : powerOfTwo 11 = 2048 := rfl
  simp only [isZero, exponentField, fraction, bits, width, range, Bool.and_eq_true,
    beq_iff_eq] at zero
  omega

theorem exists_magnitude_ofNat (value : Nat) :
    ∃ magnitude, magnitude < infinityMagnitude ∧ ofNat value = ofMagnitude false magnitude := by
  unfold ofNat ofFraction?
  split
  · exact ⟨0, by decide, rfl⟩
  · simp only
    split
    · rename_i small
      exact ⟨_, small, rfl⟩
    · exact ⟨0, by decide, rfl⟩

/-- The numbers of natural numbers have one zero, so the same ones are equal. -/
theorem ofNat_eq_of_sameNumber {value other : Nat}
    (same : (ofNat value).sameNumber (ofNat other) = true) : ofNat value = ofNat other := by
  rcases eq_or_isZero_of_sameNumber same with equal | ⟨zero, zero'⟩
  · exact equal
  · obtain ⟨magnitude, small, isValue⟩ := exists_magnitude_ofNat value
    obtain ⟨magnitude', small', isOther⟩ := exists_magnitude_ofNat other
    rw [isValue] at zero
    rw [isOther] at zero'
    rw [isValue, isOther, ofMagnitude_eq_zero small zero, ofMagnitude_eq_zero small' zero']

end Double

/-! ## Shapes of references -/

namespace Expr

/-- A variable with any number of member accesses. -/
inductive IsChain : Expr → Prop where
  | var (name : String) : IsChain (.var name)
  | member {holder : Expr} (chain : IsChain holder) (field : String) :
      IsChain (.member holder field)

inductive IsReference : Expr → Prop where
  | literal (value : Constant) : IsReference (.literal value)
  | chain {expr : Expr} (chain : IsChain expr) : IsReference expr
  | slot (array : String) (position : Nat) : IsReference (.index (.var array) (.nat position))

theorem IsChain.foldl_member {expr : Expr} (chain : IsChain expr) (fields : List String) :
    IsChain (fields.foldl .member expr) := by
  induction fields generalizing expr with
  | nil => exact chain
  | cons field fields induction => exact induction (chain.member field)

theorem isChain_path (dotted : String) : IsChain (.path dotted) := by
  unfold path
  split
  · exact .var dotted
  · exact (IsChain.var _).foldl_member _

theorem IsChain.eq_of_sameReference {left right : Expr} (chain : IsChain left)
    (same : left.sameReference right = true) : left = right := by
  induction chain generalizing right with
  | var name => cases right <;> simp_all [sameReference]
  | member _ field induction =>
    cases right with
    | member holder field' =>
      simp only [sameReference, Bool.and_eq_true, beq_iff_eq] at same
      rw [induction same.1, same.2]
    | _ => simp [sameReference] at same

/-! ## References that count as the same -/

def OppositeZeros (left right : Expr) : Prop :=
  ∃ number other : Double, left = .literal (.number number) ∧ right = .literal (.number other) ∧
    number.isZero = true ∧ other.isZero = true ∧ number ≠ other

def SameUpToZeros (left right : Expr) : Prop :=
  left = right ∨ OppositeZeros left right

theorem OppositeZeros.symm {left right : Expr} (opposite : OppositeZeros left right) :
    OppositeZeros right left := by
  obtain ⟨number, other, isLeft, isRight, zero, zero', different⟩ := opposite
  exact ⟨other, number, isRight, isLeft, zero', zero, different.symm⟩

theorem sameUpToZeros_literals {number other : Double} (zero : number.isZero = true)
    (zero' : other.isZero = true) :
    SameUpToZeros (.literal (.number number)) (.literal (.number other)) := by
  by_cases equal : number = other
  · exact .inl (by rw [equal])
  · exact .inr ⟨number, other, rfl, rfl, zero, zero', equal⟩

theorem SameUpToZeros.trans {left middle right : Expr} (first : SameUpToZeros left middle)
    (second : SameUpToZeros middle right) : SameUpToZeros left right := by
  rcases first with rfl | ⟨number, other, rfl, isMiddle, zero, _, _⟩
  · exact second
  · rcases second with rfl | ⟨_, last, isMiddle', rfl, _, zero', _⟩
    · exact .inr ⟨number, other, rfl, isMiddle, zero, by assumption, by assumption⟩
    · exact sameUpToZeros_literals zero zero'

theorem Constant.sameUpToZeros_of_same {left right : Constant} (same : left.same right = true) :
    SameUpToZeros (.literal left) (.literal right) := by
  cases left <;> cases right <;> simp only [Constant.same, Bool.false_eq_true] at same
  case number number other =>
    rcases Double.eq_or_isZero_of_sameNumber same with rfl | ⟨zero, zero'⟩
    · exact .inl rfl
    · exact sameUpToZeros_literals zero zero'
  all_goals first | exact .inl rfl | exact .inl (by rw [eq_of_beq same])

/-- References that count as the same differ at most in the sign of a zero. -/
theorem IsReference.sameUpToZeros {left right : Expr} (reference : IsReference left)
    (reference' : IsReference right) (same : left.sameReference right = true) :
    SameUpToZeros left right := by
  cases reference with
  | literal value =>
    cases reference' with
    | literal other => exact Constant.sameUpToZeros_of_same same
    | chain chain => cases chain <;> simp [sameReference] at same
    | slot array position => simp [sameReference] at same
  | chain chain => exact .inl (chain.eq_of_sameReference same)
  | slot array position =>
    cases reference' with
    | literal other => simp [sameReference] at same
    | chain chain => cases chain <;> simp [sameReference] at same
    | slot array' position' =>
      simp only [sameReference, nat, Constant.same, Bool.and_eq_true, beq_iff_eq] at same
      exact .inl (by simp [nat, same.1, Double.ofNat_eq_of_sameNumber same.2])

end Expr

end HeapScript
