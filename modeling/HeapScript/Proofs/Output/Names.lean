import HeapScript.Output.CapturedScopes
import HeapScript.Output.FreshNames
import HeapScript.Output.Instance
import Mathlib.Data.List.Nodup
import Mathlib.Data.List.Perm.Subperm

/-!
Generated names tell apart what they name.
-/

namespace HeapScript

open List

theorem decimal_inj {number other : Nat} (same : number.repr = other.repr) : number = other := by
  have digits : Nat.toDigits 10 number = Nat.toDigits 10 other := by
    rw [Nat.repr_eq_ofList_toDigits, Nat.repr_eq_ofList_toDigits] at same
    exact String.ofList_injective same
  calc
    number = Nat.ofDigitChars 10 (Nat.toDigits 10 number) 0 := Nat.ofDigitChars_ten_toDigits.symm
    _ = Nat.ofDigitChars 10 (Nat.toDigits 10 other) 0 := by rw [digits]
    _ = other := Nat.ofDigitChars_ten_toDigits

theorem scopeLocalName_inj {position other : Nat}
    (same : scopeLocalName position = scopeLocalName other) : position = other :=
  decimal_inj (by simpa [scopeLocalName] using same)

theorem selectorParamName_inj {position other : Nat}
    (same : selectorParamName position = selectorParamName other) : position = other :=
  decimal_inj (by simpa [selectorParamName] using same)

/-! ## Helpers of captured scopes -/

theorem append_cancel {text rest other : String} (same : text ++ rest = text ++ other) :
    rest = other := by
  have letters := congrArg String.toList same
  rw [String.toList_append, String.toList_append] at letters
  exact String.toList_inj.mp (append_cancel_left letters)

theorem letter_append {text : String} (rest : String) {index : Nat} {letter : Char}
    (isLetter : text.toList[index]? = some letter) :
    (text ++ rest).toList[index]? = some letter := by
  rw [String.toList_append, List.getElem?_append_left (List.getElem?_eq_some_iff.mp isLetter).1,
    isLetter]

theorem letter_selectorParamName (position : Nat) :
    (selectorParamName position).toList[2]? = some 's' :=
  show ("__selector_" ++ _).toList[2]? = some 's' from letter_append _ (by decide)

theorem selectorParamName_ne_arrayName (captured : CapturedScopes) (owner : ScopeOwner)
    (position : Nat) : selectorParamName position ≠ captured.arrayName owner := by
  intro same
  have letter : (captured.arrayName owner).toList[2]? = some 'c' := letter_append _ (by decide)
  rw [← same, letter_selectorParamName] at letter
  simp at letter

theorem selectorParamName_ne_accessorName (captured : CapturedScopes) (owner : ScopeOwner)
    (position : Nat) : selectorParamName position ≠ captured.accessorName owner := by
  intro same
  have letter : (captured.accessorName owner).toList[2]? = some 'g' := letter_append _ (by decide)
  rw [← same, letter_selectorParamName] at letter
  simp at letter

theorem selectorParamName_ne_arguments (position : Nat) :
    selectorParamName position ≠ "arguments" := by
  intro same
  have letter := letter_selectorParamName position
  rw [same] at letter
  simp at letter

/-! ## Numbers in base thirty-six -/

def base36Value (digit : Char) : Nat :=
  if digit.toNat < 58 then digit.toNat - 48 else digit.toNat - 87

theorem base36Value_digit : ∀ {value : Nat}, value < 36 →
    base36Value (base36Digit value) = value := by
  decide

theorem base36From_decodes {fuel value : Nat} (enough : value < fuel) :
    (base36From fuel value).foldl (fun number digit => number * 36 + base36Value digit) 0 =
      value := by
  induction fuel generalizing value with
  | zero => omega
  | succ fuel induction =>
    unfold base36From
    split
    · rename_i small
      simp [base36Value_digit small]
    · rw [foldl_append, induction (by omega)]
      simp only [foldl_cons, foldl_nil, base36Value_digit (Nat.mod_lt value (by omega))]
      omega

theorem base36_inj {value other : Nat} (same : base36 value = base36 other) : value = other := by
  unfold base36 at same
  rw [← base36From_decodes (Nat.lt_succ_self value), same,
    base36From_decodes (Nat.lt_succ_self other)]

theorem base36_starts (value : Nat) :
    ∃ digit < 36, (base36 value)[0]? = some (base36Digit digit) := by
  have starts : ∀ fuel value, ∃ digit < 36,
      (base36From (fuel + 1) value)[0]? = some (base36Digit digit) := by
    intro fuel
    induction fuel with
    | zero =>
      intro value
      unfold base36From
      split
      · rename_i small
        exact ⟨value, small, rfl⟩
      · exact ⟨value % 36, Nat.mod_lt _ (by omega), rfl⟩
    | succ fuel induction =>
      intro value
      unfold base36From
      split
      · rename_i small
        exact ⟨value, small, rfl⟩
      · obtain ⟨digit, small, isDigit⟩ := induction (value / 36)
        exact ⟨digit, small, by
          rw [List.getElem?_append_left (List.getElem?_eq_some_iff.mp isDigit).1, isDigit]⟩
  exact starts value value

namespace FreshNames

variable {names : FreshNames}

theorem name_inj {number other : Nat} (same : names.name number = names.name other) :
    number = other := by
  have digits := congrArg String.toList same
  simp only [name, String.toList_append, append_cancel_left_eq, String.toList_ofList] at digits
  exact base36_inj digits

theorem le_firstFreeFrom (names : FreshNames) (fuel number : Nat) :
    number ≤ names.firstFreeFrom fuel number := by
  induction fuel generalizing number with
  | zero => exact Nat.le_refl _
  | succ fuel induction =>
    unfold firstFreeFrom
    split
    · exact Nat.le_of_succ_le (induction (number + 1))
    · exact Nat.le_refl _

theorem firstFreeFrom_cases (names : FreshNames) (fuel number : Nat) :
    names.name (names.firstFreeFrom fuel number) ∉ names.reserved ∨
      ∀ passed < fuel, names.name (number + passed) ∈ names.reserved := by
  induction fuel generalizing number with
  | zero => exact .inr (by simp)
  | succ fuel induction =>
    unfold firstFreeFrom
    split
    · rename_i isReserved
      refine (induction (number + 1)).imp_right fun reserved passed small => ?_
      cases passed with
      | zero => exact isReserved
      | succ passed =>
        rw [Nat.add_comm passed, ← Nat.add_assoc]
        exact reserved passed (by omega)
    · rename_i isFree
      exact .inl isFree

/-- There are not as many reserved names as the search can pass. -/
theorem firstFree_not_mem_reserved (names : FreshNames) :
    names.name names.firstFree ∉ names.reserved := by
  refine (names.firstFreeFrom_cases (names.reserved.length + 1) names.next).resolve_right
    fun reserved => ?_
  let passed := (List.range (names.reserved.length + 1)).map fun number =>
    names.name (names.next + number)
  have distinct : passed.Nodup := by
    refine List.Nodup.map (fun number other same => ?_) nodup_range
    have := name_inj same
    omega
  have areReserved : passed ⊆ names.reserved := by
    intro name member
    obtain ⟨number, small, rfl⟩ := mem_map.mp member
    exact reserved number (mem_range.mp small)
  have tooMany := (distinct.subperm areReserved).length_le
  simp only [passed, length_map, length_range] at tooMany
  omega

end FreshNames

end HeapScript
