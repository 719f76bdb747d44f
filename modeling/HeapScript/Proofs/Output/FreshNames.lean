import HeapScript.Proofs.Output.Names
import Mathlib.Order.Bounds.Defs

/-!
The supply of names gives out the unreserved names in the order of their numbers.

A request for a name passes over a number only if its name is reserved at that moment, and no
number is tried twice. So the names differ however requests and reservations follow each other, and
with all reservations made first no unreserved name is left out (`generates_ascending`).
-/

namespace HeapScript

open List

/-! ## Numerals -/

/-- The digits are those of a number in base thirty-six, without leading zeros. -/
structure IsNumeral36 (digits : List Char) (value : Nat) : Prop where
  reads : digits.foldl (fun number digit => number * 36 + base36Value digit) 0 = value
  areDigits : ∀ digit ∈ digits, ∃ number < 36, digit = base36Digit number
  leading : ∃ first rest, digits = first :: rest ∧ (first = base36Digit 0 → rest = [])

theorem base36Digit_ne_zero :
    ∀ {value : Nat}, value < 36 → 0 < value → base36Digit value ≠ base36Digit 0 := by
  decide

theorem isNumeral36_base36From {fuel value : Nat} (enough : value < fuel) :
    IsNumeral36 (base36From fuel value) value := by
  refine ⟨base36From_decodes enough, ?_, ?_⟩
  · induction fuel generalizing value with
    | zero => omega
    | succ fuel induction =>
      intro digit member
      unfold base36From at member
      split at member
      · rename_i small
        exact ⟨value, small, mem_singleton.mp member⟩
      · rcases mem_append.mp member with member | member
        · exact induction (by omega) digit member
        · exact ⟨value % 36, Nat.mod_lt _ (by omega), mem_singleton.mp member⟩
  · -- A number with a first digit zero is zero, so the digits before its last one are none.
    suffices nonzero : ∃ first rest, base36From fuel value = first :: rest ∧
        (0 < value → first ≠ base36Digit 0) by
      obtain ⟨first, rest, same, nonzero⟩ := nonzero
      refine ⟨first, rest, same, fun isZero => ?_⟩
      obtain rfl : value = 0 := Nat.eq_zero_of_not_pos fun positive => nonzero positive isZero
      cases fuel with
      | zero => omega
      | succ fuel => simpa [base36From] using congrArg tail same.symm
    induction fuel generalizing value with
    | zero => omega
    | succ fuel induction =>
      unfold base36From
      split
      · rename_i small
        exact ⟨_, _, rfl, base36Digit_ne_zero small⟩
      · obtain ⟨first, rest, same, nonzero⟩ := @induction (value / 36) (by omega)
        exact ⟨first, rest ++ _, by rw [same]; rfl, fun _ => nonzero (by omega)⟩

/-! ## Requests -/

namespace FreshNames

variable (names : FreshNames)

/-- What is asked of a supply of names. -/
inductive Request where
  | reserve (taken : List String)
  | generate

/-- The names that are given out upon requests, and the supply that is left. -/
def serve (names : FreshNames) : List Request → List String × FreshNames
  | [] => ([], names)
  | .reserve taken :: requests => (names.reserve taken).serve requests
  | .generate :: requests =>
    let (name, names) := names.generate
    let (others, names) := names.serve requests
    (name :: others, names)

theorem firstFreeFrom_passes {fuel number passed : Nat} (notBefore : number ≤ passed)
    (before : passed < names.firstFreeFrom fuel number) : names.name passed ∈ names.reserved := by
  induction fuel generalizing number with
  | zero => exact absurd before (Nat.not_lt.mpr notBefore)
  | succ fuel induction =>
    unfold firstFreeFrom at before
    split at before
    · rename_i isReserved
      rcases Nat.eq_or_lt_of_le notBefore with rfl | later
      · exact isReserved
      · exact induction later before
    · exact absurd before (Nat.not_lt.mpr notBefore)

theorem isLeast_firstFree :
    IsLeast {number | names.next ≤ number ∧ names.name number ∉ names.reserved}
      names.firstFree := by
  refine ⟨⟨names.le_firstFreeFrom _ _, names.firstFree_not_mem_reserved⟩, ?_⟩
  rintro number ⟨notBefore, isFree⟩
  exact Nat.not_lt.mp fun before => isFree (names.firstFreeFrom_passes notBefore before)

theorem mem_reserved_serve (requests : List Request) {name : String} :
    name ∈ (names.serve requests).2.reserved ↔
      (∃ taken, .reserve taken ∈ requests ∧ name ∈ taken) ∨ name ∈ names.reserved := by
  induction requests generalizing names with
  | nil => simp [serve]
  | cons request requests induction =>
    cases request with
    | reserve taken =>
      simp [serve, induction, reserve, or_assoc, or_left_comm, or_and_right, exists_or]
    | generate => simp [serve, induction, generate]

@[simp] theorem stem_serve (requests : List Request) :
    (names.serve requests).2.stem = names.stem := by
  induction requests generalizing names with
  | nil => rfl
  | cons request requests induction => cases request <;> exact induction _

theorem next_le_serve (requests : List Request) :
    names.next ≤ (names.serve requests).2.next := by
  induction requests generalizing names with
  | nil => exact Nat.le_refl _
  | cons request requests induction =>
    cases request with
    | reserve taken => exact induction (names.reserve taken)
    | generate =>
      exact Nat.le_trans (Nat.le_succ_of_le names.isLeast_firstFree.1.1)
        (induction names.generate.2)

/-- The names given out have ascending numbers. If nothing is reserved meanwhile, no unreserved name
before those still to come is left out. -/
theorem serve_ascends (requests : List Request) :
    ∃ numbers : List Nat, (names.serve requests).1 = numbers.map names.name ∧
      numbers.Pairwise (· < ·) ∧ (∀ number ∈ numbers, names.next ≤ number) ∧
      ((∀ taken, .reserve taken ∉ requests) → ∀ number, number ∈ numbers ↔
        names.next ≤ number ∧ number < (names.serve requests).2.next ∧
          names.name number ∉ names.reserved) := by
  induction requests generalizing names with
  | nil =>
    refine ⟨[], rfl, .nil, by simp, fun _ number => ⟨by simp, fun ⟨notBefore, before, _⟩ => ?_⟩⟩
    exact absurd before (Nat.not_lt.mpr notBefore)
  | cons request requests induction =>
    cases request with
    | reserve taken =>
      obtain ⟨numbers, same, ascending, notBefore, _⟩ := induction (names.reserve taken)
      exact ⟨numbers, same, ascending, notBefore, fun none => absurd mem_cons_self (none taken)⟩
    | generate =>
      obtain ⟨numbers, same, ascending, later, complete⟩ := induction names.generate.2
      obtain ⟨⟨notBefore, isFree⟩, least⟩ := names.isLeast_firstFree
      have grows := names.generate.2.next_le_serve requests
      refine ⟨names.firstFree :: numbers, congrArg (names.name names.firstFree :: ·) same,
        pairwise_cons.mpr ⟨later, ascending⟩, ?_, fun none number => ?_⟩
      · intro number member
        rcases mem_cons.mp member with rfl | member
        · exact notBefore
        · exact Nat.le_trans notBefore (Nat.le_of_succ_le (later number member))
      · rw [mem_cons, complete fun taken member => none taken (mem_cons_of_mem _ member)]
        constructor
        · rintro (rfl | ⟨after, before, isFree⟩)
          · exact ⟨notBefore, grows, isFree⟩
          · exact ⟨Nat.le_trans notBefore (Nat.le_of_succ_le after), before, isFree⟩
        · rintro ⟨notBefore, before, isFree⟩
          rcases Nat.eq_or_lt_of_le (least ⟨notBefore, isFree⟩) with rfl | after
          · exact .inl rfl
          · exact .inr ⟨after, before, isFree⟩

theorem next_serve_reserve (reservations : List (List String)) :
    (names.serve (reservations.map .reserve)).2.next = names.next := by
  induction reservations generalizing names with
  | nil => rfl
  | cons taken reservations induction => exact induction (names.reserve taken)

theorem length_serve_generate (count : Nat) :
    (names.serve (replicate count .generate)).1.length = count := by
  induction count generalizing names with
  | zero => rfl
  | succ count induction => exact congrArg (· + 1) (induction names.generate.2)

/-- The supply enumerates the unreserved names in order. After any requests, the next name is
the one with the least number from the counter on that is not reserved by then; all names given out
differ; and with all reservations made first they are the unreserved ones, by ascending numbers. -/
theorem generates_ascending (stem : String) :
    let name (number : Nat) := stem ++ String.ofList (base36 number)
    (∀ value, IsNumeral36 (base36 value) value) ∧ Function.Injective base36 ∧
    (∀ requests, ∃ number, let names := (serve { stem } requests).2
      names.generate = (name number, { names with next := number + 1 }) ∧
      IsLeast {number | names.next ≤ number ∧
        ∀ taken, .reserve taken ∈ requests → name number ∉ taken} number) ∧
    (∀ requests, (serve { stem } requests).1.Nodup) ∧
    ∀ (reservations : List (List String)) (count : Nat), ∃ (numbers : List Nat) (limit : Nat),
      ((serve { stem } (reservations.map .reserve)).2.serve (replicate count .generate)).1 =
        numbers.map name ∧ numbers.length = count ∧ numbers.Pairwise (· < ·) ∧
      ∀ number, number ∈ numbers ↔
        number < limit ∧ ∀ taken ∈ reservations, name number ∉ taken := by
  intro name
  have free (requests : List Request) (number : Nat) :
      (serve { stem } requests).2.name number ∉ (serve { stem } requests).2.reserved ↔
        ∀ taken, .reserve taken ∈ requests → name number ∉ taken := by
    have same : (serve { stem } requests).2.name number = name number := by
      rw [FreshNames.name, stem_serve]
    simp [same, mem_reserved_serve]
  refine ⟨fun value => isNumeral36_base36From value.lt_succ_self, fun _ _ => base36_inj, ?_, ?_, ?_⟩
  · intro requests
    have least := (serve { stem } requests).2.isLeast_firstFree
    simp only [free] at least
    refine ⟨_, ?_, least⟩
    rw [generate, FreshNames.name, stem_serve]
  · intro requests
    obtain ⟨numbers, same, ascending, -⟩ := serve_ascends { stem } requests
    rw [same]
    exact Nodup.map (fun _ _ => name_inj) (ascending.imp Nat.ne_of_lt)
  · intro reservations count
    let names := (serve { stem } (reservations.map .reserve)).2
    have sameName : names.name = name := by
      funext number
      rw [FreshNames.name, stem_serve]
    have start : names.next = 0 := next_serve_reserve _ reservations
    obtain ⟨numbers, same, ascending, -, complete⟩ :=
      names.serve_ascends (replicate count .generate)
    refine ⟨numbers, (names.serve (replicate count .generate)).2.next, sameName ▸ same, ?_,
      ascending, fun number => ?_⟩
    · have lengths := congrArg length same
      rwa [length_serve_generate, length_map, eq_comm] at lengths
    · rw [complete (by simp), start, free]
      simp

end FreshNames

end HeapScript
