/-!
Sorting by insertion. The lists of a run are short, and a sort by structural recursion can be
evaluated in proofs.
-/

namespace HeapScript

variable {α : Type} {le : α → α → Bool} {items : List α}

def insertBy (le : α → α → Bool) (item : α) : List α → List α
  | [] => [item]
  | other :: items =>
    if le item other then item :: other :: items else other :: insertBy le item items

/-- Items that the order takes for equal stay in their order. -/
def sortBy (items : List α) (le : α → α → Bool) : List α := items.foldr (insertBy le) []

@[simp] theorem sortBy_nil : sortBy [] le = [] := rfl

theorem perm_insertBy (item : α) (items : List α) :
    (insertBy le item items).Perm (item :: items) := by
  induction items with
  | nil => exact .refl _
  | cons other items induction =>
    rw [insertBy]
    split
    · exact .refl _
    · exact (induction.cons other).trans (.swap item other items)

theorem perm_sortBy (items : List α) (le : α → α → Bool) : (sortBy items le).Perm items := by
  induction items with
  | nil => exact .refl _
  | cons item items induction => exact (perm_insertBy item _).trans (induction.cons item)

@[simp] theorem mem_sortBy {item : α} : item ∈ sortBy items le ↔ item ∈ items :=
  (perm_sortBy items le).mem_iff

theorem pairwise_insertBy
    (trans : ∀ left middle right, le left middle → le middle right → le left right)
    (total : ∀ left right, le left right || le right left) (item : α)
    (sorted : items.Pairwise (le · ·)) : (insertBy le item items).Pairwise (le · ·) := by
  induction items with
  | nil => exact List.pairwise_singleton _ _
  | cons other items induction =>
    obtain ⟨first, rest⟩ := List.pairwise_cons.mp sorted
    rw [insertBy]
    split
    · rename_i least
      refine .cons (fun later member => ?_) sorted
      rcases List.mem_cons.mp member with rfl | member
      · exact least
      · exact trans _ _ _ least (first later member)
    · rename_i notLeast
      refine .cons (fun later member => ?_) (induction rest)
      rcases List.mem_cons.mp ((perm_insertBy item items).mem_iff.mp member) with rfl | member
      · simpa [notLeast] using total later other
      · exact first later member

theorem pairwise_sortBy
    (trans : ∀ left middle right, le left middle → le middle right → le left right)
    (total : ∀ left right, le left right || le right left) (items : List α) :
    (sortBy items le).Pairwise (le · ·) := by
  induction items with
  | nil => exact .nil
  | cons item items induction => exact pairwise_insertBy trans total item induction

theorem sortBy_of_pairwise (sorted : items.Pairwise (le · ·)) : sortBy items le = items := by
  induction items with
  | nil => rfl
  | cons item items induction =>
    obtain ⟨least, rest⟩ := List.pairwise_cons.mp sorted
    change insertBy le item (sortBy items le) = _
    rw [induction rest]
    cases items with
    | nil => rfl
    | cons other items => rw [insertBy, if_pos (least other List.mem_cons_self)]

end HeapScript
