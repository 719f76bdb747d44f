/-!
Sets of names as ascending lists without repetitions.
-/

namespace HeapScript

namespace NameSet

def insert (name : String) : List String → List String
  | [] => [name]
  | other :: rest =>
    if name < other then name :: other :: rest
    else if name = other then other :: rest
    else other :: insert name rest

def ofList (names : List String) : List String :=
  names.foldl (fun set name => insert name set) []

example : ofList ["b", "a", "b"] = ["a", "b"] := by decide

theorem mem_insert {name other : String} {set : List String} :
    other ∈ insert name set ↔ other = name ∨ other ∈ set := by
  induction set with
  | nil => simp [insert]
  | cons first rest hypothesis =>
    unfold insert
    split
    · simp
    · split
      · rename_i same
        subst same
        simp
      · simp [hypothesis, or_left_comm]

theorem mem_ofList {name : String} {names : List String} : name ∈ ofList names ↔ name ∈ names := by
  have folded : ∀ set, name ∈ names.foldl (fun set name => insert name set) set ↔
      name ∈ set ∨ name ∈ names := by
    induction names with
    | nil => simp
    | cons first rest hypothesis =>
      intro set
      simp only [List.foldl_cons, hypothesis, mem_insert, List.mem_cons]
      constructor
      · rintro ((same | old) | new)
        · exact .inr (.inl same)
        · exact .inl old
        · exact .inr (.inr new)
      · rintro (old | same | new)
        · exact .inl (.inr old)
        · exact .inl (.inl same)
        · exact .inr new
  simp [ofList, folded]

end NameSet

end HeapScript
