import HeapScript.Proofs.FreeNames.Attributes

/-!
What the free names of a function are not.

Every use of a name stands in surroundings inside those of the examined function. Scopes are only
added on the way in, so a free name is none of the function's own declarations, and neither its own
name nor `arguments`.
-/

namespace HeapScript

open List

variable {name : String}

/-! ## Surroundings inside others -/

/-- The surroundings `inner` have been reached from `around` by entering scopes and functions. -/
structure Surroundings.Inside (inner around : Surroundings) : Prop where
  bound : ∀ name ∈ around.bound, name ∈ inner.bound
  ownName : inner.ownName = around.ownName
  depth : inner.depth = around.depth ∨ "arguments" ∈ inner.bound

namespace Surroundings.Inside

variable {inner around : Surroundings}

theorem refl (around : Surroundings) : around.Inside around :=
  ⟨fun _ member => member, rfl, .inl rfl⟩

theorem within (inside : inner.Inside around) (names : List String) :
    (inner.within names).Inside around where
  bound name member := by simp [Surroundings.within, inside.bound name member]
  ownName := inside.ownName
  depth := inside.depth.imp_right fun member => by simp [Surroundings.within, member]

theorem withinFunction (inside : inner.Inside around) (definition : FunctionDef)
    (isExpression : Bool) :
    (inner.withinFunction definition.isArrow (definition.nestedNames isExpression)).Inside
      around := by
  have scope := inside.within (definition.nestedNames isExpression)
  cases isArrow : definition.isArrow with
  | true => exact scope
  | false =>
    refine ⟨scope.bound, scope.ownName, .inr ?_⟩
    simp [Surroundings.withinFunction, Surroundings.within, FunctionDef.nestedNames,
      FunctionDef.boundNames, isArrow]

theorem free_of_free (inside : inner.Inside around) (free : inner.meaning name = .free) :
    name ∉ around.bound ∧ around.ownName ≠ some name ∧
      ¬(name = "arguments" ∧ around.depth = 0) := by
  simp only [meaning] at free
  split at free
  · cases free
  · rename_i unbound
    refine ⟨fun member => unbound (inside.bound name member), ?_, ?_⟩
    · intro own
      simp [inside.ownName, own] at free
      split at free <;> cases free
    · rintro ⟨rfl, top⟩
      rcases inside.depth with same | member
      · simp [same, top] at free
      · exact unbound member

end Surroundings.Inside

def Mention.IsInside (around : Surroundings) : Mention → Prop
  | .used name meaning _ => ∃ inner : Surroundings, inner.Inside around ∧
      meaning = inner.meaning name
  | _ => True

namespace Mention.IsInside

variable {inner around : Surroundings}

theorem use (inside : inner.Inside around) (writes : Bool) (name : String) :
    (inner.use writes name).IsInside around :=
  ⟨inner, inside, rfl⟩

theorem declared (names : List String) :
    ∀ mention ∈ declarations names, mention.IsInside around := by
  intro mention member
  obtain ⟨name, _, rfl⟩ := mem_map.mp member
  trivial

theorem loads (callee : Expr) (args : List Expr) :
    ∀ mention ∈ inner.loadMentions callee args, mention.IsInside around := by
  intro mention member
  obtain ⟨name, _, rfl⟩ := mem_map.mp member
  trivial

end Mention.IsInside

/-! ## Every mention is inside -/

section Walk

open Mention.IsInside

variable {around : Surroundings}

theorem mentions_inside_steps : (TreeMotive.relating .mentions .mentions fun mentions _ =>
    ∀ inner, inner.Inside around → ∀ mention ∈ mentions inner, mention.IsInside around).Steps := by
  constructor <;> dsimp only [TreeMotive.relating, TreeAttribute.mentions]
  case thisRef =>
    intro _ inner _
    by_cases top : inner.depth = 0 <;> simp [Expr.mentions, top, Mention.IsInside]
  case functionDef =>
    intro name directives isArrow isGenerator isAsync params body inParams inBody
      isExpression inner inside
    have scope := inside.withinFunction
      ⟨name, params, body, directives, isArrow, isGenerator, isAsync⟩ isExpression
    simp only [FunctionDef.nestedMentions, forall_mem_append]
    exact ⟨⟨declared _, inParams _ scope⟩, inBody _ scope⟩
  case forOf =>
    intro binding declares iterable body inIterable inBody inner inside
    cases declares <;>
      simp only [Stmt.mentions, forall_mem_append, forall_mem_singleton]
    · exact ⟨⟨⟨inIterable _ _ inside, use inside _ binding⟩, declared _⟩,
        inBody _ (inside.within _)⟩
    · exact ⟨⟨inIterable _ _ inside, declared _⟩, inBody _ (inside.within _)⟩
  all_goals
    grind [Expr.mentions, mentionsOfExprs, mentionsOfFields, mentionsOfParams, ClassDef.mentions,
      mentionsOfMembers, MemberKey.mentions, Stmt.mentions, mentionsOfCases, mentionsOfStmts,
      Surroundings.Inside.within, Mention.IsInside.use, declared, loads]

end Walk

/-! ## Facts -/

theorem mem_firstOccurrences {names : List String} :
    name ∈ firstOccurrences names ↔ name ∈ names := by
  induction names with
  | nil => rfl
  | cons first names induction =>
    by_cases same : name = first <;> simp [firstOccurrences, induction, same]

theorem nodup_firstOccurrences (names : List String) : (firstOccurrences names).Nodup := by
  induction names with
  | nil => exact nodup_nil
  | cons first names induction =>
    rw [firstOccurrences, nodup_cons]
    exact ⟨by simp, induction.filter _⟩

namespace FunctionDef

variable {definition : FunctionDef}

theorem unbound_names (definition : FunctionDef) :
    definition.facts.unbound.map (·.1) =
      firstOccurrences (definition.mentions.filterMap Mention.freeName?) := by
  simp [facts, FunctionFacts.ofMentions, occurrenceCounts, Function.comp_def]

theorem nodup_unbound (definition : FunctionDef) :
    (definition.facts.unbound.map (·.1)).Nodup := by
  rw [unbound_names]
  exact nodup_firstOccurrences _

theorem mem_unbound_of_modified (modified : name ∈ definition.facts.modified) :
    name ∈ definition.facts.unbound.map (·.1) := by
  obtain ⟨mention, member, isAssigned⟩ := mem_filterMap.mp (NameSet.mem_ofList.mp modified)
  rw [unbound_names, mem_firstOccurrences]
  refine mem_filterMap.mpr ⟨mention, member, ?_⟩
  unfold Mention.assignedFreeName? at isAssigned
  split at isAssigned
  · exact isAssigned
  · cases isAssigned

theorem mem_identifiers_of_unbound (unbound : name ∈ definition.facts.unbound.map (·.1)) :
    name ∈ definition.facts.identifiers := by
  rw [unbound_names, mem_firstOccurrences, mem_filterMap] at unbound
  obtain ⟨mention, member, isFree⟩ := unbound
  refine NameSet.mem_ofList.mpr (mem_filterMap.mpr ⟨mention, member, ?_⟩)
  unfold Mention.freeName? at isFree
  split at isFree
  · exact isFree
  · cases isFree

theorem mentions_inside (definition : FunctionDef) :
    ∀ mention ∈ definition.mentions, mention.IsInside definition.surroundings := by
  have start := Surroundings.Inside.refl definition.surroundings
  simp only [mentions, forall_mem_append]
  exact ⟨⟨Mention.IsInside.declared _, mentions_inside_steps.params _ _ start⟩,
    mentions_inside_steps.stmts _ _ start⟩

theorem exists_inside_of_unbound (unbound : name ∈ definition.facts.unbound.map (·.1)) :
    ∃ inner : Surroundings, inner.Inside definition.surroundings ∧ inner.meaning name = .free := by
  rw [unbound_names, mem_firstOccurrences, mem_filterMap] at unbound
  obtain ⟨mention, member, isFree⟩ := unbound
  have inside := definition.mentions_inside mention member
  unfold Mention.freeName? at isFree
  split at isFree
  · cases isFree
    obtain ⟨inner, inside, meaning⟩ := inside
    exact ⟨inner, inside, meaning.symm⟩
  · cases isFree

theorem mem_surroundings_bound :
    name ∈ definition.surroundings.bound ↔ name ∈ definition.boundNames ∧ name ≠ "arguments" := by
  simp [surroundings]

theorem not_mem_boundNames_of_unbound (unbound : name ∈ definition.facts.unbound.map (·.1)) :
    name ∉ definition.boundNames := by
  obtain ⟨inner, inside, free⟩ := exists_inside_of_unbound unbound
  obtain ⟨notBound, _, notArguments⟩ := inside.free_of_free free
  intro member
  by_cases isArguments : name = "arguments"
  · exact notArguments ⟨isArguments, rfl⟩
  · exact notBound (mem_surroundings_bound.mpr ⟨member, isArguments⟩)

/-- A function that refers to itself mentions its name, does not bind it otherwise and does not have
it as a free name. -/
theorem ownName_of_selfReference (refers : definition.facts.selfReference = true)
    (isName : definition.name = some name) :
    name ∈ definition.facts.identifiers ∧ name ∉ definition.boundNames ∧
      name ∉ definition.facts.unbound.map (·.1) := by
  simp only [facts, FunctionFacts.ofMentions, any_eq_true] at refers
  obtain ⟨mention, member, isSelf⟩ := refers
  have inside := definition.mentions_inside mention member
  unfold Mention.hasMeaning at isSelf
  split at isSelf
  · rename_i used meaning writes
    obtain ⟨inner, inside, meaningEq⟩ := inside
    have itself : inner.meaning used = .itself := by simpa [meaningEq] using isSelf
    have own : definition.surroundings.ownName = some used := by
      rw [← inside.ownName]
      simp only [Surroundings.meaning] at itself
      split at itself
      · cases itself
      · split at itself
        · cases itself
        · split at itself
          · assumption
          · cases itself
    obtain rfl : name = used := by
      simp only [surroundings, Option.filter_eq_some_iff, ownName] at own
      split at own <;> simp_all
    refine ⟨NameSet.mem_ofList.mpr (mem_filterMap.mpr ⟨_, member, rfl⟩), ?_, ?_⟩
    · simp only [surroundings, Option.filter_eq_some_iff] at own
      simpa using own.2
    · intro unbound
      obtain ⟨other, otherInside, free⟩ := exists_inside_of_unbound unbound
      exact (otherInside.free_of_free free).2.1 own
  · cases isSelf

end FunctionDef

end HeapScript
