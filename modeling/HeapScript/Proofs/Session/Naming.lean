import HeapScript.Proofs.FreeNames.Names
import HeapScript.Proofs.Output.Names
import HeapScript.Proofs.Session.Step

/-!
The names of values.

After any number of steps no two values share a name, and none has a name that occurs in the code or
that of a helper.
-/

namespace HeapScript

open List

namespace Session

variable {context : Context} {before after session : Session}

theorem Step.naming_cases (step : Step context before after) :
    after.names = before.names ∧ after.identifiers = before.identifiers ∨
      ∃ id, before.identifiers.get? id = none ∧ after.names = before.names.generate.2 ∧
        after.identifiers = before.identifiers.insert id before.names.generate.1 := by
  cases step with
  | reachObject _ isNew _ => exact .inr ⟨_, isNew, rfl, rfl⟩
  | reachFunction _ isNew _ => exact .inr ⟨_, isNew, rfl, rfl⟩
  | declareReached _ _ _ _ _ =>
    rename_i link _ _ _ _ _
    cases link <;> exact .inl ⟨rfl, rfl⟩
  | constructDelayed _ _ _ _ _ =>
    rename_i link _ _ _ _ _
    cases link <;> exact .inl ⟨rfl, rfl⟩
  | reachDelayed _ _ isNew _ _ _ _ =>
    refine .inr ⟨_, isNew, ?_, ?_⟩ <;> simp only [reachingDelayed, delaying] <;> split <;> rfl
  | reachAlias _ _ _ isNew _ _ _ =>
    refine .inr ⟨_, isNew, ?_, ?_⟩ <;> simp only [reachingAlias] <;> split <;> rfl
  | _ => exact .inl ⟨rfl, rfl⟩

/-- Each name is the one of a number that has been passed, stands for one value and occurs nowhere
in the code. -/
structure Named (context : Context) (session : Session) : Prop where
  stem : session.names.stem = "_"
  reserved : ∀ name ∈ context.graph.usedNames context.facts, name ∈ session.names.reserved
  numbered : ∀ id name, session.identifiers.get? id = some name →
    ∃ number < session.names.next, name = session.names.name number
  distinct : ∀ id other name, session.identifiers.get? id = some name →
    session.identifiers.get? other = some name → id = other
  unreserved : ∀ id name, session.identifiers.get? id = some name →
    name ∉ session.names.reserved

namespace Named

variable {id : ValueId} {name : String}

theorem initial (context : Context) : Named context (Session.initial context) where
  stem := rfl
  reserved name member := by simpa [Session.initial, FreshNames.reserve] using member
  numbered _ _ named := by simp [Session.initial, SideTable.get?] at named
  distinct _ _ _ named := by simp [Session.initial, SideTable.get?] at named
  unreserved _ _ named := by simp [Session.initial, SideTable.get?] at named

theorem fresh (named : Named context session)
    (isNamed : session.identifiers.get? id = some session.names.generate.1) : False := by
  obtain ⟨number, passed, same⟩ := named.numbered id _ isNamed
  have isNext := FreshNames.name_inj same
  have later : session.names.next ≤ session.names.firstFree :=
    session.names.le_firstFreeFrom _ _
  omega

theorem step (named : Named context before) (step : Step context before after) :
    Named context after := by
  rcases step.naming_cases with ⟨sameNames, sameIdentifiers⟩ | ⟨reached, _, isNext, isTable⟩
  · exact ⟨sameNames ▸ named.stem, sameNames ▸ named.reserved,
      sameNames ▸ sameIdentifiers ▸ named.numbered, sameIdentifiers ▸ named.distinct,
      sameNames ▸ sameIdentifiers ▸ named.unreserved⟩
  have passed : before.names.next ≤ before.names.firstFree := before.names.le_firstFreeFrom _ _
  have lookup : ∀ {id name}, after.identifiers.get? id = some name →
      id = reached ∧ name = before.names.generate.1 ∨ before.identifiers.get? id = some name := by
    intro id name isNamed
    rw [isTable, SideTable.get?_insert] at isNamed
    split at isNamed
    · rename_i same
      exact .inl ⟨same, (Option.some.inj isNamed).symm⟩
    · exact .inr isNamed
  refine ⟨isNext ▸ named.stem, isNext ▸ named.reserved, fun id name isNamed => ?_,
    fun id other name isNamed isNamed' => ?_, fun id name isNamed => ?_⟩
  · rw [isNext]
    rcases lookup isNamed with ⟨_, rfl⟩ | old
    · exact ⟨before.names.firstFree, Nat.lt_succ_self _, rfl⟩
    · obtain ⟨number, used, rfl⟩ := named.numbered id name old
      exact ⟨number, Nat.lt_succ_of_lt (Nat.lt_of_lt_of_le used passed), rfl⟩
  · rcases lookup isNamed with ⟨rfl, rfl⟩ | old <;> rcases lookup isNamed' with ⟨rfl, same⟩ | old'
    · rfl
    · exact (named.fresh old').elim
    · exact (named.fresh (same ▸ old)).elim
    · exact named.distinct id other name old old'
  · rw [isNext]
    rcases lookup isNamed with ⟨_, rfl⟩ | old
    · exact before.names.firstFree_not_mem_reserved
    · exact named.unreserved id name old

section

variable (named : Named context session) (isNamed : session.HasName id name)

include named isNamed

theorem letters :
    name.toList[0]? = some '_' ∧ ∃ digit < 36, name.toList[1]? = some (base36Digit digit) := by
  obtain ⟨number, _, rfl⟩ := named.numbered id _ isNamed
  obtain ⟨digit, small, isDigit⟩ := base36_starts number
  rw [FreshNames.name, named.stem, String.toList_append]
  refine ⟨rfl, digit, small, ?_⟩
  rw [List.getElem?_append_right (by decide), String.toList_ofList]
  exact isDigit

/-- The names of helpers start with two lines, those of values do not. -/
theorem ne_of_line {helper : String} (isLine : helper.toList[1]? = some '_') : name ≠ helper := by
  rintro rfl
  obtain ⟨-, digit, small, isDigit⟩ := named.letters isNamed
  have notLine : ∀ {digit}, digit < 36 → base36Digit digit ≠ '_' := by decide
  exact notLine small (Option.some.inj (isDigit.symm.trans isLine))

theorem ne_of_letter {other : String} (notLine : other.toList[0]? ≠ some '_') : name ≠ other := by
  rintro rfl
  exact notLine (named.letters isNamed).1

theorem not_mem_usedNames : name ∉ context.graph.usedNames context.facts :=
  fun isUsed => named.unreserved id name isNamed (named.reserved name isUsed)

end

section

variable (named : Named context session) (facts : context.facts = context.graph.codeFacts)
  (isNamed : session.HasName id name) (isCode : code ∈ context.graph.codeBlocks.toList)

include named facts isNamed isCode

theorem not_mem_identifiers : name ∉ code.function.facts.identifiers := by
  intro member
  refine named.not_mem_usedNames isNamed (mem_append_left _ ?_)
  rw [facts, HeapGraph.codeFacts]
  exact mem_flatMap.mpr ⟨code.function.facts, mem_map_of_mem isCode, member⟩

theorem not_mem_code : name ∉ code.function.ownName.toList ++ code.function.names := fun member =>
  named.not_mem_identifiers facts isNamed isCode
    (FunctionDef.mem_identifiers (mem_append_left _ member)
      (named.ne_of_letter isNamed (by decide)))

end

theorem not_mem_root (named : Named context session) (isNamed : session.HasName id name)
    {root : Root} (isRoot : root ∈ context.graph.roots) : name ∉ namesOfStmts root.body := by
  intro member
  refine named.not_mem_usedNames isNamed
    (mem_append_right _ (mem_flatMap.mpr ⟨root, isRoot, ?_⟩))
  exact FunctionDef.mem_identifiers (mem_append_left _ member)
    (named.ne_of_letter isNamed (by decide))

end Named

end Session

end HeapScript
