import HeapScript.Proofs.Session.Pass

/-!
What is known of names, bodies, functions and roots when all values have been written.
-/

namespace HeapScript

open List

namespace Written.Complete

variable {written : Written}

theorem kept (complete : written.Complete) : written.session.Kept written.context :=
  complete.idle.regular.kept

theorem placed (complete : written.Complete) {id : ValueId} {inst : FunctionInstance}
    (isInstance : written.session.HasInstance id inst) : inst.insertionPoint ≠ none := by
  intro unplaced
  have member := complete.idle.sound.placed id inst isInstance unplaced
  simp [complete.idle.inProgress] at member

theorem exists_instance_of_delayed (complete : written.Complete) {id : ValueId} {body : BodyId}
    (delayed : written.session.delayedBodies.get? id = some body) :
    ∃ inst, written.session.HasInstance id inst := by
  obtain ⟨function, isFunction⟩ := complete.kept.prepared.delays id body delayed
  obtain ⟨-, -, home, isHome, -⟩ := complete.idle.valid.delayedBodies id body delayed
  obtain ⟨name, named⟩ : ∃ name, written.session.identifiers.get? id = some name := by
    refine Option.ne_none_iff_exists'.mp fun unnamed => ?_
    simp [complete.idle.valid.homeless id unnamed] at isHome
  exact complete.kept.prepared.instanced id name function named isFunction

end Written.Complete

/-! ## Roots -/

namespace Written.Complete

open Session

variable {written : Written}

section

variable (complete : written.Complete) (distinct : written.context.graph.DistinctRoots)

include complete distinct

theorem distinct_functions : (written.roots.map (·.function)).Nodup := by
  rw [complete.allRoots]
  have sorted := (perm_sortBy (written.context.graph.roots.map fun root =>
    (nesting written.context.graph root, root)) fun left right => left.1 ≤ right.1).map
    (·.2.function)
  refine sorted.symm.nodup ?_
  rw [map_map]
  exact distinct

theorem record_of_root {root : Root} (isRoot : root ∈ written.context.graph.roots) :
    ∃ record ∈ written.roots, record.function = root.function ∧ record.parent = root.parent ∧
      record.depth = nesting written.context.graph root := by
  obtain ⟨record, member, same⟩ := complete.exists_record isRoot
  obtain ⟨found, isFound, isFunction, sameParent, -, -, isDepth⟩ :=
    (complete.records record member).root
  obtain rfl := distinct.eq_of_function isFound isRoot (isFunction.symm.trans same)
  exact ⟨record, member, same, sameParent, isDepth⟩

/-- The roots stand in the order of a rank, so none lies inside itself. -/
theorem acyclicRoots :
    written.context.graph.AcyclicRoots ∧ written.context.graph.ParentsAreRoots := by
  have nested : ∀ inner outer, written.context.graph.NestedIn inner outer →
      ∃ earlier record later around, written.roots = earlier ++ record :: later ∧
        record.function = inner ∧ around ∈ earlier ∧ around.function = outer := by
    rintro _ outer ⟨root, isRoot, rfl, isParent⟩
    obtain ⟨record, member, same, sameParent, -⟩ := complete.record_of_root distinct isRoot
    obtain ⟨earlier, later, isSplit⟩ := append_of_mem member
    obtain ⟨around, isAround, isOuter⟩ :=
      complete.parents earlier record later isSplit outer (sameParent.trans isParent)
    exact ⟨earlier, record, later, around, isSplit, same, isAround, isOuter⟩
  refine ⟨.of_rank (fun function => (written.roots.map (·.function)).idxOf function) ?_, ?_⟩
  · intro inner outer isNested
    obtain ⟨earlier, record, later, around, isSplit, rfl, isAround, rfl⟩ := nested _ _ isNested
    have once := complete.distinct_functions distinct
    have isEarlier := mem_map_of_mem (f := (·.function)) isAround
    rw [isSplit, map_append, map_cons] at once ⊢
    rw [idxOf_append_of_mem isEarlier, idxOf_append_of_notMem
      fun member => (nodup_append.mp once).2.2 _ member _ mem_cons_self rfl]
    exact Nat.lt_add_right _ (idxOf_lt_length_of_mem isEarlier)
  · intro inner outer isNested
    obtain ⟨earlier, record, later, around, isSplit, rfl, isAround, rfl⟩ := nested _ _ isNested
    obtain ⟨root, isRoot, same, -⟩ := (complete.records around (by simp [isSplit, isAround])).root
    exact same ▸ mem_map_of_mem isRoot

/-- A root lies one level deeper than the root around it. -/
theorem exists_outer {record : RootRecord} (member : record ∈ written.roots) {parent : ValueId}
    (isParent : record.parent = some parent) :
    ∃ outer ∈ written.roots, outer.function = parent ∧ record.depth = outer.depth + 1 := by
  obtain ⟨acyclic, areRoots⟩ := complete.acyclicRoots distinct
  obtain ⟨root, isRoot, -, sameParent, -, -, isDepth⟩ := (complete.records record member).root
  rw [isParent, eq_comm] at sameParent
  obtain ⟨around, isAround, rfl⟩ := mem_map.mp (areRoots _ _ ⟨root, isRoot, rfl, sameParent⟩)
  obtain ⟨outer, isOuter, same, -, outerDepth⟩ := complete.record_of_root distinct isAround
  exact ⟨outer, isOuter, same, by
    rw [isDepth, outerDepth, HeapGraph.nesting_eq acyclic areRoots distinct isAround sameParent]⟩

end

end Written.Complete

end HeapScript
