import HeapScript.Session.Pass
import Mathlib.Data.List.Nodup
import Mathlib.Data.List.Perm.Subperm
import Mathlib.Logic.Relation

/-!
Roots inside roots.

If no root lies inside itself, the roots around a root are all different, so they are counted in
full and every root lies one level deeper than its parent. The pass writes outer roots first and
finds every parent on record.
-/

namespace HeapScript

open List Session

namespace HeapGraph

variable {graph : HeapGraph} {root outer : Root}

def DistinctRoots (graph : HeapGraph) : Prop :=
  (graph.roots.map (·.function)).Nodup

namespace DistinctRoots

theorem eq_of_function (distinct : graph.DistinctRoots) {root other : Root}
    (isRoot : root ∈ graph.roots) (isOther : other ∈ graph.roots)
    (same : root.function = other.function) : root = other :=
  inj_on_of_nodup_map distinct isRoot isOther same

theorem root?_eq (distinct : graph.DistinctRoots) {root : Root} (isRoot : root ∈ graph.roots) :
    graph.root? root.function = some root := by
  obtain ⟨found, isFound⟩ : ∃ found, graph.root? root.function = some found :=
    Option.isSome_iff_exists.mp (List.find?_isSome.mpr ⟨root, isRoot, by simp⟩)
  have same : found.function = root.function := by simpa using List.find?_some isFound
  rw [isFound, distinct.eq_of_function (List.mem_of_find?_eq_some isFound) isRoot same]

end DistinctRoots

def NestedIn (graph : HeapGraph) (inner outer : ValueId) : Prop :=
  ∃ root ∈ graph.roots, root.function = inner ∧ root.parent = some outer

def AcyclicRoots (graph : HeapGraph) : Prop :=
  ∀ function, ¬Relation.TransGen graph.NestedIn function function

theorem AcyclicRoots.of_rank (rank : ValueId → Nat)
    (less : ∀ inner outer, graph.NestedIn inner outer → rank outer < rank inner) :
    graph.AcyclicRoots := by
  intro function cycle
  have descends := cycle.lift (p := (· > ·)) rank less
  rw [Relation.transGen_eq_self] at descends
  exact Nat.lt_irrefl _ descends

end HeapGraph

namespace Session

variable {graph : HeapGraph} {root : Root}

theorem mem_roots_of_mem_orderedRoots {entry : Nat × Root} (member : entry ∈ orderedRoots graph) :
    entry.2 ∈ graph.roots ∧ entry.1 = nesting graph entry.2 := by
  obtain ⟨root, isRoot, rfl⟩ := mem_map.mp (mem_sortBy.mp member)
  exact ⟨isRoot, rfl⟩

theorem exists_mem_orderedRoots (isRoot : root ∈ graph.roots) :
    ∃ entry ∈ orderedRoots graph, entry.2 = root :=
  ⟨(nesting graph root, root), mem_sortBy.mpr (mem_map_of_mem isRoot), rfl⟩

end Session

namespace HeapGraph

variable {graph : HeapGraph} {root outer : Root}

/-! ## Chains of parents -/

theorem nestingFrom_succ {fuel : Nat} {parent : Option ValueId}
    (ends : nestingFrom graph (fuel + 1) parent ≤ fuel) :
    nestingFrom graph (fuel + 1) parent = nestingFrom graph fuel parent := by
  induction fuel generalizing parent with
  | zero => exact Nat.le_zero.mp ends
  | succ fuel induction =>
    cases parent with
    | none => rfl
    | some function =>
      rw [nestingFrom] at ends ⊢
      rw [induction (Nat.le_of_succ_le_succ ends), nestingFrom]

theorem nestedIn_of_root? {inner outer : ValueId}
    (isOuter : (graph.root? inner).bind (·.parent) = some outer) : graph.NestedIn inner outer := by
  obtain ⟨root, isRoot, isParent⟩ := Option.bind_eq_some_iff.mp isOuter
  exact ⟨root, List.mem_of_find?_eq_some isRoot, by simpa using List.find?_some isRoot, isParent⟩

def ParentsComeFirst (graph : HeapGraph) : Prop :=
  ∀ earlier entry later, orderedRoots graph = earlier ++ entry :: later →
    ∀ parent, entry.2.parent = some parent → parent ∈ earlier.map (·.2.function)

def ParentsAreRoots (graph : HeapGraph) : Prop :=
  ∀ inner outer, graph.NestedIn inner outer → outer ∈ graph.roots.map (·.function)

section

variable (acyclic : graph.AcyclicRoots) (areRoots : graph.ParentsAreRoots)

include acyclic areRoots

theorem exists_chain (fuel : Nat) {parent : Option ValueId}
    (isRoot : ∀ outer ∈ parent, outer ∈ graph.roots.map (·.function)) :
    ∃ chain : List ValueId, chain.Nodup ∧ chain ⊆ graph.roots.map (·.function) ∧
      chain.length = nestingFrom graph fuel parent ∧
      ∀ function ∈ chain, ∃ outer ∈ parent,
        Relation.ReflTransGen graph.NestedIn outer function := by
  induction fuel generalizing parent with
  | zero => exact ⟨[], by simp [nestingFrom]⟩
  | succ fuel induction =>
    cases parent with
    | none => exact ⟨[], by simp [nestingFrom]⟩
    | some inner =>
      have nested := fun outer => @nestedIn_of_root? graph inner outer
      obtain ⟨chain, distinct, inside, size, around⟩ := induction fun outer isOuter =>
        areRoots inner outer (nested outer isOuter)
      refine ⟨inner :: chain, nodup_cons.mpr ⟨fun member => ?_, distinct⟩,
        cons_subset.mpr ⟨isRoot inner rfl, inside⟩, by rw [length_cons, size]; rfl,
        fun function member => ⟨inner, rfl, ?_⟩⟩
      · obtain ⟨outer, isOuter, reaches⟩ := around inner member
        exact acyclic inner (.head' (nested outer isOuter) reaches)
      · rcases mem_cons.mp member with rfl | member
        · exact .refl
        · obtain ⟨outer, isOuter, reaches⟩ := around function member
          exact .head (nested outer isOuter) reaches

theorem nestingFrom_le (fuel : Nat) (isRoot : root ∈ graph.roots) :
    nestingFrom graph fuel root.parent ≤ graph.roots.length := by
  obtain ⟨chain, distinct, inside, size, -⟩ := exists_chain acyclic areRoots fuel
    fun outer isOuter => areRoots root.function outer ⟨root, isRoot, rfl, isOuter⟩
  simpa [size] using (subperm_of_subset distinct inside).length_le

variable (distinct : graph.DistinctRoots)

include distinct

theorem nesting_eq (isOuter : outer ∈ graph.roots) (isParent : root.parent = some outer.function) :
    nesting graph root = nesting graph outer + 1 := by
  have short : nestingFrom graph (graph.roots.length + 1) outer.parent ≤ graph.roots.length :=
    nestingFrom_le acyclic areRoots _ isOuter
  rw [nesting, nesting, isParent, nestingFrom, distinct.root?_eq isOuter, nestingFrom_succ short]
  rfl

end

end HeapGraph

end HeapScript
