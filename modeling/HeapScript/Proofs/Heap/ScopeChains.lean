import HeapScript.Proofs.Output.Bodies
import HeapScript.Proofs.Session.Links
import Mathlib.Data.Finset.Card
import Mathlib.Data.Finset.Range
import Mathlib.Logic.Relation

/-!
Chains of captured scopes.

A name is looked for in the chain of scopes that starts in the environment of a function. If no
scope lies within itself, all scopes of a chain are different, so a search through as many scopes as
there are reaches the outermost one.
-/

namespace HeapScript

open List

namespace HeapGraph

def LiesIn (graph : HeapGraph) (inner outer : ScopeId) : Prop :=
  ∃ scope, graph.scopes.get? inner = some scope ∧ scope.parent = some outer

def AcyclicScopes (graph : HeapGraph) : Prop :=
  ∀ id, ¬Relation.TransGen graph.LiesIn id id

def scopeChain (graph : HeapGraph) : (fuel : Nat) → Option ScopeId → List ScopeId
  | 0, _ => []
  | _, none => []
  | fuel + 1, some id =>
    match graph.scopes.get? id with
    | none => []
    | some scope => id :: graph.scopeChain fuel scope.parent

variable {graph : HeapGraph} {environment : Option ScopeId} {id : ScopeId} {name : String}

theorem AcyclicScopes.of_lt (numbered : ∀ inner outer, graph.LiesIn inner outer →
    outer.index < inner.index) : graph.AcyclicScopes := by
  have less : ∀ inner outer, Relation.TransGen graph.LiesIn inner outer →
      outer.index < inner.index := by
    intro inner outer within
    induction within with
    | single lies => exact numbered _ _ lies
    | tail _ lies induction => exact (numbered _ _ lies).trans induction
  exact fun id within => Nat.lt_irrefl _ (less id id within)

@[simp] theorem scopeChain_none (fuel : Nat) : graph.scopeChain fuel none = [] := by
  cases fuel <;> rfl

/-! ## Searching a chain -/

theorem declaringScopeFrom?_eq_find? (fuel : Nat) :
    graph.declaringScopeFrom? name fuel environment =
      (graph.scopeChain fuel environment).find? fun id =>
        (graph.scopes.get? id).any (·.declares name) := by
  induction fuel generalizing environment with
  | zero => rfl
  | succ fuel induction =>
    cases environment with
    | none => rfl
    | some id =>
      simp only [declaringScopeFrom?, scopeChain]
      cases isScope : graph.scopes.get? id with
      | none => rfl
      | some scope =>
        dsimp only
        rw [List.find?_cons, isScope, Option.any_some, induction]
        cases scope.declares name <;> rfl

theorem take_scopeChain (fuel more : Nat) :
    (graph.scopeChain (fuel + more) environment).take fuel = graph.scopeChain fuel environment := by
  induction fuel generalizing environment with
  | zero => simp [scopeChain]
  | succ fuel induction =>
    rw [Nat.succ_add_eq_add_succ, Nat.add_succ]
    cases environment with
    | none => simp [scopeChain]
    | some id =>
      simp only [scopeChain]
      cases graph.scopes.get? id with
      | none => rfl
      | some scope => simp [induction]

/-! ## Chains without cycles -/

theorem present_of_mem_scopeChain {fuel : Nat} {later : ScopeId}
    (member : later ∈ graph.scopeChain fuel environment) : later.index < graph.scopes.size := by
  induction fuel generalizing environment with
  | zero => simp [scopeChain] at member
  | succ fuel induction =>
    cases environment with
    | none => simp at member
    | some id =>
      simp only [scopeChain] at member
      cases isScope : graph.scopes.get? id with
      | none => simp [isScope] at member
      | some scope =>
        rw [isScope] at member
        rcases mem_cons.mp member with rfl | member
        · exact Arena.get?_isSome_iff.mp (by simp [isScope])
        · exact induction member

theorem reaches_of_mem_scopeChain {fuel : Nat} {later : ScopeId}
    (member : later ∈ graph.scopeChain fuel (some id)) :
    Relation.ReflTransGen graph.LiesIn id later := by
  induction fuel generalizing id with
  | zero => simp [scopeChain] at member
  | succ fuel induction =>
    simp only [scopeChain] at member
    cases isScope : graph.scopes.get? id with
    | none => simp [isScope] at member
    | some scope =>
      rw [isScope] at member
      rcases mem_cons.mp member with rfl | member
      · exact .refl
      · cases isParent : scope.parent with
        | none => simp [isParent] at member
        | some parent =>
          rw [isParent] at member
          exact .head ⟨scope, isScope, isParent⟩ (induction member)

section

variable (acyclic : graph.AcyclicScopes)

include acyclic

theorem nodup_scopeChain (fuel : Nat) : (graph.scopeChain fuel environment).Nodup := by
  induction fuel generalizing environment with
  | zero => exact nodup_nil
  | succ fuel induction =>
    cases environment with
    | none => exact nodup_nil
    | some id =>
      simp only [scopeChain]
      cases isScope : graph.scopes.get? id with
      | none => exact nodup_nil
      | some scope =>
        refine nodup_cons.mpr ⟨fun member => ?_, induction⟩
        cases isParent : scope.parent with
        | none => simp [isParent] at member
        | some parent =>
          rw [isParent] at member
          exact acyclic id
            (.head' ⟨scope, isScope, isParent⟩ (reaches_of_mem_scopeChain member))

theorem length_scopeChain_le (fuel : Nat) :
    (graph.scopeChain fuel environment).length ≤ graph.scopes.size := by
  have nodup : ((graph.scopeChain fuel environment).map (·.index)).Nodup := by
    refine (graph.nodup_scopeChain acyclic fuel).map fun left right same => ?_
    cases left
    cases right
    exact congrArg _ same
  have subset : ((graph.scopeChain fuel environment).map (·.index)).toFinset ⊆
      Finset.range graph.scopes.size := by
    intro index member
    obtain ⟨later, isLater, rfl⟩ := mem_map.mp (mem_toFinset.mp member)
    exact Finset.mem_range.mpr (present_of_mem_scopeChain isLater)
  have count := Finset.card_le_card subset
  rwa [toFinset_card_of_nodup nodup, length_map, Finset.card_range] at count

/-- A search through more scopes finds nothing else. -/
theorem declaringScopeFrom?_of_size_le {fuel : Nat} (enough : graph.scopes.size ≤ fuel) :
    graph.declaringScopeFrom? name fuel environment = graph.declaringScope? environment name := by
  obtain ⟨more, rfl⟩ := Nat.exists_eq_add_of_le enough
  have whole : (graph.scopeChain (graph.scopes.size + more) environment).take graph.scopes.size =
      graph.scopeChain graph.scopes.size environment := take_scopeChain _ _
  rw [take_of_length_le (length_scopeChain_le acyclic _)] at whole
  rw [declaringScope?, declaringScopeFrom?_eq_find?, declaringScopeFrom?_eq_find?, whole]

theorem declaringScope?_some {scope : Scope} (isScope : graph.scopes.get? id = some scope) :
    graph.declaringScope? (some id) name =
      if scope.declares name then some id else graph.declaringScope? scope.parent name := by
  rw [← declaringScopeFrom?_of_size_le acyclic (Nat.le_succ _)]
  simp only [declaringScopeFrom?, isScope, declaringScope?]

end

end HeapGraph

end HeapScript
