import HeapScript.Proofs.Heap.Closed
import HeapScript.Proofs.Session.Outcome

/-!
The names of values are fresh at any time of a run.
-/

namespace HeapScript

open Session

/-- The names of values are fresh. Whatever a run has done so far, no two values share a name, a
value keeps its name from then on, and the name occurs nowhere in the code of the graph or in the
body of an optimized root. -/
theorem identifiers_areFresh {graph : HeapGraph} {settings : Settings} {context : Context}
    (prepared : Context.prepare graph settings = .ok context) :
    (∀ written, writeHeap context = .ok written → Reached context written.session) ∧
    (∀ session, Reached context session → ∀ id, Under context session id → ∀ expr after,
      Runs (writeValue context id) session expr after → Moves context session after) ∧
    ∀ session, Reached context session →
      (∀ id other name, session.identifiers.get? id = some name →
        session.identifiers.get? other = some name → id = other) ∧
      (∀ later, Moves context session later → ∀ id name,
        session.identifiers.get? id = some name → later.identifiers.get? id = some name) ∧
      ∀ id name, session.identifiers.get? id = some name →
        (∀ code ∈ graph.codeBlocks.toList,
          name ∉ code.function.ownName.toList ++ code.function.names) ∧
        ∀ root ∈ graph.roots, name ∉ namesOfStmts root.body := by
  obtain ⟨rfl, -, areFacts, -⟩ := Context.prepare_eq_ok prepared
  refine ⟨fun written isWritten => ?_, fun session reached id under expr after =>
    reached.moves_writeValue under, fun session reached => ?_⟩
  · obtain ⟨rfl, complete⟩ := writeHeap_eq_ok isWritten
    exact complete.advances.moves
  obtain ⟨valid, named⟩ := reached.invariant (fun step _ named => named.step step)
    (fun _ _ named => { named with }) (valid_initial context) (Named.initial context)
  refine ⟨named.distinct, fun later moves => (moves.extends_ valid).identifiers,
    fun id name isNamed => ⟨fun code isCode => ?_, fun root isRoot => ?_⟩⟩
  · exact named.not_mem_code areFacts isNamed isCode
  · exact named.not_mem_root isNamed isRoot

def familiarNames : HeapGraph where
  values := .ofList [
    .object { properties := [{ key := "run", value := ⟨1⟩ }] },
    .function { code := ⟨0⟩ }]
  codeBlocks := .ofList [{ function := {
    name := some "_0"
    params := [.pattern (.array [.var "_1"])]
    body := [.forOf "_3" true (.var "_2") []] } }]
  roots := [{ function := ⟨1⟩, body := [.expr (.classExpr ⟨some "_5", none, []⟩)] }]
  effects := [.globalAssign "it" ⟨0⟩]

set_option maxRecDepth 20000 in
theorem familiarNames_areFresh : ∃ context written,
    Context.prepare familiarNames {} = .ok context ∧ writeHeap context = .ok written ∧
    written.session.identifiers.get? ⟨0⟩ = some "_4" ∧
    written.session.identifiers.get? ⟨1⟩ = some "_6" ∧
    (∀ code ∈ familiarNames.codeBlocks.toList,
      "_4" ∉ code.function.ownName.toList ++ code.function.names) ∧
    ∀ root ∈ familiarNames.roots, "_6" ∉ namesOfStmts root.body := by
  obtain ⟨written, found, check⟩ : ∃ written,
      (Context.prepare familiarNames {} >>= writeHeap) = .ok written ∧
        (written.session.identifiers.get? ⟨0⟩ == some "_4" &&
          written.session.identifiers.get? ⟨1⟩ == some "_6") = true :=
    exists_ok (by decide +kernel)
  obtain ⟨context, prepared, isWritten⟩ := bind_eq_ok.mp found
  simp only [Bool.and_eq_true, beq_iff_eq] at check
  obtain ⟨reached, -, fresh⟩ := identifiers_areFresh prepared
  obtain ⟨-, -, apart⟩ := fresh written.session (reached written isWritten)
  exact ⟨context, written, prepared, isWritten, check.1, check.2, (apart _ _ check.1).1,
    (apart _ _ check.2).2⟩

end HeapScript
