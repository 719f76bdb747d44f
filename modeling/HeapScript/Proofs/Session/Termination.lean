import HeapScript.Proofs.Heap.Closed
import HeapScript.Proofs.Output.Bodies
import HeapScript.Proofs.Session.Beginnings
import HeapScript.Script
import Mathlib.Data.Finset.Card
import Mathlib.Data.Finset.Range

/-!
Visits to the values of a heap come to an end.

Every value that is visited for the first time gets a name before others are visited, so at most as
many visits are nested as there are values without a name. The `prototype` of a function is an
exception: there the function is visited first. That visit gives the function its name, so the bound
is doubled.
-/

namespace HeapScript

namespace Context

open Classical in
noncomputable def unbegun (context : Context) (begun : Set Beginning) : Finset Nat :=
  (Finset.range context.graph.values.size).filter fun index => .construction ⟨index⟩ ∉ begun

noncomputable def missing (context : Context) (begun : Set Beginning) : Nat :=
  (context.unbegun begun).card

variable {context : Context} {begun later : Set Beginning} {id : ValueId}

theorem mem_unbegun {index : Nat} : index ∈ context.unbegun begun ↔
    index < context.graph.values.size ∧ .construction ⟨index⟩ ∉ begun := by
  simp [unbegun]

theorem missing_le_size : context.missing begun ≤ context.graph.values.size := by
  have subset : context.unbegun begun ⊆ Finset.range context.graph.values.size :=
    fun index member => Finset.mem_range.mpr (mem_unbegun.mp member).1
  simpa [missing] using Finset.card_le_card subset

theorem unbegun_mono (grown : begun ⊆ later) : context.unbegun later ⊆ context.unbegun begun := by
  intro index member
  obtain ⟨inside, isNew⟩ := mem_unbegun.mp member
  exact mem_unbegun.mpr ⟨inside, fun old => isNew (grown old)⟩

theorem missing_mono (grown : begun ⊆ later) : context.missing later ≤ context.missing begun :=
  Finset.card_le_card (unbegun_mono grown)

theorem missing_insert_lt (present : (context.graph.values.get? id).isSome)
    (isNew : .construction id ∉ begun) :
    context.missing (insert (.construction id) begun) < context.missing begun := by
  have subset : context.unbegun (insert (.construction id) begun) ⊆ context.unbegun begun :=
    unbegun_mono (Set.subset_insert _ _)
  refine Finset.card_lt_card ((Finset.ssubset_iff_of_subset subset).mpr ⟨id.index, ?_, ?_⟩)
  · exact mem_unbegun.mpr ⟨Arena.get?_isSome_iff.mp present, isNew⟩
  · simp [mem_unbegun]

/-- The depth that a visit to a value may need. Nothing but a function is visited before the value
that is being visited has its name. -/
structure Suffices (context : Context) (begun : Set Beginning) (id : ValueId) (fuel : Nat) :
    Prop where
  positive : 0 < fuel
  twice : 2 * context.missing begun ≤ fuel
  more : ¬context.graph.HasFunction id → 2 * context.missing begun < fuel

end Context

namespace Session

variable {context : Context} {floor : Set Beginning}

/-- Visits that may be nested deeply enough agree, and are never nested too deeply. -/
theorem mirrors_visitWithin (closed : context.Closed) {fuel fuel' : Nat} {id : ValueId}
    (suffices_ : context.Suffices floor id fuel) (suffices' : context.Suffices floor id fuel') :
    Mirrors floor (visitWithin context fuel id) (visitWithin context fuel' id) := by
  induction fuel generalizing fuel' floor id with
  | zero => exact absurd suffices_.positive (Nat.lt_irrefl 0)
  | succ fuel induction =>
    obtain _ | fuel' := fuel'
    · exact absurd suffices'.positive (Nat.lt_irrefl 0)
    intro begun above
    have fewer : context.missing begun ≤ context.missing floor := Context.missing_mono above
    have twice := suffices_.twice
    have twice' := suffices'.twice
    refine follows_visitValue (fun isNew object owner isObject isOwner => ?_)
      fun isNew present other => ?_
    · -- The object is not a function, so the visit to its owner may be as deep as needed.
      have notFunction : ¬context.graph.HasFunction id := by simp [HeapGraph.HasFunction, isObject]
      have isFunction := (closed.owners id owner isOwner).2
      have more := suffices_.more notFunction
      have more' := suffices'.more notFunction
      have one : context.missing (insert (.construction id) begun) < context.missing begun :=
        Context.missing_insert_lt (by simp [isObject]) isNew
      exact induction ⟨by omega, by omega, fun absent => absurd isFunction absent⟩
        ⟨by omega, by omega, fun absent => absurd isFunction absent⟩
    · have less := Context.missing_insert_lt present isNew
      exact induction ⟨by omega, by omega, fun _ => by omega⟩
        ⟨by omega, by omega, fun _ => by omega⟩

/-- The depth of visits is bounded by the number of values alone. -/
theorem suffices_of_size_lt {fuel : Nat} (enough : 2 * context.graph.values.size < fuel)
    (id : ValueId) : context.Suffices floor id fuel := by
  have few : context.missing floor ≤ context.graph.values.size := Context.missing_le_size
  exact ⟨by omega, by omega, fun _ => by omega⟩

theorem Recounts.run_eq {α : Type} {begun : Set Beginning} {recorded : RecordM α}
    {plain other : SessionM α} {before : Session} (recounts : Recounts begun recorded plain before)
    (recounts' : Recounts begun recorded other before) : plain.run before = other.run before := by
  obtain ⟨-, news, grows, -⟩ := recounts
  obtain ⟨-, news', grows', -⟩ := recounts'
  exact congrArg Prod.fst ((grows []).symm.trans (grows' []))

section

variable (closed : context.Closed)

include closed

theorem mirrors_writeValue (id : ValueId) :
    Mirrors floor (writeValue context id) (writeValue context id) :=
  have enough := suffices_of_size_lt (by omega) id
  mirrors_visitWithin closed enough enough

theorem visitWithin_eq_writeValue {fuel : Nat} (enough : 2 * context.graph.values.size < fuel)
    (id : ValueId) : (visitWithin context fuel id : SessionM Expr) = writeValue context id := by
  funext before
  have visited : Mirrors before.begun (visitWithin context fuel id) (visitWithin context fuel id) :=
    mirrors_visitWithin closed (suffices_of_size_lt enough id) (suffices_of_size_lt enough id)
  have written : Mirrors before.begun (visitWithin context fuel id) (writeValue context id) :=
    mirrors_visitWithin closed (suffices_of_size_lt enough id) (suffices_of_size_lt (by omega) id)
  exact (visited.follows before rfl).run_eq (written.follows before rfl)

/-- Visits are as deep as the heap is: each visit leads to further visits of the same kind. -/
theorem writeValue_eq_visitValue (id : ValueId) :
    (writeValue context id : SessionM Expr) = visitValue context (writeValue context) id := by
  have deeper : 2 * context.graph.values.size < 2 * context.graph.values.size + 2 + 1 := by omega
  exact (visitWithin_eq_writeValue closed deeper id).symm

/-! ## The pass -/

theorem mirrors_effectStmt {effect : Effect} :
    Mirrors floor (effectStmt context effect) (effectStmt context effect) := by
  cases effect with
  | globalAssign name value =>
    exact (mirrors_writeValue closed value).bind fun _ => (Quiet.of_pure _).mirrors
  | propertyAssign object key value =>
    exact (mirrors_writeValue closed object).bind fun _ =>
      (mirrors_writeValue closed value).bind fun _ => (Quiet.of_pure _).mirrors
  | call callee args =>
    exact (mirrors_writeValue closed callee).bind fun _ => Mirrors.bind
      (.mapM fun arg _ => mirrors_writeValue closed arg) fun _ => (Quiet.of_pure _).mirrors

theorem mirrors_writeEffects : Mirrors floor (writeEffects context) (writeEffects context) :=
  .forM fun _ _ => (mirrors_effectStmt closed).bind fun _ => quiet_emit.mirrors

theorem mirrors_captureModified {root : Root} {environment : Option ScopeId} :
    Mirrors floor (captureModified context root environment)
      (captureModified context root environment) :=
  .forM fun _ _ => (mirrors_capture (mirrors_writeValue closed)).bind fun _ =>
    quiet_updateInstance.mirrors

omit closed in
theorem errorsOnly_parentBody_of_depth {records : List RootRecord} {root : Root} :
    ErrorsOnly Failure.NotOfDepth (parentBody records root) := by
  unfold parentBody
  split
  · exact .ok _
  · split <;> simp [Failure.NotOfDepth]

omit closed in
theorem errorsOnly_rootEnvironment_of_depth {function : ValueId} :
    ErrorsOnly Failure.NotOfDepth (rootEnvironment context.graph function) := by
  refine ErrorsOnly.bind_iff.mpr ⟨errorsOnly_value_of_depth, fun value _ => ?_⟩
  split
  · exact .of_pure _
  · exact ErrorsOnly.throw_iff.mpr (by simp [Failure.NotOfDepth])

theorem mirrors_writeRoot {records : List RootRecord} {depth : Nat} {root : Root} :
    Mirrors floor (writeRoot context records depth root)
    (writeRoot context records depth root) := by
  unfold writeRoot
  refine (Quiet.of_lift errorsOnly_parentBody_of_depth).bind_mirrors fun outer => Mirrors.bind
    (.inBody ?_) fun _ => (Quiet.of_lift errorsOnly_rootEnvironment_of_depth).bind_mirrors
      fun environment => quiet_instanceOf.bind_mirrors fun _ => Mirrors.bind
        (.inBody (mirrors_captureModified closed)) fun _ => quiet_newBody.bind_mirrors fun body =>
          .inBody ?_
  · exact (mirrors_writeValue closed _).bind fun _ => (Quiet.of_pure _).mirrors
  · refine Mirrors.bind (.forM fun value _ => ?_) fun _ => Mirrors.bind (.mapM fun entry _ => ?_)
      fun _ => Mirrors.bind (.optionMapM (mirrors_writeValue closed)) fun _ =>
        (Quiet.of_pure _).mirrors
    · exact (mirrors_writeValue closed value).bind fun _ => (Quiet.of_pure _).mirrors
    · exact (mirrors_writeValue closed _).bind fun _ => (Quiet.of_pure _).mirrors

theorem mirrors_writeRootsAfter {records : List RootRecord} {roots : List (Nat × Root)} :
    Mirrors floor (writeRootsAfter context records roots)
      (writeRootsAfter context records roots) := by
  induction roots generalizing records with
  | nil => exact (Quiet.of_pure _).mirrors
  | cons root roots induction => exact (mirrors_writeRoot closed).bind fun _ => induction

theorem mirrors_writeRoots : Mirrors floor (writeRoots context) (writeRoots context) :=
  mirrors_writeRootsAfter closed

end

def writeAll {m : Type → Type} [MonadSession m] (context : Context) : m (List RootRecord) := do
  writeEffects context
  writeRoots context

theorem begun_initial (context : Context) : (initial context).begun = ∅ := by
  ext beginning
  cases beginning <;> simp [Session.begun, initial, SideTable.contains, SideTable.get?,
    KeyedTable.contains]

theorem recounts_writeAll (closed : context.Closed) :
    Recounts ∅ (writeAll context) (writeAll context) (initial context) :=
  ((mirrors_writeEffects closed).bind fun _ => mirrors_writeRoots closed).follows _
    (begun_initial context)

end Session

/-- The writing of all values is never nested too deeply. -/
theorem errorsOnly_writeHeap_of_depth {context : Context} (closed : context.Closed) :
    ErrorsOnly Failure.NotOfDepth (writeHeap context) :=
  ErrorsOnly.bind_iff.mpr ⟨(Session.recounts_writeAll closed).fails, fun _ _ => .of_pure _⟩

end HeapScript
