import HeapScript.Proofs.Heap.ScopeChains
import HeapScript.Proofs.Script.Failures

/-!
Every heap is written to the end.

The bounds on the search for names and on the depth of visits are never met, so the searches and the
visits are those of the recursion without a bound. While a heap is written, each value is
constructed at most once, and so is each captured binding resolved.
-/

namespace HeapScript

def Failure.NotCutOff (failure : Failure) : Prop :=
  failure.NotOfDepth ∧ ∀ id, failure ≠ .prototypeNotObject id

theorem Failure.EndsRun.notCutOff {graph : HeapGraph} {failure : Failure}
    (ends : failure.EndsRun graph) : failure.NotCutOff := by
  rcases ends with ⟨-, isRefusal⟩ | ⟨ends, shallow⟩ | ends
  · constructor <;> rintro id rfl <;> cases isRefusal
  · refine ⟨shallow, ?_⟩
    rintro id rfl
    rcases ends with ends | _
    cases ends
  · constructor <;> rintro id rfl <;> cases ends

open Session

/-- The values of a graph are visited without a bound, and nothing begins twice. -/
structure Context.WritesOnce (context : Context) : Prop where
  /-- The search for a name ends in the outermost scope. -/
  searches : ∀ id scope name, context.graph.scopes.get? id = some scope →
    context.graph.declaringScope? (some id) name =
      if scope.declares name then some id else context.graph.declaringScope? scope.parent name
  /-- A visit leads to further visits of the same kind. -/
  visits : ∀ id, (writeValue context id : SessionM Expr) =
    visitValue context (writeValue context) id
  bounded : ∀ fuel id, 2 * context.graph.values.size < fuel →
    (visitWithin context fuel id : SessionM Expr) = writeValue context id
  /-- In every session a visit keeps within its depth, and nothing begins in it that has begun
  before, or twice. -/
  begins : ∀ id session, Recounts session.begun (writeValue context id)
    (writeValue context id) session
  /-- Nothing begins twice while all values are written, whether or not that succeeds. -/
  once : ∃ record : List Beginning, record.Nodup ∧
    (writeAll context : RecordM _).outcome (Session.initial context) [] =
      ((writeHeap context).map fun written => (written.roots, written.session), record) ∧
    ∀ written, writeHeap context = .ok written →
      ∀ beginning, beginning ∈ record ↔ beginning ∈ written.session.begun

theorem Context.Closed.writesOnce {context : Context} (closed : context.Closed)
    (acyclic : context.graph.AcyclicScopes) : context.WritesOnce where
  searches _ _ _ isScope := HeapGraph.declaringScope?_some acyclic isScope
  visits := writeValue_eq_visitValue closed
  bounded _ id enough := visitWithin_eq_writeValue closed enough id
  begins id session := (mirrors_writeValue closed id).follows session rfl
  once := by
    obtain ⟨-, record, grows, nodup, -, isBegun⟩ := recounts_writeAll closed
    refine ⟨record, nodup, ?_, fun written isWritten beginning => ?_⟩
    · have writes : writeHeap context = (StateT.run (writeAll context)
        (Session.initial context)) >>=
          fun pair => pure { context, session := pair.2, roots := pair.1 } := rfl
      rw [grows, List.append_nil, writes]
      cases StateT.run (writeAll context) (Session.initial context) <;> rfl
    · obtain ⟨⟨roots, session⟩, isRun, same⟩ := bind_eq_ok.mp isWritten
      obtain rfl := pure_eq_ok.mp same
      simp [isBegun roots session isRun]

/-- Writing a heap comes to an end, however cyclic the heap is. No recursion is cut off, and over
the whole run nothing begins twice. -/
theorem materialize_terminates {graph : HeapGraph} (accepted : graph.validate = .ok ())
    (acyclic : graph.AcyclicScopes) (settings : Settings) :
    ErrorsOnly Failure.NotCutOff (materialize graph settings) ∧
      ∃ context, Context.prepare graph settings = .ok context ∧ context.graph = graph ∧
        context.WritesOnce := by
  refine ⟨(errorsOnly_materialize graph settings).mono fun _ ends => ends.notCutOff, ?_⟩
  have closed := HeapGraph.validate_eq_ok.mp accepted
  obtain ⟨context, prepared⟩ := ((Context.errorsOnly_prepare graph settings).mono
    fun _ refused => refused.1 closed).exists_ok
  obtain ⟨rfl, -⟩ := Context.prepare_eq_ok prepared
  exact ⟨context, prepared, rfl, (Context.closed_of_prepare prepared).writesOnce acyclic⟩

theorem linkedHeap_terminates :
    linkedHeap.validate = .ok () ∧ linkedHeap.AcyclicScopes ∧
      ErrorsOnly Failure.NotCutOff (materialize linkedHeap {}) ∧
      ∃ context, Context.prepare linkedHeap {} = .ok context ∧ context.graph = linkedHeap ∧
        context.WritesOnce := by
  have acyclic : linkedHeap.AcyclicScopes := by
    refine .of_lt fun inner outer lies => ?_
    obtain ⟨scope, isScope, isParent⟩ := lies
    rcases inner with ⟨_ | _ | index⟩ <;> cases isScope <;> cases isParent
    decide
  exact ⟨by rfl, acyclic, materialize_terminates (by rfl) acyclic {}⟩

end HeapScript
