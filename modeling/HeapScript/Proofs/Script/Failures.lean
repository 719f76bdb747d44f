import HeapScript.Proofs.Assembly.Failures
import HeapScript.Proofs.Session.Pass
import HeapScript.Proofs.Session.Termination

/-!
The reasons for which no script is made from a heap graph.

A graph that is not closed is refused. For a closed one the writing of values and the assembly of
the script each have a short list of reasons to fail. No lookup in the graph is on these lists, and
nothing that the session and the assembly keep track of themselves.
-/

namespace HeapScript

/-! ## The whole run -/

/-- The failures for which no script is made from a graph. -/
inductive Failure.EndsRun (graph : HeapGraph) (failure : Failure) : Prop where
  | refused (notClosed : ¬graph.Closed) (isRefusal : HeapGraph.IsRefusal failure)
  | writing (ends : failure.EndsPass graph) (shallow : failure.NotOfDepth)
  | assembly (ends : failure.EndsAssembly graph)

namespace Written.Complete

variable {written : Written}

theorem deferred (complete : written.Complete) (id : ValueId) :
    written.session.deferred.get? id = none := by
  refine Option.eq_none_iff_forall_ne_some.mpr fun works found => ?_
  have started := complete.idle.valid.awaited id works found
  simp [complete.idle.inProgress] at started

theorem checkFinished (complete : written.Complete) :
    checkFinished written.session = .ok () := by
  have empty := KeyedTable.isEmpty_of_get? complete.deferred
  simp [HeapScript.checkFinished, complete.atTop, complete.idle.inProgress, empty, pure,
    Except.pure]

theorem exists_lazyPrelude (complete : written.Complete) (settings : Option LazySettings) :
    ∃ stmts, lazyPrelude written.session settings = .ok stmts := by
  have areCases : ∃ cases, written.session.lazyObjects.entries.mapM
      (lazyCase written.session.bodies) = .ok cases := by
    refine exists_mapM fun entry member => ?_
    have found := KeyedTable.get?_eq_some_of_mem complete.kept.housed.distinctLazy member
    obtain ⟨-, body, isBody, -⟩ := complete.idle.valid.lazyObjects entry.1 entry.2 found
    exact ⟨_, lazyCase_eq_ok.mpr ⟨body, isBody, rfl⟩⟩
  obtain ⟨cases, areCases⟩ := areCases
  unfold lazyPrelude
  split
  · exact ⟨[], rfl⟩
  · exact ⟨[], rfl⟩
  · exact ⟨_, bind_eq_ok.mpr ⟨cases, areCases, rfl⟩⟩

end Written.Complete

theorem errorsOnly_materialize (graph : HeapGraph) (settings : Settings) :
    ErrorsOnly (Failure.EndsRun graph) (materialize graph settings) := by
  unfold materialize
  rw [ErrorsOnly.bind_iff]
  refine ⟨(Context.errorsOnly_prepare graph settings).mono fun _ refused =>
    .refused refused.1 refused.2, fun context prepared => ?_⟩
  have closed := Context.closed_of_prepare prepared
  rw [ErrorsOnly.bind_iff]
  obtain ⟨isGraph, -⟩ := Context.prepare_eq_ok prepared
  refine ⟨fun failure failed => .writing (isGraph ▸ errorsOnly_writeHeap closed failure failed)
    (errorsOnly_writeHeap_of_depth closed failure failed), fun written isWritten => ?_⟩
  obtain ⟨rfl, complete⟩ := writeHeap_eq_ok isWritten
  dsimp only
  obtain ⟨lazyStmts, isLazy⟩ := complete.exists_lazyPrelude settings.lazyObjects
  rw [ErrorsOnly.bind_iff]
  refine ⟨fun _ failed => (by cases isLazy.symm.trans failed), fun _ _ => ?_⟩
  rw [ErrorsOnly.bind_iff]
  have assembles : ErrorsOnly (Failure.EndsAssembly graph) _ :=
    isGraph ▸ Assembly.failsOnly_assemble complete closed
  refine ⟨assembles.mono fun _ => .assembly, fun _ _ => ?_⟩
  simp [complete.checkFinished, bind, Except.bind]

/-! ## Lookups -/

/-- The failures of looking up an entity of a graph. -/
inductive Failure.IsLookup : Failure → Prop where
  | unknownValue (id : ValueId) : IsLookup (.unknownValue id)
  | unknownCode (id : CodeId) : IsLookup (.unknownCode id)
  | unknownScope (id : ScopeId) : IsLookup (.unknownScope id)

theorem Failure.EndsRun.not_isLookup {graph : HeapGraph} {failure : Failure}
    (ends : failure.EndsRun graph) : ¬failure.IsLookup := by
  intro isLookup
  rcases ends with ⟨-, isRefusal⟩ | ⟨ends | _, -⟩ | ends
  · cases isLookup <;> cases isRefusal
  · cases isLookup <;> cases ends
  · cases isLookup
  · cases isLookup <;> cases ends

theorem Failure.EndsRun.kind_ne {graph : HeapGraph} {failure : Failure}
    (ends : failure.EndsRun graph) (closed : graph.Closed) : failure.kind ≠ .invalidGraph := by
  intro isRefusal
  rcases ends with ⟨notClosed, -⟩ | ⟨ends | _, -⟩ | ends
  · exact notClosed closed
  · cases ends <;> cases isRefusal
  · cases isRefusal
  · cases ends <;> cases isRefusal

/-- The check of a graph is enough for all lookups. When a graph passes the check, every value,
code block and scope that is looked up on the way to a script is there. No reference is found to be
missing later on either. -/
theorem materialize_findsAll {graph : HeapGraph} (accepted : graph.validate = .ok ())
    (settings : Settings) :
    ErrorsOnly (fun failure => ¬failure.IsLookup ∧ failure.kind ≠ .invalidGraph)
      (materialize graph settings) := by
  have closed := HeapGraph.validate_eq_ok.mp accepted
  exact (errorsOnly_materialize graph settings).mono fun _ ends =>
    ⟨ends.not_isLookup, ends.kind_ne closed⟩

/-- A class with a method that captures a variable, and an optimized root that creates an object. -/
def linkedHeap : HeapGraph where
  values := .ofList [
    .function { code := ⟨0⟩, prototype := some ⟨1⟩, classMethod := some (member .constructor) },
    .object { properties := [⟨"m", ⟨2⟩⟩], prototype := some ⟨3⟩ },
    .function { code := ⟨1⟩, environment := some ⟨1⟩, classMethod := some (member .method) },
    .object {},
    .function { code := ⟨1⟩, environment := some ⟨0⟩ }]
  codeBlocks := .ofList [{ function := {} }, { function := { body := [.expr (.var "x")] } }]
  scopes := .ofList [{ bindings := .ofList [("x", some ⟨0⟩)] }, { parent := some ⟨0⟩ }]
  effects := [.call ⟨0⟩ [⟨4⟩]]
  roots := [{ function := ⟨4⟩, values := [⟨3⟩], modifiedBindings := [("x", ⟨1⟩)] }]
  moduleReplacements := [("lib", ⟨1⟩)]
where
  member (kind : MethodKind) : ClassMethod :=
    { kind, key := "m", isStatic := false, isComputed := false, classPrototype := ⟨1⟩,
      constructor := ⟨0⟩, superClass := none }

theorem linkedHeap_findsAll : linkedHeap.validate = .ok () ∧
    ErrorsOnly (fun failure => ¬failure.IsLookup ∧ failure.kind ≠ .invalidGraph)
      (materialize linkedHeap {}) :=
  ⟨by rfl, materialize_findsAll (by rfl) {}⟩

/-! ## Bookkeeping -/

/-- The failures that only a slip in the bookkeeping could bring about. -/
inductive Failure.IsBookkeeping : Failure → Prop where
  | cursorUnderflow : IsBookkeeping .cursorUnderflow
  | bodiesLeftOpen (count : Nat) : IsBookkeeping (.bodiesLeftOpen count)
  | valuesUnfinished : IsBookkeeping .valuesUnfinished
  | noInsertionPoint (function : ValueId) : IsBookkeeping (.noInsertionPoint function)
  | insertionPastEnd (index : Nat) (body : BodyId) (size : Nat) :
      IsBookkeeping (.insertionPastEnd index body size)
  | noIdentifier (id : ValueId) : IsBookkeeping (.noIdentifier id)
  | noFacts (code : CodeId) : IsBookkeeping (.noFacts code)
  | noLazyNumber (id : ValueId) : IsBookkeeping (.noLazyNumber id)
  | noInitializer (id : ValueId) : IsBookkeeping (.noInitializer id)

theorem Failure.EndsRun.not_isBookkeeping {graph : HeapGraph} {failure : Failure}
    (ends : failure.EndsRun graph) : ¬failure.IsBookkeeping := by
  intro isBookkeeping
  rcases ends with ⟨-, isRefusal⟩ | ⟨ends | _, -⟩ | ends
  · cases isBookkeeping <;> cases isRefusal
  · cases isBookkeeping <;> cases ends
  · cases isBookkeeping
  · cases isBookkeeping <;> cases ends

/-- The books of a session are closed: nothing that was begun is left, and whatever the assembly
needs is there. -/
structure Written.BooksClosed (written : Written) : Prop where
  /-- The cursor is back at the top level. -/
  atTop : written.session.bodies.entered = []
  finished : written.session.inProgress = []
  /-- Nothing waits for a value to be finished. -/
  flushed : ∀ id, written.session.deferred.get? id = none
  /-- Every reached function has its place within a body. -/
  placed : ∀ id inst, written.session.instances.get? id = some inst →
    ∃ point, inst.insertionPoint = some point ∧
      point.index ≤ (written.session.bodies.stmts point.body).length
  numbered : written.session.lazyObjects.values.map (·.number) =
    List.range' 1 written.session.lazyObjects.size
  /-- Every lazy object has got a body, one that was made to fill it. -/
  lazyObjects : ∀ id object, written.session.lazyObjects.get? id = some object →
    ∃ body, object.body = some body ∧ written.session.bodies.kind body = .lazyInitializer id
  /-- A body that fills a lazy object is the one on record for the object. -/
  lazyBodies : ∀ id body, written.session.bodies.kind body = .lazyInitializer id →
    ∃ object, written.session.lazyObjects.get? id = some object ∧ object.body = some body
  /-- A place where definitions wait is within its body until they are put there. -/
  spliced : ∀ assembly,
    Runs (Assembly.defineAll written) { bodies := withoutLazyBodies written.session } () assembly →
    ∀ body, ∀ group ∈ assembly.splices.groupsOf body,
      group.index ≤ (assembly.bodies.stmts body).length

theorem Written.Complete.booksClosed {written : Written} (complete : written.Complete)
    (closed : written.context.Closed) : written.BooksClosed where
  atTop := complete.atTop
  finished := complete.idle.inProgress
  flushed := complete.deferred
  placed id inst isInstance := by
    obtain ⟨point, isPoint⟩ := Option.ne_none_iff_exists'.mp (complete.placed isInstance)
    exact ⟨point, isPoint, complete.kept.points id inst point isInstance isPoint⟩
  numbered := complete.kept.housed.numbered
  lazyObjects id object isLazy := by
    obtain ⟨-, body, isBody, -⟩ := complete.idle.valid.lazyObjects id object isLazy
    exact ⟨body, isBody, complete.kept.housed.kind_of_lazyBody
      (KeyedTable.mem_entries_of_get? isLazy) isBody⟩
  lazyBodies id body isKind :=
    Option.bind_eq_some_iff.mp ((complete.kept.housed.lazyObjects body id).mp isKind)
  spliced assembly defining body group isGroup := by
    exact (Assembly.Fits.defineAll complete closed defining (.initial complete)).inside isGroup

/-- The books always balance. Whatever the graph and the settings are, no script is missed for
want of something that the run itself keeps track of. When the values of a graph are written, every
value that was begun is complete, all that waited for one has been done, and every function has a
place that stays within its body until the definitions are put there. -/
theorem materialize_closesBooks (graph : HeapGraph) (settings : Settings) :
    ErrorsOnly (fun failure => ¬failure.IsBookkeeping) (materialize graph settings) ∧
      ∀ written, Context.prepare graph settings >>= writeHeap = .ok written →
        written.BooksClosed := by
  refine ⟨(errorsOnly_materialize graph settings).mono fun _ ends => ends.not_isBookkeeping,
    fun written isWritten => ?_⟩
  obtain ⟨context, prepared, isWritten⟩ := bind_eq_ok.mp isWritten
  obtain ⟨rfl, complete⟩ := writeHeap_eq_ok isWritten
  exact complete.booksClosed (Context.closed_of_prepare prepared)

end HeapScript
